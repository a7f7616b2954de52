/-
Requests one after another, and requests interleaved.

Where every document reads on the second trip as on the first, the requests might as well have
been served one by one; a PATCH that goes by an old reading writes it back.
-/
import Packets.Api.Redacted
import Mathlib.Data.List.Permutation

namespace Packets

theorem toOption_bind {ε α β : Type} (x : Except ε α) (f : α → Except ε β) :
    (x >>= f).toOption = x.toOption.bind fun a => (f a).toOption := by
  cases x <;> rfl

theorem getPath_append (doc : Json) (path rest : Path) :
    getPath doc (path ++ rest) = (getPath doc path).bind fun sub => getPath sub rest := by
  induction path generalizing doc with
  | nil => rfl
  | cons key path ih =>
    cases doc with
    | dict fields =>
      rw [List.cons_append, getPath, getPath]
      cases fields.lookup key with
      | none => rfl
      | some value => exact ih value
    | _ => rfl

theorem fillNode_congr {g h : Json → Path → Json} {n : Node} {doc : Json} {path : Path}
    (hsame : ∀ x ∈ covered n doc path, g x.2 x.1 = h x.2 x.1) :
    fillNode g n doc path = fillNode h n doc path := by
  have hg : walkNode (m := Id) (fun value path => pure (g value path)) n doc path =
      fillNode g n doc path := walkNode_pure fun _ _ => rfl
  have hh : walkNode (m := Id) (fun value path => pure (g value path)) n doc path =
      fillNode h n doc path := walkNode_pure fun x hx => congrArg pure (hsame x hx)
  exact hg.symm.trans hh

namespace ConfigStore

variable (store : ConfigStore)

/-- The object at a path as it is shown, behind the placeholders, is the stored one. -/
theorem fillFields_veil_shown {target : Path} {current : List (String × Json)}
    (hget : getPath store.stored target = some (.dict current)) :
    fillFields (veil store.stored) (store.schema.root.descend target) target
        (fillFields (fun value _ => redactLeaf value) (store.schema.root.descend target)
          target current) =
      fillFields (veil store.stored) (store.schema.root.descend target) target current := by
  have hfill : fillNode (veil store.stored) (store.schema.root.descend target)
      (fillNode (fun value _ => redactLeaf value) (store.schema.root.descend target)
        (.dict current) target) target =
      fillNode (veil store.stored) (store.schema.root.descend target) (.dict current)
        target := by
    rw [fillNode_fillNode]
    apply fillNode_congr
    intro x hx
    obtain ⟨rest, hpath, hplace⟩ := getPath_of_covered (wellKeyed_getPath store.wellKeyed hget) hx
    apply veil_redactLeaf
    rw [hpath, getPath_append, hget]
    exact hplace
  rw [fillNode_dict, fillNode_dict, fillNode_dict, Json.dict.injEq] at hfill
  exact hfill

theorem objectAt_shown (target : Path) :
    objectAt (getPath store.shown.1 target) =
      (objectAt (getPath store.stored target)).map
        (fillFields (fun value _ => redactLeaf value) (store.schema.root.descend target)
          target) := by
  have hshown : store.shown.1 = .dict store.shownFields := store.document_true
  rw [hshown, shownFields]
  exact getPath_fillNode leafwise_redactLeaf store.schema.root store.fields target []

theorem storedPath_shown (path : Path) :
    storedPath (some store.shown.1) path = storedPath (some store.stored) path := by
  have hshown : store.shown.1 = .dict store.shownFields := store.document_true
  rw [hshown, shownFields]
  exact storedPath_fillNode leafwise_redactLeaf store.schema.root store.fields path []

theorem getPath_isSome_shown (path : Path) :
    (getPath store.shown.1 path).isSome = (getPath store.stored path).isSome := by
  have hshown : store.shown.1 = .dict store.shownFields := store.document_true
  rw [hshown, shownFields]
  exact getPath_isSome_fillNode leafwise_redactLeaf store.schema.root store.fields path []

theorem accept_toOption (proposed : Json) :
    (store.accept proposed).toOption =
      (resolveSecrets store.schema store.stored proposed).toOption.bind fun resolved =>
        (Node.validate store.schema.root resolved []).toOption.map fun _ => resolved := by
  rw [accept, toOption_bind]
  congr 1
  funext resolved
  rw [toOption_bind]
  cases Node.validate store.schema.root resolved [] <;> rfl

/-- Objects that look alike behind the placeholders make one proposal. -/
theorem proposeSet_congr {path : Path} {value value' : List (String × Json)}
    (halike : fillFields (veil store.stored) (store.schema.root.descend path) path value =
      fillFields (veil store.stored) (store.schema.root.descend path) path value') :
    (store.proposeSet path (.dict value)).toOption =
      (store.proposeSet path (.dict value')).toOption := by
  have hleaf := leafwise_veil store.stored
  have hone : ∀ {v v' : List (String × Json)} {fields : List (String × Json)},
      fillFields (veil store.stored) (store.schema.root.descend path) path v =
        fillFields (veil store.stored) (store.schema.root.descend path) path v' →
      setPath store.fields path (.dict v) [] = .ok fields →
      ∃ fields', setPath store.fields path (.dict v') [] = .ok fields' ∧
        fillFields (veil store.stored) store.schema.root [] fields =
          fillFields (veil store.stored) store.schema.root [] fields' := by
    intro v v' fields hv hset
    exact @setPath_congr _ hleaf _ _ _ [] _ _ hv [] _ hset
  rw [proposeSet, proposeSet, toOption_bind, toOption_bind]
  cases hset : setPath store.fields path (.dict value) [] with
  | ok fields =>
    obtain ⟨fields', hset', hfill⟩ := hone halike hset
    rw [hset']
    change (store.accept (.dict fields)).toOption = (store.accept (.dict fields')).toOption
    rw [accept_toOption, accept_toOption, resolveSecrets_congr hfill]
  | error e =>
    cases hset' : setPath store.fields path (.dict value') [] with
    | ok fields' =>
      obtain ⟨fields, hset'', -⟩ := hone halike.symm hset'
      exact absurd (hset.symm.trans hset'') (by simp)
    | error e' => rfl

end ConfigStore

theorem planMerge_ok_iff {document : Doc} {path : Path} {body : Doc} {write : Write} :
    planMerge document path body = .ok write ↔
      ∃ patch current value, body.1 = .dict patch ∧
        getPath document.1 (storedPath (some document.1) path) = some (.dict current) ∧
        value.1 = .dict (deepMerge current patch) ∧
        write = .set (storedPath (some document.1) path) value := by
  rw [planMerge]
  split
  · next patch hbody =>
    simp only [hbody, Json.dict.injEq, exists_and_left, exists_eq_left']
    split
    · next hget => simp [hget]
    · next current hget =>
      constructor
      · intro h
        cases h
        exact ⟨current, hget, ⟨_, _⟩, rfl, rfl⟩
      · rintro ⟨current', hcurrent, ⟨value, hkeyed⟩, rfl, rfl⟩
        rw [hget, Option.some.injEq, Json.dict.injEq] at hcurrent
        subst hcurrent
        rfl
    · next other hother hget =>
      constructor
      · intro h
        exact absurd h (by simp)
      · rintro ⟨current, hcurrent, -⟩
        rw [hget, Option.some.injEq] at hcurrent
        exact absurd hcurrent (hother current)
  · next hbody =>
    constructor
    · intro h
      exact absurd h (by simp)
    · rintro ⟨patch, -, -, hpatch, -⟩
      exact absurd hpatch (hbody patch)

theorem planInstall_ok_iff {document body : Doc} {write : Write} :
    planInstall document body = .ok write ↔
      ∃ patch value, body.1 = .dict patch ∧
        (patch.map Prod.fst).filter (fun key => !INSTALL_KEYS.contains key) = [] ∧
        value.1 = .dict (mergeInstall (installFields document.1) patch) ∧
        write = .set IP_ROUTE value := by
  rw [planInstall]
  split
  · next patch hbody =>
    simp only [hbody, Json.dict.injEq, exists_and_left, exists_eq_left']
    split
    · next hunknown =>
      constructor
      · intro h
        exact absurd h (by simp)
      · rintro ⟨hnone, -⟩
        exact absurd hnone hunknown
    · next hknown =>
      constructor
      · intro h
        cases h
        exact ⟨not_not.mp hknown, ⟨_, _⟩, rfl, rfl⟩
      · rintro ⟨-, ⟨value, hkeyed⟩, rfl, rfl⟩
        rfl
  · next hbody =>
    constructor
    · intro h
      exact absurd h (by simp)
    · rintro ⟨patch, -, hpatch, -⟩
      exact absurd hpatch (hbody patch)

theorem installFields_eq (document : Json) :
    installFields document = (objectAt (getPath document IP_ROUTE)).getD [] := by
  rw [installFields]
  split
  · next fields hget => simp [hget, objectAt]
  · next hother =>
    cases hget : getPath document IP_ROUTE with
    | none => rfl
    | some value =>
      cases value with
      | dict fields => exact absurd hget (hother fields)
      | _ => rfl

theorem fillFields_mergeInstall {h : Json → Path → Json} (hleaf : Leafwise h) (n : Node)
    (path : Path) (current patch : List (String × Json)) :
    fillFields h n path (mergeInstall current patch) =
      mergeInstall (fillFields h n path current) (fillFields h n path patch) := by
  simp only [mergeInstall, lookup_fillFields]
  have hmerged : fillFields h n path (deepMerge (eraseField "static" current) patch) =
      deepMerge (eraseField "static" (fillFields h n path current))
        (fillFields h n path patch) := by
    rw [fillFields_deepMerge hleaf, fillFields_eraseField]
  cases current.lookup "static" with
  | none => exact hmerged
  | some statics =>
    simp only [Option.map_some]
    rw [fillFields_setEntries, hmerged]

namespace ConfigStore

variable (store : ConfigStore)

/-- What a request decides from the redacted document proposes what it would decide from
the document itself. -/
theorem plan_shown {ask : Ask} {write : Write} (h : plan store.shown ask = .ok write) :
    ∃ write', plan store.whole ask = .ok write' ∧
      (store.propose write).toOption = (store.propose write').toOption := by
  have hleaf := leafwise_veil store.stored
  cases ask with
  | put path value =>
    refine ⟨write, ?_, rfl⟩
    rw [← h, plan, plan, storedPath_shown]
    rfl
  | delete path =>
    refine ⟨write, ?_, rfl⟩
    have hspelt := store.storedPath_shown path
    have hsome := store.getPath_isSome_shown (storedPath (some store.stored) path)
    simp only [plan, whole] at h ⊢
    rw [hspelt] at h
    cases hshown : getPath store.shown.1 (storedPath (some store.stored) path) with
    | none => simp [hshown] at h
    | some value =>
      rw [hshown] at h hsome
      obtain ⟨value', hwhole⟩ := Option.isSome_iff_exists.mp hsome.symm
      simp only [hwhole]
      exact h
  | patch path body =>
    obtain ⟨patch, current, value, hbody, hget, hvalue, rfl⟩ := planMerge_ok_iff.mp h
    rw [storedPath_shown] at hget ⊢
    generalize hactual : storedPath (some store.stored) path = actual at hget ⊢
    have hobject := store.objectAt_shown actual
    rw [hget] at hobject
    obtain ⟨current', hcurrent', rfl⟩ := Option.map_eq_some_iff.mp hobject.symm
    have hstored := objectAt_eq_some.mp hcurrent'
    have hkeyed : (Json.dict (deepMerge current' patch)).WellKeyed :=
      wellKeyed_deepMerge (wellKeyed_getPath store.wellKeyed hstored)
        (wellKeyed_dict_iff.mp (hbody ▸ body.2)).2
    refine ⟨.set actual ⟨.dict (deepMerge current' patch), hkeyed⟩, ?_, ?_⟩
    · apply planMerge_ok_iff.mpr
      refine ⟨patch, current', ⟨_, hkeyed⟩, hbody, ?_, rfl, ?_⟩
      · rw [← hactual] at hstored
        exact hstored
      · rw [← hactual]
        rfl
    · rw [propose, propose, hvalue]
      apply proposeSet_congr
      rw [fillFields_deepMerge hleaf, fillFields_deepMerge hleaf,
        store.fillFields_veil_shown hstored]
  | patchInstall body =>
    obtain ⟨patch, value, hbody, hknown, hvalue, rfl⟩ := planInstall_ok_iff.mp h
    have hkeyed : (Json.dict (mergeInstall (installFields store.stored) patch)).WellKeyed :=
      wellKeyed_mergeInstall (wellKeyed_installFields store.whole) (hbody ▸ body.2)
    refine ⟨.set IP_ROUTE ⟨_, hkeyed⟩, ?_, ?_⟩
    · exact planInstall_ok_iff.mpr ⟨patch, ⟨_, hkeyed⟩, hbody, hknown, rfl, rfl⟩
    · rw [propose, propose, hvalue]
      apply proposeSet_congr
      rw [fillFields_mergeInstall hleaf, fillFields_mergeInstall hleaf, installFields_eq,
        installFields_eq, objectAt_shown]
      cases hobject : objectAt (getPath store.stored IP_ROUTE) with
      | none => rfl
      | some current =>
        have hstored := objectAt_eq_some.mp hobject
        rw [Option.map_some, Option.getD_some, Option.getD_some,
          store.fillFields_veil_shown hstored]

variable (store : ConfigStore)

theorem settle_error {write : Write} {e : ConfigError} (h : store.propose write = .error e) :
    store.settle write = .error e := by
  unfold settle
  split
  · next e' he' =>
    rw [h] at he'
    cases he'
    rfl
  · next proposed hproposed =>
    rw [h] at hproposed
    cases hproposed

theorem settle_ok {write : Write} {proposed : Json} (h : store.propose write = .ok proposed) :
    store.settle write =
      if (store.diff proposed).isEmpty then .ok none
      else .ok (some (store.commit (proposedFields proposed) (accepts_proposedFields h))) := by
  unfold settle
  split
  · next e he =>
    rw [h] at he
    cases he
  · next proposed' hproposed =>
    rw [h] at hproposed
    cases hproposed
    rfl

theorem settle_congr {write write' : Write}
    (h : (store.propose write).toOption = (store.propose write').toOption) :
    (store.settle write).toOption = (store.settle write').toOption := by
  cases hone : store.propose write with
  | error e =>
    cases hother : store.propose write' with
    | error e' => rw [store.settle_error hone, store.settle_error hother]; rfl
    | ok proposed => simp [hone, hother, Except.toOption] at h
  | ok proposed =>
    cases hother : store.propose write' with
    | error e => simp [hone, hother, Except.toOption] at h
    | ok proposed' =>
      have hsame : proposed = proposed' := by simpa [hone, hother, Except.toOption] using h
      subst hsame
      rw [store.settle_ok hone, store.settle_ok hother]

/-- One request by itself: it decides from the document as it is, and every plugin and
the core take the change. -/
def serve (ask : Ask) : Option ConfigStore :=
  match plan store.whole ask with
  | .error _ => none
  | .ok write => (store.settle write).toOption.map fun settled => settled.getD store

/-- Requests one after another. -/
def serveAll (requests : List Request) : Option ConfigStore :=
  requests.foldlM (fun store request => store.serve request.ask) store

/-- A second trip that decided from the document as it is now does what the request does
by itself. -/
theorem serve_of_settle {ask : Ask} {write : Write} {settled : Option ConfigStore}
    (hplan : plan store.shown ask = .ok write) (hsettle : store.settle write = .ok settled) :
    store.serve ask = some (settled.getD store) := by
  obtain ⟨write', hwhole, hpropose⟩ := store.plan_shown hplan
  have hsame := store.settle_congr hpropose
  rw [hsettle] at hsame
  simp only [serve, hwhole, ← hsame]
  rfl

theorem getPath_of_delPath {fields fields' : List (String × Json)} {path : Path}
    (h : delPath fields path = some fields') : (getPath (.dict fields) path).isSome := by
  induction path generalizing fields fields' with
  | nil => rfl
  | cons key rest ih =>
    cases rest with
    | nil =>
      rw [delPath] at h
      rw [getPath]
      cases hlook : fields.lookup key with
      | none => simp [hlook] at h
      | some value => rfl
    | cons next rest =>
      obtain ⟨sub, sub', hlook, hsub, -⟩ := delPath_cons_iff.mp h
      rw [getPath, hlook]
      exact ih hsub

theorem getPath_of_unset {path : Path} {settled : Option ConfigStore}
    (h : store.settle (.unset path) = .ok settled) : (getPath store.shown.1 path).isSome := by
  rw [getPath_isSome_shown]
  cases hpropose : store.propose (.unset path) with
  | error e =>
    rw [store.settle_error hpropose] at h
    cases h
  | ok proposed =>
    rw [propose, proposeDelete] at hpropose
    split at hpropose
    · exact absurd hpropose (by simp [fail])
    split at hpropose
    · exact absurd hpropose (by simp [fail])
    next fields hdel => exact getPath_of_delPath hdel

end ConfigStore

/-- The document reads as it did, as far as a request went by its reading: the keys of its path,
and what a PATCH merges into. -/
def ReadsSame (seen now : Doc) : Ask → Prop
  | .put path _ | .delete path => storedPath (some now.1) path = storedPath (some seen.1) path
  | .patch path _ =>
    storedPath (some now.1) path = storedPath (some seen.1) path ∧
      getPath now.1 (storedPath (some now.1) path) = getPath seen.1 (storedPath (some seen.1) path)
  | .patchInstall _ => getPath now.1 IP_ROUTE = getPath seen.1 IP_ROUTE

theorem plan_of_readsSame {store : ConfigStore} {seen : Doc} {ask : Ask} {write : Write}
    {settled : Option ConfigStore} (hplan : plan seen ask = .ok write)
    (hsame : ReadsSame seen store.shown ask) (hsettle : store.settle write = .ok settled) :
    plan store.shown ask = .ok write := by
  cases ask with
  | put path value =>
    rw [plan, hsame]
    exact hplan
  | delete path =>
    have hpath : storedPath (some store.shown.1) path = storedPath (some seen.1) path := hsame
    simp only [plan, hpath] at hplan ⊢
    cases hseen : getPath seen.1 (storedPath (some seen.1) path) with
    | none => simp [hseen] at hplan
    | some value =>
      rw [hseen] at hplan
      cases hplan
      obtain ⟨value', hvalue'⟩ := Option.isSome_iff_exists.mp (store.getPath_of_unset hsettle)
      rw [hvalue']
  | patch path body =>
    obtain ⟨patch, current, value, hbody, hget, hvalue, rfl⟩ := planMerge_ok_iff.mp hplan
    apply planMerge_ok_iff.mpr
    exact ⟨patch, current, value, hbody, hsame.2.trans hget, hvalue, by rw [hsame.1]⟩
  | patchInstall body =>
    obtain ⟨patch, value, hbody, hknown, hvalue, rfl⟩ := planInstall_ok_iff.mp hplan
    apply planInstall_ok_iff.mpr
    have hfields : installFields store.shown.1 = installFields seen.1 := by
      rw [installFields_eq, installFields_eq, hsame]
    exact ⟨patch, value, hbody, hknown, by rw [hfields, hvalue], rfl⟩

namespace Api

variable {s : Api} {store : ConfigStore}

/-- Between trips, the requests answered success lead, served one by one, to the document in
force; and a request between its trips decided by its reading, which is that document as long as
the revision is the same. -/
structure Consistent (store : ConfigStore) (s : Api) : Prop where
  serial : store.serveAll s.answered = some s.running.store
  planned : ∀ thread p, s.pending.get? thread = some p → plan p.seen p.request.ask = .ok p.write
  current : ∀ thread p, s.pending.get? thread = some p →
    p.seenAt ≤ s.running.revision ∧ (p.seenAt = s.running.revision → p.seen = s.running.store.shown)

theorem consistent_start (store : ConfigStore) : (start store).Consistent store where
  serial := rfl
  planned _ _ h := absurd h (by simp [start])
  current _ _ h := absurd h (by simp [start])

/-- What a second trip must find: its reading still holds, or the client asked for the
very revision that was read. -/
def Meets (s : Api) : Trip → Prop
  | .read _ _ => True
  | .write thread _ => ∀ p, s.pending.get? thread = some p →
      p.request.ifMatch = some p.seenAt ∨ ReadsSame p.seen s.running.store.shown p.request.ask

/-- A write that is taken: the revision asked for is the one in force, and the store is
as the write settles it. -/
theorem configure_ok {r r' : Running} {write : Write} {ifMatch : Option Int}
    {accepted : Bool} (h : r.configure write ifMatch accepted = .ok r') :
    (∀ expected, ifMatch = some expected → expected = r.revision) ∧
      ∃ settled, r.store.settle write = .ok settled ∧ r'.store = settled.getD r.store ∧
        (r' = r ∨ r'.revision = r.revision + 1) := by
  rw [Running.configure] at h
  split at h
  · exact absurd h (by simp)
  next hmatch =>
  refine ⟨?_, ?_⟩
  · rintro expected rfl
    by_contra hne
    simp [Option.filter, hne] at hmatch
  · cases hsettle : r.store.settle write with
    | error e => simp [hsettle] at h
    | ok settled =>
      refine ⟨settled, rfl, ?_⟩
      rw [hsettle] at h
      cases settled with
      | none =>
        cases h
        exact ⟨rfl, Or.inl rfl⟩
      | some store =>
        simp only at h
        split at h
        · cases h
          exact ⟨rfl, Or.inr rfl⟩
        · exact absurd h (by simp)

theorem readsSame_refl (document : Doc) (ask : Ask) : ReadsSame document document ask := by
  cases ask <;> simp [ReadsSame]

theorem erase_pending {pending : Dict Nat Pending} {thread thread' : Nat} {p : Pending}
    (h : (pending.erase thread).get? thread' = some p) : pending.get? thread' = some p := by
  rw [Dict.get?_erase] at h
  split at h
  · exact absurd h (by simp)
  · exact h

theorem step_consistent (h : s.Consistent store) (trip : Trip) (hmeets : s.Meets trip) :
    (s.step trip).Consistent store := by
  cases trip with
  | read thread request =>
    rw [step]
    split
    · exact h
    next write hplan =>
    refine ⟨h.serial, ?_, ?_⟩
    · intro thread' p hp
      rw [Dict.get?_set] at hp
      split at hp
      · cases hp
        exact hplan
      · exact h.planned thread' p hp
    · intro thread' p hp
      rw [Dict.get?_set] at hp
      split at hp
      · cases hp
        exact ⟨le_rfl, fun _ => rfl⟩
      · exact h.current thread' p hp
  | write thread accepted =>
    rw [step]
    split
    · exact h
    next p hp =>
    split
    · exact ⟨h.serial, fun thread' q hq => h.planned thread' q (erase_pending hq),
        fun thread' q hq => h.current thread' q (erase_pending hq)⟩
    next running hconfigure =>
    obtain ⟨hmatch, settled, hsettle, hstore, hrevision⟩ := configure_ok hconfigure
    have hsame : ReadsSame p.seen s.running.store.shown p.request.ask := by
      rcases hmeets p hp with hasked | hsame
      · have hat : p.seenAt = s.running.revision := by exact_mod_cast hmatch _ hasked
        rw [(h.current thread p hp).2 hat]
        exact readsSame_refl _ _
      · exact hsame
    have hplan := plan_of_readsSame (h.planned thread p hp) hsame hsettle
    have hserve := s.running.store.serve_of_settle hplan hsettle
    refine ⟨?_, fun thread' q hq => h.planned thread' q (erase_pending hq), ?_⟩
    · rw [ConfigStore.serveAll, List.foldlM_append]
      have hbefore : s.answered.foldlM (fun store request => store.serve request.ask) store =
          some s.running.store := h.serial
      rw [hbefore]
      simp [hserve, hstore]
    · intro thread' q hq
      obtain ⟨hle, hcurrent⟩ := h.current thread' q (erase_pending hq)
      rcases hrevision with rfl | hnext
      · exact ⟨hle, hcurrent⟩
      · rw [hnext]
        exact ⟨Nat.le_succ_of_le hle, fun heq => by omega⟩

/-- Every trip of a run finds what it must find. -/
def RunMeets : List Trip → Api → Prop
  | [], _ => True
  | trip :: rest, s => s.Meets trip ∧ RunMeets rest (s.step trip)

theorem run_consistent {trips : List Trip} (h : s.Consistent store)
    (hmeets : RunMeets trips s) : (s.run trips).Consistent store := by
  induction trips generalizing s with
  | nil => exact h
  | cons trip rest ih => exact ih (step_consistent h trip hmeets.1) hmeets.2

/-- The document in force is the one the requests answered success lead to, served one
after another in some order. -/
def Serialized (store : ConfigStore) (s : Api) : Prop :=
  ∃ order : List Request, order.Perm s.answered ∧ store.serveAll order = some s.running.store

/-- In a run whose second trips go by readings that still hold, no change is lost. -/
theorem run_serialized {trips : List Trip} (hmeets : RunMeets trips (start store)) :
    ((start store).run trips).Serialized store :=
  ⟨_, List.Perm.refl _, (run_consistent (consistent_start store) hmeets).serial⟩

/-- The engine without plugins, configured with nothing. -/
def bareStore : ConfigStore where
  schema := ⟨coreSchema .nil, by
    simp [coreSchema, Node.WellKeyed, Keys.WellKeyed, Keys.names, prefixListEntrySchema,
      routeMapClauseSchema, staticRouteSchema, routeInstallSchema, apiSchema, choice, uint32]⟩
  fields := []
  wellKeyed := by simp [wellKeyed_dict_iff]
  valid := rfl

def staticPath : Path := ["ip", "route", "static", "10.1.0.0/16"]

def putStatic (ifMatch : Option Int) : Request where
  ask := .put staticPath
    ⟨.dict [("next-hop", .str "192.0.2.1")], by simp [Json.WellKeyed, Json.WellKeyedFields]⟩
  ifMatch := ifMatch

def patchTable (ifMatch : Option Int) : Request where
  ask := .patchInstall ⟨.dict [("table", .int 100)], by simp [Json.WellKeyed, Json.WellKeyedFields]⟩
  ifMatch := ifMatch

/-- Two requests that ask for the revision they read, one after the other. -/
theorem run_serialized_bare :
    ((start bareStore).run
      [.read 0 (putStatic (some 0)), .write 0 true,
        .read 0 (patchTable (some 1)), .write 0 true]).Serialized bareStore := by
  apply run_serialized
  have hasked : ∀ s : Api,
      (s.pending.get? 0).all (fun p => p.request.ifMatch == some (p.seenAt : Int)) = true →
        s.Meets (.write 0 true) := by
    intro s hall p hp
    rw [hp] at hall
    exact Or.inl (by simpa using hall)
  exact ⟨trivial, hasked _ (by decide +kernel), trivial, hasked _ (by decide +kernel), trivial⟩

/-- The settings are patched from a reading older than the route: the route is answered
success and gone, while served one after the other the two requests keep it. -/
theorem not_run_serialized :
    ¬ ∀ (store : ConfigStore) (trips : List Trip),
      ((start store).run trips).pending.isEmpty = true →
        ((start store).run trips).Serialized store := by
  intro h
  obtain ⟨order, hperm, hserve⟩ := h bareStore
    [.read 0 (patchTable none), .read 1 (putStatic none), .write 1 true, .write 0 true]
    (by decide +kernel)
  have horder : order = [putStatic none, patchTable none] ∨
      order = [patchTable none, putStatic none] := List.perm_pair.mp hperm
  have hkept := congrArg (Option.map fun store : ConfigStore =>
    (getPath store.stored staticPath).isSome) hserve
  rcases horder with rfl | rfl
  · exact absurd hkept (by decide +kernel)
  · exact absurd hkept (by decide +kernel)

end Api

end Packets
