/-
Next-hop validation over whole runs.

While it is on, the marker says whether the next hops were checked against the answers of now,
and the cache what the learned paths carry.  While it is off every learned path is resolved.
-/
import Packets.Bgp.Validation

namespace Packets

namespace Rib

theorem GlobalRib.publishDest_calls_le (key : Family) (g : GlobalRib) (dest : Dest) :
    g.calls.length ≤ (publishDest key g dest).calls.length := by
  rw [publishDest]
  split
  · split
    · exact le_rfl
    · simp
  · simp

theorem GlobalRib.selectTable_calls_le (chunk : Int) (acc : GlobalRib × Nat)
    (key : Family) : acc.1.calls.length ≤ (selectTable chunk acc key).1.calls.length := by
  have hfold : ∀ (dests : List Dest) (g : GlobalRib),
      g.calls.length ≤ (dests.foldl (publishDest key) g).calls.length := by
    intro dests
    induction dests with
    | nil => exact fun _ => le_rfl
    | cons dest dests ih => exact fun g => (publishDest_calls_le key g dest).trans (ih _)
  rw [selectTable]
  split
  · exact le_rfl
  · rename_i table _
    split
    · exact le_rfl
    · exact hfold ((table.reselect chunk).2.map (table.reselect chunk).1.cell)
        { acc.1 with tables := acc.1.tables.set key (table.reselect chunk).1 }

theorem GlobalRib.selectStep_calls_le (g : GlobalRib) (chunk : Int) :
    g.calls.length ≤ (g.selectStep chunk).1.calls.length := by
  have hfold : ∀ (keys : List Family) (acc : GlobalRib × Nat),
      acc.1.calls.length ≤ (keys.foldl (selectTable chunk) acc).1.calls.length := by
    intro keys
    induction keys with
    | nil => exact fun _ => le_rfl
    | cons key keys ih => exact fun acc => (selectTable_calls_le chunk acc key).trans (ih _)
  exact hfold g.tables.keys (g, 0)

theorem GlobalRib.selectLoop_calls_le (chunk : Int) (fuel : Nat) (g : GlobalRib) :
    g.calls.length ≤ (selectLoop chunk fuel g).calls.length := by
  induction fuel generalizing g with
  | zero => exact le_rfl
  | succ fuel ih =>
    rw [selectLoop]
    split
    · exact g.selectStep_calls_le chunk
    · exact (g.selectStep_calls_le chunk).trans (ih _)

theorem GlobalRib.ensureTable_calls {g g' : GlobalRib} {key : Family} {table : RouteTable}
    (h : g.ensureTable key = some (g', table)) : g'.calls = g.calls := by
  rw [ensureTable] at h
  split at h
  · exact absurd h (by simp)
  · split at h
    · rw [Option.some.injEq, Prod.mk.injEq] at h
      rw [← h.1]
    · rw [Option.some.injEq, Prod.mk.injEq] at h
      rw [← h.1]

theorem GlobalRib.step_calls_le (g : GlobalRib) (op : RibOp) :
    g.calls.length ≤ (g.step op).calls.length := by
  cases op with
  | ensureTable key =>
    rw [step]
    cases hensure : g.ensureTable key with
    | none => exact le_rfl
    | some found => exact (congrArg List.length (ensureTable_calls hensure)).ge
  | offer route safi =>
    rw [step, offer]
    cases hensure : g.ensureTable (route.pfx.afi, safi) with
    | none => exact le_rfl
    | some found =>
      obtain ⟨g', table⟩ := found
      simp only
      cases table.offer route with
      | none => exact le_rfl
      | some table => exact (congrArg List.length (ensureTable_calls hensure)).ge
  | retract pfx protocol source safi =>
    rw [step, retract]
    split <;> exact le_rfl
  | retractAll protocol source => exact le_rfl
  | selectStep chunk => exact g.selectStep_calls_le chunk
  | select limit => exact selectLoop_calls_le _ _ g

namespace Resolver

theorem generation_act_le (s : Resolver) (op : Op) : s.generation ≤ (s.act op).generation := by
  cases op with
  | addStatic text entry =>
    rw [act, addStatic]
    split
    · simp only
      split <;> simp
    · exact le_rfl
  | removeStatic text =>
    rw [act, removeStatic]
    cases parsePrefix text with
    | none => exact le_rfl
    | some p =>
      simp only [Option.map_some, Option.getD_some]
      split
      · exact le_rfl
      · split <;> simp
  | loadStatic entries =>
    rw [act, loadStatic]
    cases entries.mapM parseStatic with
    | none => exact le_rfl
    | some rows =>
      simp only [Option.map_some, Option.getD_some]
      split <;> simp
  | loadKernel found =>
    rw [act, loadKernel]
    split
    · exact le_rfl
    · simp only
      split <;> simp
  | clearKernel =>
    rw [act, clearKernel]
    simp only
    split <;> simp
  | setEnabled value =>
    rw [act, setEnabled]
    split <;> simp
  | setKernelImport value =>
    rw [act, setKernelImport]
    split <;> simp
  | setResolveViaDefault value =>
    rw [act, setResolveViaDefault]
    split <;> simp
  | setUseRib value => exact le_rfl
  | rib op => exact le_rfl

theorem calls_act_le (s : Resolver) (op : Op) :
    ((s.globalRib.map fun g => g.calls.length).getD 0) ≤
      (((s.act op).globalRib.map fun g => g.calls.length).getD 0) := by
  have hsame : (s.act op).globalRib = s.globalRib →
      ((s.globalRib.map fun g => g.calls.length).getD 0) ≤
        (((s.act op).globalRib.map fun g => g.calls.length).getD 0) := by
    intro h
    rw [h]
  cases op with
  | addStatic text entry =>
    apply hsame
    rw [act, addStatic]
    split
    · simp only
      split <;> rfl
    · rfl
  | removeStatic text =>
    apply hsame
    rw [act, removeStatic]
    cases parsePrefix text with
    | none => rfl
    | some p =>
      simp only [Option.map_some, Option.getD_some]
      split
      · rfl
      · split <;> rfl
  | loadStatic entries =>
    apply hsame
    rw [act, loadStatic]
    cases entries.mapM parseStatic with
    | none => rfl
    | some rows =>
      simp only [Option.map_some, Option.getD_some]
      split <;> rfl
  | loadKernel found =>
    apply hsame
    rw [act, loadKernel]
    split
    · rfl
    · simp only
      split <;> rfl
  | clearKernel => exact hsame rfl
  | setEnabled value =>
    apply hsame
    rw [act, setEnabled]
    split <;> rfl
  | setKernelImport value =>
    apply hsame
    rw [act, setKernelImport]
    split <;> rfl
  | setResolveViaDefault value =>
    apply hsame
    rw [act, setResolveViaDefault]
    split <;> rfl
  | setUseRib value => exact hsame rfl
  | rib op =>
    rw [act]
    cases s.globalRib with
    | none => exact le_rfl
    | some g => exact g.step_calls_le op

end Resolver

end Rib

namespace BgpTables

variable {t t' : BgpTables}

/-- The answer a learned path would be given now. -/
def AnswersNow (t : BgpTables) (af : Family) (nexthop : Bytes) (answer : Bool × Nat) :
    Prop := answer = t.checkNexthop af.1 nexthop

structure Validating (t : BgpTables) : Prop where
  serving : t.Serving
  nameless : t.Sees fun _ nexthop answer => nexthop = [] → answer = (true, 0)
  resolved : t.nextHopValidation = false → t.Sees fun _ _ answer => answer.1 = true
  cached : t.nextHopValidation = true → t.Caching
  current : t.nextHopValidation = true → t.nhMarker = some t.marker → t.Sees t.AnswersNow
  bounded : t.engine.isSome = true → ∀ m, t.nhMarker = some m → m.1 ≤ t.marker.1 ∧ m.2 ≤ t.marker.2

theorem checkNexthop_nil (t : BgpTables) (afi : Nat) : t.checkNexthop afi [] = (true, 0) := by
  rw [checkNexthop]
  split
  · rfl
  · exact if_pos rfl

theorem SameMode.answersNow (h : SameMode t t') : t'.AnswersNow = t.AnswersNow := by
  funext af nexthop answer
  rw [AnswersNow, AnswersNow, h.checkNexthop]

theorem validating_new : new.Validating := by
  have hnone : ∀ P, new.Sees P := fun P af l hget => absurd hget (by simp [new])
  refine ⟨?_, hnone _, fun _ => hnone _, ?_, ?_, ?_⟩
  · exact fun af l hget => absurd hget (by simp [new])
  · exact fun hon => absurd hon (by simp [new])
  · exact fun hon => absurd hon (by simp [new])
  · exact fun hstarted => absurd hstarted (by simp [new])

/-- A step that takes no learned path in, and leaves the switch. -/
theorem validating_of_fewer (h : t.Validating) (hfewer : Fewer (t.nextHopValidation = true) t t')
    (hmode : SameMode t t') : t'.Validating := by
  refine ⟨hfewer.serving h.serving, hfewer.sees h.nameless, ?_, ?_, ?_, ?_⟩
  · intro hoff
    rw [hmode.nextHopValidation] at hoff
    exact hfewer.sees (h.resolved hoff)
  · intro hon
    rw [hmode.nextHopValidation] at hon
    exact hfewer.caching hon (h.cached hon)
  · intro hon hmarker
    rw [hmode.nextHopValidation] at hon
    rw [hmode.nhMarker, hmode.marker] at hmarker
    rw [hmode.answersNow]
    exact hfewer.sees (h.current hon hmarker)
  · intro hstarted m hm
    rw [hmode.started] at hstarted
    rw [hmode.nhMarker] at hm
    rw [hmode.marker]
    exact h.bounded hstarted m hm

theorem validating_of_bare (hserving : t.Serving)
    (hbare : ∀ af l, t.locribs.get? af = some l → ∀ q p, ¬ l.Learned q p)
    (hbounded : t.engine.isSome = true → ∀ m, t.nhMarker = some m →
      m.1 ≤ t.marker.1 ∧ m.2 ≤ t.marker.2) : t.Validating := by
  have hsees : ∀ P, t.Sees P := fun P af l hl q p hp => absurd hp (hbare af l hl q p)
  exact ⟨hserving, hsees _, fun _ => hsees _,
    fun _ af l hl q p hp => absurd hp (hbare af l hl q p), fun _ _ => hsees _, hbounded⟩

/-- After the next hops were looked at, the marker is that of the resolver now. -/
theorem revalidate_validating (h : t.Validating) (hon : t.nextHopValidation = true) :
    t.revalidate.Validating ∧ t.revalidate.nhMarker = some t.revalidate.marker := by
  rw [revalidate]
  by_cases hmarker : t.nhMarker = some t.marker
  · rw [if_pos hmarker]
    exact ⟨h, hmarker⟩
  · rw [if_neg hmarker]
    have hget : ∀ {af l'}, (t.locribs.mapValues fun _ l => l.revalidate t.checkNexthop).get?
        af = some l' → ∃ l, t.locribs.get? af = some l ∧ l.revalidate t.checkNexthop = l' := by
      intro af l' hl'
      rw [Dict.get?_mapValues, Option.map_eq_some_iff] at hl'
      exact hl'
    refine ⟨⟨?_, ?_, ?_, ?_, ?_, ?_⟩, rfl⟩
    · intro af l' hl'
      obtain ⟨l, hl, rfl⟩ := hget hl'
      obtain ⟨hw, hafi⟩ := h.serving af l hl
      obtain ⟨hw', hr, -⟩ := LocRib.revalidate_spec hw t.checkNexthop
      exact ⟨hw', hr.afi.trans hafi⟩
    · intro af l' hl' q p hp hnil
      obtain ⟨l, hl, rfl⟩ := hget hl'
      have hold := (LocRib.revalidate_learned (h.serving af l hl).1 (h.cached hon af l hl)
        t.checkNexthop hp).2 hnil
      exact h.nameless af l hl q p hold hnil
    · intro hoff
      rw [hon] at hoff
      exact absurd hoff (by simp)
    · intro _ af l' hl'
      obtain ⟨l, hl, rfl⟩ := hget hl'
      exact LocRib.revalidate_learnedCached (h.serving af l hl).1 (h.cached hon af l hl) _
    · intro _ _ af l' hl' q p hp
      obtain ⟨l, hl, rfl⟩ := hget hl'
      obtain ⟨hw, hafi⟩ := h.serving af l hl
      obtain ⟨hnamed, hnameless⟩ :=
        LocRib.revalidate_learned hw (h.cached hon af l hl) t.checkNexthop hp
      have hnow : p.answer = t.checkNexthop af.1 p.attrs.nexthop := by
        by_cases hnil : p.attrs.nexthop = []
        · rw [h.nameless af l hl q p (hnameless hnil) hnil, hnil, checkNexthop_nil]
        · rw [hnamed hnil, hafi]
      exact hnow
    · intro _ m hm
      have hsame : m = t.marker := (Option.some.inj hm).symm
      rw [hsame]
      exact ⟨le_rfl, le_rfl⟩

theorem selectAndCheck_validating (h : t.Validating) (limit : Int) :
    (t.selectAndCheck limit).Validating ∧
      (t.selectAndCheck limit).nextHopValidation = t.nextHopValidation ∧
      (t.nextHopValidation = true →
        (t.selectAndCheck limit).nhMarker = some (t.selectAndCheck limit).marker) := by
  have hselected := validating_of_fewer h (reselect_fewer h.serving limit) ⟨rfl, rfl, rfl, rfl⟩
  rw [selectAndCheck]
  by_cases hon : t.nextHopValidation = true
  · obtain ⟨hvalidating, hmarker⟩ := revalidate_validating hselected hon
    simp only [if_pos hon]
    refine ⟨hvalidating, ?_, fun _ => hmarker⟩
    rw [revalidate]
    split <;> rfl
  · simp only [if_neg hon]
    exact ⟨hselected, trivial, fun h => absurd h hon⟩

/-- Validation follows its switch. -/
def FollowsSwitch (t : BgpTables) : Prop :=
  ∀ af l, t.locribs.get? af = some l → ∀ q p, l.Learned q p →
    (t.nextHopValidation = true → p.answer = t.checkNexthop af.1 p.attrs.nexthop) ∧
      (t.nextHopValidation = false → p.resolved = true)

theorem runPass_spec (h : t.Validating) (limit now : Int)
    (hquiet : (t.selectAndCheck limit).Undisturbed) :
    (t.runPass limit now).1.Validating ∧ (t.runPass limit now).1.FollowsSwitch := by
  obtain ⟨hchecked, hflag, hmarker⟩ := selectAndCheck_validating h limit
  have hmode := resync_sameMode (t.selectAndCheck limit) now
  have hvalidating := validating_of_fewer hchecked (resync_fewer hchecked.serving hquiet now) hmode
  refine ⟨hvalidating, ?_⟩
  intro af l hl q p hp
  constructor
  · intro hon
    have hnow : (t.runPass limit now).1.nhMarker = some (t.runPass limit now).1.marker := by
      rw [runPass, hmode.nextHopValidation, hflag] at hon
      rw [runPass, hmode.nhMarker, hmode.marker]
      exact hmarker hon
    exact hvalidating.current hon hnow af l hl q p hp
  · intro hoff
    exact hvalidating.resolved hoff af l hl q p hp

theorem callSession_fewer {quiet : Prop} (h : t.Serving) {af : Family} {call : SessionCall}
    (hcall : ∀ l, t.locribs.get? af = some l →
      LocRib.Fewer quiet l (callLocrib (t.sessionAnswer af.1) l call)) :
    Fewer quiet t (t.callSession af call) := by
  rw [callSession]
  cases hl : t.locribs.get? af with
  | none => exact Fewer.refl h
  | some l => exact fewer_set h hl (hcall l hl) rfl

/-- The learned paths through the next hop of an arrival that it does not replace carry
the answer it comes with. -/
def Brings (t : BgpTables) (af : Family) (peer : PeerRef) (pfx : Prefix)
    (arrival : LocRib.Arrival) : Prop :=
  ∀ l, t.locribs.get? af = some l → pfx.afi = l.afi →
    ∀ q, ∀ p ∈ l.staying peer pfx arrival.pathId q, p.peer.oid ≠ LOCAL_PEER.oid →
      p.attrs.nexthop ≠ [] → p.attrs.nexthop = arrival.attrs.nexthop →
        p.answer = t.sessionAnswer af.1 arrival.attrs.nexthop

theorem sees_set {P : Family → Bytes → Bool × Nat → Prop} (h : t.Sees P) {key : Family}
    {l' : LocRib} (hl' : l'.Sees (P key)) (ht : t'.locribs = t.locribs.set key l') : t'.Sees P := by
  intro af l hl
  rw [ht, Dict.get?_set] at hl
  split at hl
  · rename_i haf
    cases hl
    rw [haf]
    exact hl'
  · exact h af l hl

theorem arrive_validating (h : t.Validating) (hagreed : t.checking = t.nextHopValidation)
    (af : Family) (peer : PeerRef) (pfx : Prefix) (arrival : LocRib.Arrival)
    (hbrings : t.nextHopValidation = true → t.Brings af peer pfx arrival) :
    (t.callSession af (.arrive peer pfx arrival)).Validating := by
  rw [callSession]
  cases hl : t.locribs.get? af with
  | none => exact h
  | some l =>
    obtain ⟨hw, hafi⟩ := h.serving af l hl
    simp only [callLocrib]
    cases hadd : l.addPath peer pfx { arrival with
        source := .peer
        resolved := (t.sessionAnswer af.1 arrival.attrs.nexthop).1
        igpMetric := (t.sessionAnswer af.1 arrival.attrs.nexthop).2 } with
    | none =>
      exact validating_of_fewer h (fewer_set h.serving hl (LocRib.Fewer.refl hw) rfl)
        ⟨rfl, rfl, rfl, rfl⟩
    | some l' =>
      obtain ⟨hw', hafi', -⟩ := LocRib.addPath_spec hw hadd
      have hpfx : pfx.afi = l.afi := by
        rw [← LocRib.addPath_isSome_iff l peer pfx, hadd]
        rfl
      have hoff : t.nextHopValidation = false →
          t.sessionAnswer af.1 arrival.attrs.nexthop = (true, 0) := by
        intro hoff
        rw [sessionAnswer, hagreed, hoff]
        rfl
      have hon : t.nextHopValidation = true →
          t.sessionAnswer af.1 arrival.attrs.nexthop =
            t.checkNexthop af.1 arrival.attrs.nexthop := by
        intro hon
        rw [sessionAnswer, hagreed, hon]
        rfl
      have hset : ∀ P : Family → Bytes → Bool × Nat → Prop, t.Sees P →
          P af arrival.attrs.nexthop (t.sessionAnswer af.1 arrival.attrs.nexthop) →
          ({ t with locribs := t.locribs.set af l' } : BgpTables).Sees P := by
        intro P hsees harrived
        exact sees_set hsees (LocRib.addPath_sees hw hadd (hsees af l hl) harrived) rfl
      refine ⟨?_, hset _ h.nameless ?_, ?_, ?_, ?_, h.bounded⟩
      · intro key l'' hget
        rw [Option.getD_some, Dict.get?_set] at hget
        split at hget
        · rename_i hkey
          cases hget
          rw [hkey]
          exact ⟨hw', hafi'.trans hafi⟩
        · exact h.serving key l'' hget
      · intro hnil
        cases hflag : t.nextHopValidation with
        | false => exact hoff hflag
        | true => rw [hon hflag, hnil, checkNexthop_nil]
      · intro hflag
        apply hset _ (h.resolved hflag)
        rw [hoff hflag]
      · intro hflag key l'' hget
        rw [Option.getD_some, Dict.get?_set] at hget
        split at hget
        · cases hget
          apply LocRib.addPath_learnedCached hw hadd (h.cached hflag af l hl)
          exact hbrings hflag l hl hpfx
        · exact h.cached hflag key l'' hget
      · intro hflag hmarker
        exact hset _ (h.current hflag hmarker) (hon hflag)

theorem callSession_sameMode (t : BgpTables) (af : Family) (call : SessionCall) :
    SameMode t (t.callSession af call) := by
  rw [callSession]
  split
  · exact SameMode.refl t
  · exact ⟨rfl, rfl, rfl, rfl⟩

/-- What a commit that moves the switch must find: turned off, no learned path that stays is
unresolved; turned on, the cache agrees with the learned paths, which carry the answers of now
unless the next hops will be looked at again. -/
structure Switches (t u : BgpTables) : Prop where
  off : t.nextHopValidation = true → u.nextHopValidation = false →
    u.Sees fun _ _ answer => answer.1 = true
  on : t.nextHopValidation = false → u.nextHopValidation = true →
    u.Caching ∧ (u.nhMarker = some u.marker → u.Sees u.AnswersNow)

theorem adopt_validating (h : t.Validating) (fresh : Fresh) (asn : Nat) (body : BgpBody)
    (hswitches : Switches t (t.adopt fresh asn body)) : (t.adopt fresh asn body).Validating := by
  have hfewer : Fewer True t (t.adopt fresh asn body) := adopt_fewer fresh h.serving asn body
  refine ⟨hfewer.serving h.serving, hfewer.sees h.nameless, ?_, ?_, ?_, h.bounded⟩
  · intro hoff
    cases hwas : t.nextHopValidation with
    | false => exact hfewer.sees (h.resolved hwas)
    | true => exact hswitches.off hwas hoff
  · intro hon
    cases hwas : t.nextHopValidation with
    | false => exact (hswitches.on hwas hon).1
    | true => exact hfewer.caching trivial (h.cached hwas)
  · intro hon hmarker
    cases hwas : t.nextHopValidation with
    | false => exact (hswitches.on hwas hon).2 hmarker
    | true => exact hfewer.sees (h.current hwas hmarker)

theorem shutdownAll_validating (hserving : t.Serving)
    (hbounded : t.engine.isSome = true → ∀ m, t.nhMarker = some m →
      m.1 ≤ t.marker.1 ∧ m.2 ≤ t.marker.2) : t.shutdownAll.Validating :=
  have hshut := shutdownAll_bare hserving
  validating_of_bare (fun af _ hget => ⟨(hshut af hget).1, (hshut af hget).2.1⟩)
    (fun af _ hget => (hshut af hget).2.2) hbounded

theorem commitConfig_validating (h : t.Validating) (fresh : Fresh) (now : Int) (asn : Nat)
    (body : BgpBody) (hdone : (t.commitConfig fresh now (some (asn, body))).2 = true)
    (hmeets : (t.localAs ≠ 0 ∧ t.localAs ≠ asn) ∨
      Switches t (t.adopt fresh asn body) ∧ (t.adopt fresh asn body).Undisturbed) :
    (t.commitConfig fresh now (some (asn, body))).1.Validating ∧
      (t.commitConfig fresh now (some (asn, body))).1.checking =
        (t.commitConfig fresh now (some (asn, body))).1.nextHopValidation := by
  have hmode := syncNetworks_sameMode (t.adopt fresh asn body) now
  have hadopted : Fewer False t (t.adopt fresh asn body) := adopt_fewer fresh h.serving asn body
  have hserving := hadopted.serving h.serving
  have hsynced : ((t.localAs ≠ 0 ∧ t.localAs ≠ asn) ∧
      ((t.adopt fresh asn body).syncNetworks now).1.Serving) ∨
        ((t.adopt fresh asn body).syncNetworks now).1.Validating := by
    rcases hmeets with hreset | ⟨hswitches, hquiet⟩
    · have hfewer : Fewer False (t.adopt fresh asn body)
          ((t.adopt fresh asn body).syncNetworks now).1 :=
        syncNetworks_fewer_of hserving (fun hfalse => hfalse.elim) now
      exact Or.inl ⟨hreset, hfewer.serving hserving⟩
    · exact Or.inr (validating_of_fewer (adopt_validating h fresh asn body hswitches)
        (syncNetworks_fewer hserving hquiet now) hmode)
  have hbounded : ((t.adopt fresh asn body).syncNetworks now).1.engine.isSome = true →
      ∀ m, ((t.adopt fresh asn body).syncNetworks now).1.nhMarker = some m →
        m.1 ≤ ((t.adopt fresh asn body).syncNetworks now).1.marker.1 ∧
          m.2 ≤ ((t.adopt fresh asn body).syncNetworks now).1.marker.2 := by
    intro hstarted m hm
    rw [hmode.started] at hstarted
    rw [hmode.nhMarker] at hm
    rw [hmode.marker]
    exact h.bounded hstarted m hm
  rw [commitConfig] at hdone ⊢
  generalize (t.adopt fresh asn body).syncNetworks now = synced at hdone hsynced hbounded ⊢
  obtain ⟨synced, done⟩ := synced
  cases done with
  | false => exact absurd hdone (by simp)
  | true =>
    refine ⟨?_, rfl⟩
    simp only
    by_cases hreset : t.localAs ≠ 0 ∧ t.localAs ≠ asn
    · have hafter : synced.Serving := by
        rcases hsynced with ⟨-, hs⟩ | hv
        · exact hs
        · exact hv.serving
      have hv := shutdownAll_validating hafter hbounded
      rw [if_pos hreset]
      exact ⟨hv.serving, hv.nameless, hv.resolved, hv.cached, hv.current, hv.bounded⟩
    · rcases hsynced with ⟨hno, -⟩ | hv
      · exact absurd hno hreset
      · rw [if_neg hreset]
        exact ⟨hv.serving, hv.nameless, hv.resolved, hv.cached, hv.current, hv.bounded⟩

/-- What a step must find.  An arrival, while validation is on, comes with the answer the
learned paths through its next hop carry; a commit comes to its end and resets every session or
moves the switch as `Switches` says; the plugin is started with no learned path, and not with an
engine that has done less than the marker says. -/
def Validates (t : BgpTables) : Op → Prop
  | .start engine =>
    (∀ af l, t.locribs.get? af = some l → ∀ q p, ¬ l.Learned q p) ∧
      ∀ m, t.nhMarker = some m →
        m.1 ≤ ({ t with engine := some engine } : BgpTables).marker.1 ∧
          m.2 ≤ ({ t with engine := some engine } : BgpTables).marker.2
  | .commit fresh now (some (asn, body)) =>
    (t.commitConfig fresh now (some (asn, body))).2 = true ∧
      ((t.localAs ≠ 0 ∧ t.localAs ≠ asn) ∨
        Switches t (t.adopt fresh asn body) ∧ (t.adopt fresh asn body).Undisturbed)
  | .commit _ _ none => True
  | .pass limit _ => (t.selectAndCheck limit).Undisturbed
  | .session af (.arrive peer pfx arrival) =>
    t.nextHopValidation = true → t.Brings af peer pfx arrival
  | .session _ (.withdraw _ _ _) => True
  | .session _ (.release _) => True
  | .policy _ store => (t.setStore store).Undisturbed
  | .core op =>
    (t.step (.core op)).marker = t.marker →
      t.Sees fun af nexthop _ =>
        (t.step (.core op)).checkNexthop af.1 nexthop = t.checkNexthop af.1 nexthop
  | .stop => True

theorem marker_core_le (t : BgpTables) (op : Rib.Resolver.Op) :
    t.marker.1 ≤ (t.step (.core op)).marker.1 ∧ t.marker.2 ≤ (t.step (.core op)).marker.2 := by
  rw [step, marker, marker]
  cases t.engine with
  | none => exact ⟨le_rfl, le_rfl⟩
  | some engine => exact ⟨engine.resolver.calls_act_le op, engine.resolver.generation_act_le op⟩

theorem core_validating (h : t.Validating) (op : Rib.Resolver.Op)
    (hmeets : t.Validates (.core op)) : (t.step (.core op)).Validating := by
  obtain ⟨hfirst, hsecond⟩ := marker_core_le t op
  have hstarted : (t.step (.core op)).engine.isSome = t.engine.isSome := Option.isSome_map
  refine ⟨h.serving, h.nameless, h.resolved, h.cached, ?_, ?_⟩
  · intro hon hmarker
    cases hengine : t.engine with
    | none =>
      have hsame : SameMode t (t.step (.core op)) := by
        refine ⟨?_, rfl, rfl, rfl⟩
        rw [step, hengine]
        rfl
      rw [hsame.marker] at hmarker
      rw [hsame.answersNow]
      exact h.current hon hmarker
    | some engine =>
      -- The marker was at most that of before, and the counters only grow.
      have hbounded := h.bounded (by rw [hengine]; rfl) _ hmarker
      have hsame : (t.step (.core op)).marker = t.marker :=
        Prod.ext (le_antisymm hbounded.1 hfirst) (le_antisymm hbounded.2 hsecond)
      have hnow := h.current hon (hmarker.trans (congrArg some hsame))
      intro af l hl q p hp
      have hanswers := hmeets hsame af l hl q p hp
      exact (hnow af l hl q p hp).trans hanswers.symm
  · intro hstart m hm
    rw [hstarted] at hstart
    obtain ⟨hle, hle'⟩ := h.bounded hstart m hm
    exact ⟨hle.trans hfirst, hle'.trans hsecond⟩

theorem step_validating (h : t.Validating) (hagreed : t.checking = t.nextHopValidation)
    (op : Op) (hmeets : t.Validates op) :
    (t.step op).Validating ∧ (t.step op).checking = (t.step op).nextHopValidation := by
  cases op with
  | start engine => exact ⟨validating_of_bare h.serving hmeets.1 fun _ => hmeets.2, hagreed⟩
  | commit fresh now bgp =>
    cases bgp with
    | none => exact ⟨shutdownAll_validating h.serving h.bounded, hagreed⟩
    | some section_ =>
      obtain ⟨asn, body⟩ := section_
      exact commitConfig_validating h fresh now asn body hmeets.1 hmeets.2
  | pass limit now =>
    have hmode := resync_sameMode (t.selectAndCheck limit) now
    have hchecking : (t.selectAndCheck limit).checking = t.checking := by
      rw [selectAndCheck]
      split
      · rw [revalidate]
        split <;> rfl
      · rfl
    refine ⟨(runPass_spec h limit now hmeets).1, ?_⟩
    rw [step, runPass, hmode.checking, hmode.nextHopValidation, hchecking,
      (selectAndCheck_validating h limit).2.1]
    exact hagreed
  | session af call =>
    have hmode := callSession_sameMode t af call
    refine ⟨?_, ?_⟩
    · cases call with
      | arrive peer pfx arrival => exact arrive_validating h hagreed af peer pfx arrival hmeets
      | withdraw peer pfx pathId =>
        apply validating_of_fewer h (callSession_fewer h.serving _) hmode
        intro l hl
        obtain ⟨hw', hs⟩ := LocRib.removePath_spec (h.serving af l hl).1 peer pfx pathId
        exact hs.fewer hw'
      | release peer =>
        apply validating_of_fewer h (callSession_fewer h.serving _) hmode
        intro l hl
        obtain ⟨hw', hs⟩ := LocRib.removePeer_spec (h.serving af l hl).1 peer
        exact hs.fewer hw'
    · rw [step, hmode.checking, hmode.nextHopValidation]
      exact hagreed
  | policy now store =>
    have hstore : SameMode t (t.setStore store) := by
      refine ⟨?_, rfl, rfl, rfl⟩
      rw [setStore]
      cases t.engine <;> rfl
    have hfewer : Fewer (t.nextHopValidation = true) t (t.setStore store) :=
      fewer_congr h.serving rfl
    have hset := validating_of_fewer h hfewer hstore
    have hmode := resync_sameMode (t.setStore store) now
    refine ⟨validating_of_fewer hset (resync_fewer hset.serving hmeets now) hmode, ?_⟩
    rw [step, policyChanged, hmode.checking, hmode.nextHopValidation]
    exact hagreed
  | core op => exact ⟨core_validating h op hmeets, hagreed⟩
  | stop =>
    have hshut := shutdownAll_bare h.serving
    refine ⟨validating_of_bare ?_ ?_ ?_, hagreed⟩
    · exact fun af l hl => ⟨(hshut af hl).1, (hshut af hl).2.1⟩
    · exact fun af l hl => (hshut af hl).2.2
    · exact fun hstarted => absurd hstarted Bool.false_ne_true

/-- Every step of a run meets its condition when it comes. -/
def RunValidates (ops : List Op) : Prop :=
  ∀ before op after, ops = before ++ op :: after → (new.run before).Validates op

theorem runValidates_of_append {before : List Op} {op : Op}
    (h : RunValidates (before ++ [op])) : RunValidates before := by
  intro earlier op' later hsplit
  apply h earlier op' (later ++ [op])
  rw [hsplit, List.append_assoc, List.cons_append]

theorem run_validating {ops : List Op} (hmeets : RunValidates ops) :
    (new.run ops).Validating ∧ (new.run ops).checking = (new.run ops).nextHopValidation := by
  induction ops using List.reverseRecOn with
  | nil => exact ⟨validating_new, rfl⟩
  | append_singleton before op ih =>
    obtain ⟨hvalidating, hagreed⟩ := ih (runValidates_of_append hmeets)
    rw [run, List.foldl_append]
    exact step_validating hvalidating hagreed op (hmeets before op [] rfl)

/-- An engine that resolves no next hop. -/
def bareEngine : BgpEngine where
  rx := ⟨fun _ => false, fun _ _ => false⟩
  store := PolicyStore.new
  resolver := Rib.Resolver.new none

/-- A commit of IPv4 unicast with validation on or off. -/
def validating (on : Bool) : Op :=
  .commit ⟨AttrTable.empty, BgpDest.new LocRib.netTen⟩ 0 (some (65001, {
    routerId := some 1
    addressFamily := Dict.empty
    bestpath := ⟨none, none, none, none, none, none⟩
    defaultLocalPreference := none
    nextHopValidation := some on }))

def learnsTen : Op :=
  .session IPV4_UNICAST (.arrive (LocRib.externalPeer 1) LocRib.netTen (LocRib.arrivalVia true))

/-- Tables whose Loc-RIBs have no destinations. -/
def Unfilled (t : BgpTables) : Bool := t.locribs.values.all fun l => l.dests.isEmpty

theorem pathsFor_of_unfilled (h : t.Unfilled = true) {af : Family} {l : LocRib}
    (hl : t.locribs.get? af = some l) (q : Prefix) : l.pathsFor q = [] := by
  have hempty := List.all_eq_true.mp h l (Dict.mem_values_iff.mpr ⟨af, hl⟩)
  rw [LocRib.pathsFor, Dict.isEmpty_iff.mp hempty q]

end BgpTables

end Packets
