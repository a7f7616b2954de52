/-
Publication follows selection.

`offersAt` is the abstract RIB: the offers for each table and prefix, in order, one of each
origin.  The sink is given routes without their table, so two tables of one address family
cannot be told apart.
-/
import Packets.Rib.Selection

namespace Packets

namespace Rib

/-- Installing replaces; `none` is a withdrawal of a route that is not installed. -/
def replayCall (installed : Dict Prefix Route) : SinkCall → Option (Dict Prefix Route)
  | .install r => some (installed.set r.pfx r)
  | .withdraw r => if installed.get? r.pfx = some r then some (installed.erase r.pfx) else none

/-- What a sink holds that started empty. -/
def replay (calls : List SinkCall) : Option (Dict Prefix Route) :=
  calls.foldlM replayCall Dict.empty

theorem replay_append (calls : List SinkCall) (call : SinkCall) :
    replay (calls ++ [call]) = (replay calls).bind fun m => replayCall m call := by
  rw [replay, List.foldlM_append]
  simp [replay, Option.bind_eq_bind]

namespace GlobalRib

/-- The sink calls made for one table of each address family. -/
def callsFor (safiOf : Nat → Nat) (calls : List (Family × SinkCall)) : List SinkCall :=
  (calls.filter fun c => c.1.2 = safiOf c.1.1).map Prod.snd

/-- A sink that replays the calls holds what is published for their tables. -/
def Mirrored (safiOf : Nat → Nat) (g : GlobalRib) : Prop :=
  ∃ m, replay (callsFor safiOf g.calls) = some m ∧
    ∀ p, m.get? p = g.published.get? ((p.afi, safiOf p.afi), p)

/-- One more call, for a change at the prefix of its route. -/
theorem Mirrored.call {safiOf : Nat → Nat} {g g' : GlobalRib} {key : Family}
    {call : SinkCall} {p : Prefix} (h : Mirrored safiOf g) (hafi : p.afi = key.1)
    (hcalls : g'.calls = g.calls ++ [(key, call)])
    (hreplay : ∀ m : Dict Prefix Route, m.get? p = g.published.get? (key, p) →
      ∃ m', replayCall m call = some m' ∧ ∀ q, m'.get? q =
        if q = p then g'.published.get? (key, p) else m.get? q)
    (hother : ∀ k q, (k, q) ≠ (key, p) → g'.published.get? (k, q) = g.published.get? (k, q)) :
    Mirrored safiOf g' := by
  rcases h with ⟨m, hm, hview⟩
  by_cases hkey : key.2 = safiOf key.1
  · have hpkey : key = (p.afi, safiOf p.afi) := by
      rw [hafi, ← hkey]
    have hcallsFor : callsFor safiOf g'.calls = callsFor safiOf g.calls ++ [call] := by
      simp [callsFor, hcalls, hkey]
    rcases hreplay m (by rw [hview p, ← hpkey]) with ⟨m', hm', hview'⟩
    refine ⟨m', ?_, ?_⟩
    · rw [hcallsFor, replay_append, hm]
      exact hm'
    · intro q
      rw [hview' q]
      by_cases hq : q = p
      · rw [if_pos hq, hq, ← hpkey]
      · rw [if_neg hq, hview q, hother]
        intro heq
        exact hq (Prod.mk.inj heq).2
  · refine ⟨m, ?_, ?_⟩
    · rw [← hm]
      simp [callsFor, hcalls, hkey]
    · intro q
      rw [hview q, hother]
      intro heq
      obtain ⟨hk, hq⟩ := Prod.mk.inj heq
      apply hkey
      rw [← hk, hq]

theorem tables_publishDest (key : Family) (g : GlobalRib) (dest : Dest) :
    (publishDest key g dest).tables = g.tables := by
  rw [publishDest]
  split
  · split <;> rfl
  · rfl

theorem tables_foldl_publishDest (key : Family) (dests : List Dest) (g : GlobalRib) :
    (dests.foldl (publishDest key) g).tables = g.tables := by
  induction dests generalizing g with
  | nil => rfl
  | cons dest dests ih => rw [List.foldl_cons, ih, tables_publishDest]

theorem published_publishDest (key k : Family) (g : GlobalRib) (dest : Dest) (p : Prefix) :
    (publishDest key g dest).published.get? (k, p) =
      if (k, p) = (key, dest.pfx) then dest.best else g.published.get? (k, p) := by
  rw [publishDest]
  cases hbest : dest.best with
  | none =>
    simp only
    cases hold : g.published.get? (key, dest.pfx) with
    | none =>
      by_cases hk : (k, p) = (key, dest.pfx)
      · rw [if_pos hk, hk]
        exact hold
      · rw [if_neg hk]
    | some previous => exact Dict.get?_erase _ _ _
  | some best => exact Dict.get?_set _ _ _ _

theorem publishDest_mirrored {safiOf : Nat → Nat} {key : Family} {g : GlobalRib}
    {dest : Dest} (h : Mirrored safiOf g) (hafi : dest.pfx.afi = key.1)
    (hbest : ∀ r, dest.best = some r → r.pfx = dest.pfx)
    (hprevious : ∀ r, g.published.get? (key, dest.pfx) = some r → r.pfx = dest.pfx) :
    Mirrored safiOf (publishDest key g dest) := by
  have hother : ∀ k q, (k, q) ≠ (key, dest.pfx) →
      (publishDest key g dest).published.get? (k, q) = g.published.get? (k, q) := by
    intro k q hne
    rw [published_publishDest, if_neg hne]
  have hhere : (publishDest key g dest).published.get? (key, dest.pfx) = dest.best := by
    rw [published_publishDest, if_pos rfl]
  cases hwinner : dest.best with
  | none =>
    cases hold : g.published.get? (key, dest.pfx) with
    | none =>
      have hsame : publishDest key g dest = g := by simp only [publishDest, hwinner, hold]
      rw [hsame]
      exact h
    | some previous =>
      have hcalls : (publishDest key g dest).calls = g.calls ++ [(key, .withdraw previous)] := by
        simp only [publishDest, hwinner, hold]
      apply h.call hafi hcalls _ hother
      intro m hm
      have hpfx := hprevious previous hold
      refine ⟨m.erase dest.pfx, ?_, ?_⟩
      · rw [replayCall, hpfx, if_pos (hm.trans hold)]
      · intro q
        rw [Dict.get?_erase, hhere, hwinner]
  | some best =>
    have hcalls : (publishDest key g dest).calls = g.calls ++ [(key, .install best)] := by
      simp only [publishDest, hwinner]
    apply h.call hafi hcalls _ hother
    intro m _
    refine ⟨m.set dest.pfx best, ?_, ?_⟩
    · rw [replayCall, hbest best hwinner]
    · intro q
      rw [Dict.get?_set, hhere, hwinner]

/-- Publishing a batch, in which each destination has the winner of its prefix. -/
theorem foldl_publishDest (key : Family) (best : Prefix → Option Route) (dests : List Dest)
    {safiOf : Nat → Nat} {g : GlobalRib} (h : Mirrored safiOf g)
    (hdests : ∀ dest ∈ dests, dest.best = best dest.pfx ∧ dest.pfx.afi = key.1)
    (hbest : ∀ p r, best p = some r → r.pfx = p)
    (hpublished : ∀ p r, g.published.get? (key, p) = some r → r.pfx = p) :
    (dests.foldl (publishDest key) g).tables = g.tables ∧
    (∀ k p, (dests.foldl (publishDest key) g).published.get? (k, p) =
      if k = key ∧ p ∈ dests.map Dest.pfx then best p else g.published.get? (k, p)) ∧
    Mirrored safiOf (dests.foldl (publishDest key) g) := by
  induction dests generalizing g with
  | nil => exact ⟨rfl, fun k p => by simp, h⟩
  | cons dest dests ih =>
    obtain ⟨hwinner, hafi⟩ := hdests dest List.mem_cons_self
    have hmirrored := publishDest_mirrored h hafi
      (fun r hr => hbest _ r (hwinner ▸ hr)) (hpublished dest.pfx)
    have hstep : ∀ p r, (publishDest key g dest).published.get? (key, p) = some r → r.pfx = p := by
      intro p r hr
      rw [published_publishDest] at hr
      split at hr
      · rename_i heq
        rw [(Prod.mk.inj heq).2]
        exact hbest _ r (hwinner ▸ hr)
      · exact hpublished p r hr
    obtain ⟨htables, hview, hrest⟩ := ih hmirrored
      (fun d hd => hdests d (List.mem_cons_of_mem _ hd)) hstep
    refine ⟨htables.trans (tables_publishDest key g dest), ?_, hrest⟩
    intro k p
    rw [List.foldl_cons, hview, published_publishDest, List.map_cons]
    by_cases hk : k = key
    · subst hk
      by_cases hrest : p ∈ dests.map Dest.pfx
      · simp [hrest]
      · by_cases hp : p = dest.pfx
        · subst hp
          simp [hrest, hwinner]
        · simp [hrest, hp]
    · simp [hk]

abbrev Offers := Family → Prefix → List Route

/-- The routes a RIB holds for a prefix of a table. -/
def routesAt (g : GlobalRib) (key : Family) (p : Prefix) : List Route :=
  match g.tables.get? key with
  | none => []
  | some table => table.routesAt p

/-- The winner a table has selected for a prefix. -/
def bestAt (g : GlobalRib) (key : Family) (p : Prefix) : Option Route :=
  match g.tables.get? key with
  | none => none
  | some table => table.bestAt p

/-- A table as it is filed under its key. -/
structure Kept (key : Family) (t : RouteTable) : Prop where
  afi : t.afi = key.1
  safi : t.safi = key.2
  wf : RouteTable.Wf t []

/-- The tables are well formed, hold the offers, and what each has selected is what is
published; a sink holds what is published. -/
structure Faithful (g : GlobalRib) (offers : Offers) : Prop where
  kept : ∀ key t, g.tables.get? key = some t → Kept key t
  offered : ∀ key p, g.routesAt key p = offers key p
  published : ∀ key p, g.published.get? (key, p) = g.bestAt key p
  mirrored : ∀ safiOf, Mirrored safiOf g

theorem empty_faithful : Faithful empty fun _ _ => [] :=
  ⟨fun _ _ h => absurd h (by simp [empty]), fun _ _ => rfl, fun _ _ => rfl,
    fun _ => ⟨Dict.empty, rfl, fun _ => rfl⟩⟩

theorem Faithful.bestAt_pfx {g : GlobalRib} {offers : Offers} (h : Faithful g offers)
    {key : Family} {p : Prefix} {r : Route} (hr : g.published.get? (key, p) = some r) :
    r.pfx = p := by
  rw [h.published, bestAt] at hr
  cases ht : g.tables.get? key with
  | none => rw [ht] at hr; exact absurd hr (by simp)
  | some t =>
    rw [ht] at hr
    exact (h.kept key t ht).wf.bestAt_pfx hr

/-- Changing the offers of one table. -/
theorem Faithful.setTable {g : GlobalRib} {offers : Offers} (h : Faithful g offers)
    {key : Family} {t t' : RouteTable} {edit : Prefix → List Route → List Route}
    (ht : g.tables.get? key = some t) (hedit : RouteTable.Edited t t' edit) :
    Faithful { g with tables := g.tables.set key t' } fun k p =>
      if k = key then edit p (offers k p) else offers k p := by
  have hkept := h.kept key t ht
  refine ⟨?_, ?_, ?_, h.mirrored⟩
  · intro k u hu
    rw [Dict.get?_set] at hu
    by_cases hk : k = key
    · rw [if_pos hk] at hu
      rw [hk, ← Option.some.inj hu]
      exact ⟨hedit.afi.trans hkept.afi, hedit.safi.trans hkept.safi, hedit.wf⟩
    · rw [if_neg hk] at hu
      exact h.kept k u hu
  · intro k p
    by_cases hk : k = key
    · subst hk
      rw [if_pos rfl, ← h.offered]
      simp only [routesAt, Dict.get?_set, if_pos, ht]
      exact hedit.routes p
    · rw [if_neg hk, ← h.offered]
      simp only [routesAt, Dict.get?_set, if_neg hk]
  · intro k p
    have hsame := h.published k p
    by_cases hk : k = key
    · subst hk
      simp only [bestAt, ht] at hsame
      simp only [bestAt, Dict.get?_set, if_pos]
      exact hsame.trans (hedit.best p).symm
    · simp only [bestAt, Dict.get?_set, if_neg hk]
      exact hsame

theorem ensureTable_faithful {g : GlobalRib} {offers : Offers} (h : Faithful g offers)
    (key : Family) (hknown : pfxAddrLen key.1 ≠ 0) :
    ∃ g' t, g.ensureTable key = some (g', t) ∧ g'.tables.get? key = some t ∧
      Faithful g' offers := by
  rw [ensureTable, if_neg hknown]
  cases ht : g.tables.get? key with
  | some t => exact ⟨g, t, rfl, ht, h⟩
  | none =>
    refine ⟨_, _, rfl, by simp, ?_, ?_, ?_, h.mirrored⟩
    · intro k u hu
      rw [Dict.get?_set] at hu
      by_cases hk : k = key
      · rw [if_pos hk] at hu
        rw [hk, ← Option.some.inj hu]
        exact ⟨rfl, rfl, RouteTable.new_wf _ _⟩
      · rw [if_neg hk] at hu
        exact h.kept k u hu
    · intro k p
      rw [← h.offered]
      by_cases hk : k = key
      · subst hk
        simp only [routesAt, Dict.get?_set, if_pos, ht]
        rfl
      · simp only [routesAt, Dict.get?_set, if_neg hk]
    · intro k p
      have hsame := h.published k p
      by_cases hk : k = key
      · subst hk
        simp only [bestAt, ht] at hsame
        simp only [bestAt, Dict.get?_set, if_pos]
        exact hsame
      · simp only [bestAt, Dict.get?_set, if_neg hk]
        exact hsame

theorem offer_faithful {g : GlobalRib} {offers : Offers} (h : Faithful g offers)
    (r : Route) (safi : Nat) :
    ∃ g', g.offer r safi = some g' ∧ Faithful g' fun key p =>
      if key = (r.pfx.afi, safi) ∧ p = r.pfx then RouteTable.putOffer r (offers key p)
      else offers key p := by
  rcases ensureTable_faithful h (r.pfx.afi, safi) r.pfx.known with ⟨g', t, hensured, ht, h'⟩
  have hkept := h'.kept _ t ht
  rcases RouteTable.offer_edited hkept.wf (r := r) hkept.afi.symm with ⟨t', hoffer, hedit⟩
  refine ⟨{ g' with tables := g'.tables.set (r.pfx.afi, safi) t' }, ?_, ?_⟩
  · simp only [offer, hensured, hoffer, Option.map_some]
  · have hset := h'.setTable ht hedit
    have heq : (fun key p => if key = (r.pfx.afi, safi) ∧ p = r.pfx then
        RouteTable.putOffer r (offers key p) else offers key p) = fun k p =>
        if k = (r.pfx.afi, safi) then
          if p = r.pfx then RouteTable.putOffer r (offers k p) else offers k p
        else offers k p := by
      funext k p
      by_cases hk : k = (r.pfx.afi, safi) <;> simp [hk]
    rw [heq]
    exact hset

theorem retract_faithful {g : GlobalRib} {offers : Offers} (h : Faithful g offers)
    (pfx : Prefix) (protocol source safi : Nat) :
    Faithful (g.retract pfx protocol source safi) fun key p =>
      if key = (pfx.afi, safi) ∧ p = pfx then
        RouteTable.dropOffer protocol source (offers key p)
      else offers key p := by
  rw [retract]
  cases ht : g.tables.get? (pfx.afi, safi) with
  | none =>
    have hnone : offers (pfx.afi, safi) pfx = [] := by rw [← h.offered, routesAt, ht]
    have heq : (fun key p => if key = (pfx.afi, safi) ∧ p = pfx then
        RouteTable.dropOffer protocol source (offers key p) else offers key p) =
        offers := by
      funext k p
      by_cases hk : k = (pfx.afi, safi) ∧ p = pfx
      · rw [if_pos hk, hk.1, hk.2, hnone]
        rfl
      · rw [if_neg hk]
    rw [heq]
    exact h
  | some t =>
    have hset := h.setTable ht (RouteTable.retract_edited (h.kept _ t ht).wf pfx protocol source)
    have heq : (fun key p => if key = (pfx.afi, safi) ∧ p = pfx then
        RouteTable.dropOffer protocol source (offers key p) else offers key p) =
        fun k p => if k = (pfx.afi, safi) then
          if p = pfx then RouteTable.dropOffer protocol source (offers k p)
          else offers k p
        else offers k p := by
      funext k p
      by_cases hk : k = (pfx.afi, safi) <;> simp [hk]
    rw [heq]
    exact hset

/-- Taking back everything of one origin from a table. -/
theorem retractEach_edited (protocol source : Nat) {t : RouteTable} (h : RouteTable.Wf t []) :
    RouteTable.Edited t (retractEach protocol source t) fun _ routes =>
      RouteTable.dropOffer protocol source routes := by
  have hperm := List.perm_insertionSort (pfxLe · ·) t.trie.keys
  have hnodup := hperm.nodup_iff.mpr t.trie.nodup
  apply (RouteTable.foldl_retract_edited hnodup h).congr
  intro p
  by_cases hp : p ∈ t.trie.keys.insertionSort (pfxLe · ·)
  · rw [if_pos hp]
  · have hnone : t.trie.get? p = none := by
      rw [hperm.mem_iff, Dict.mem_keys_iff, not_exists] at hp
      exact Option.eq_none_iff_forall_ne_some.mpr hp
    rw [if_neg hp, RouteTable.routesAt_of_none hnone]
    rfl

theorem retractAll_faithful {g : GlobalRib} {offers : Offers} (h : Faithful g offers)
    (protocol source : Nat) :
    Faithful (g.retractAll protocol source) fun key p =>
      RouteTable.dropOffer protocol source (offers key p) := by
  have hget : ∀ k, (g.retractAll protocol source).tables.get? k =
      (g.tables.get? k).map (retractEach protocol source) := fun k => by
    rw [retractAll, Dict.get?_mapValues]
  refine ⟨?_, ?_, ?_, h.mirrored⟩
  · intro k u hu
    rw [hget] at hu
    obtain ⟨t, ht, rfl⟩ := Option.map_eq_some_iff.mp hu
    have hkept := h.kept k t ht
    have hedit := retractEach_edited protocol source hkept.wf
    exact ⟨hedit.afi.trans hkept.afi, hedit.safi.trans hkept.safi, hedit.wf⟩
  · intro k p
    rw [← h.offered]
    simp only [routesAt, hget]
    cases ht : g.tables.get? k with
    | none => rfl
    | some t => exact (retractEach_edited protocol source (h.kept k t ht).wf).routes p
  · intro k p
    have hsame := h.published k p
    simp only [bestAt] at hsame
    simp only [bestAt, hget]
    cases ht : g.tables.get? k with
    | none =>
      rw [ht] at hsame
      exact hsame
    | some t =>
      rw [ht] at hsame
      exact hsame.trans ((retractEach_edited protocol source (h.kept k t ht).wf).best p).symm

theorem selectTable_faithful {g : GlobalRib} {offers : Offers} (h : Faithful g offers)
    (chunk : Int) (examined : Nat) (key : Family) :
    Faithful (selectTable chunk (g, examined) key).1 offers := by
  simp only [selectTable]
  cases ht : g.tables.get? key with
  | none => exact h
  | some t =>
    have hkept := h.kept key t ht
    by_cases hidle : t.pending = 0
    · simp only [if_pos hidle]
      exact h
    simp only [if_neg hidle]
    have hsel := RouteTable.reselect_selecting hkept.wf chunk
    generalize t.reselect chunk = selected at hsel
    obtain ⟨t', changed⟩ := selected
    generalize hg : ({ g with tables := g.tables.set key t' } : GlobalRib) = g₁
    have hmirrored : ∀ safiOf, Mirrored safiOf g₁ := by
      rw [← hg]
      exact h.mirrored
    have hold : ∀ k p, g₁.published.get? (k, p) = g.bestAt k p := by
      rw [← hg]
      exact h.published
    have hpublished : ∀ p r, g₁.published.get? (key, p) = some r → r.pfx = p := by
      rw [← hg]
      exact fun p r => h.bestAt_pfx
    have hdests : ∀ dest ∈ changed.map t'.cell,
        dest.best = t'.bestAt dest.pfx ∧ dest.pfx.afi = key.1 := by
      intro dest hdest
      obtain ⟨d, hd, rfl⟩ := List.mem_map.mp hdest
      exact ⟨hsel.changed_best hd, (hsel.changed_afi d hd).trans (hsel.afi.trans hkept.afi)⟩
    have hbatch := fun safiOf => foldl_publishDest key t'.bestAt (changed.map t'.cell)
      (hmirrored safiOf) hdests (fun p r => hsel.wf.bestAt_pfx) hpublished
    generalize (changed.map t'.cell).foldl (publishDest key) g₁ = g' at hbatch
    obtain ⟨htables, hview, _⟩ := hbatch fun afi => afi
    have hget : ∀ k, g'.tables.get? k =
        if k = key then some t' else g.tables.get? k := fun k => by
      rw [htables, ← hg, Dict.get?_set]
    refine ⟨?_, ?_, ?_, fun safiOf => (hbatch safiOf).2.2⟩
    · intro k u hu
      rw [hget] at hu
      by_cases hk : k = key
      · rw [if_pos hk] at hu
        rw [hk, ← Option.some.inj hu]
        exact ⟨hsel.afi.trans hkept.afi, hsel.safi.trans hkept.safi, hsel.wf⟩
      · rw [if_neg hk] at hu
        exact h.kept k u hu
    · intro k p
      rw [← h.offered]
      by_cases hk : k = key
      · subst hk
        simp only [routesAt, hget, if_pos, ht]
        exact hsel.routes p
      · simp only [routesAt, hget, if_neg hk]
    · intro k p
      rw [hview, hold]
      by_cases hk : k = key
      · subst hk
        simp only [bestAt, hget, if_pos, ht, true_and]
        by_cases hp : p ∈ (changed.map t'.cell).map Dest.pfx
        · rw [if_pos hp]
        · rw [if_neg hp]
          apply (hsel.unchanged p _).symm
          intro d hd heq
          apply hp
          rw [← heq]
          exact List.mem_map_of_mem (List.mem_map_of_mem hd)
      · rw [if_neg fun hboth => hk hboth.1]
        simp only [bestAt, hget, if_neg hk]

theorem foldl_selectTable_faithful {offers : Offers} (chunk : Int) (keys : List Family)
    {acc : GlobalRib × Nat} (h : Faithful acc.1 offers) :
    Faithful (keys.foldl (selectTable chunk) acc).1 offers := by
  induction keys generalizing acc with
  | nil => exact h
  | cons key keys ih => exact ih (selectTable_faithful h chunk acc.2 key)

theorem selectStep_faithful {g : GlobalRib} {offers : Offers} (h : Faithful g offers)
    (chunk : Int) : Faithful (g.selectStep chunk).1 offers :=
  foldl_selectTable_faithful chunk g.tables.keys h

theorem selectLoop_faithful {offers : Offers} (chunk : Int) (fuel : Nat) {g : GlobalRib}
    (h : Faithful g offers) : Faithful (selectLoop chunk fuel g) offers := by
  induction fuel generalizing g with
  | zero => exact h
  | succ fuel ih =>
    rw [selectLoop]
    split
    · exact selectStep_faithful h chunk
    · exact ih (selectStep_faithful h chunk)

theorem selectTable_examined (chunk : Int) (acc : GlobalRib × Nat) (key : Family) :
    (selectTable chunk acc key).1.pending + (selectTable chunk acc key).2 =
      acc.1.pending + acc.2 ∧ acc.2 ≤ (selectTable chunk acc key).2 ∧
    ((selectTable chunk acc key).2 = acc.2 →
      (selectTable chunk acc key).1.tables = acc.1.tables ∧
        ∀ t, acc.1.tables.get? key = some t → t.pending = 0) := by
  simp only [selectTable]
  cases ht : acc.1.tables.get? key with
  | none => exact ⟨rfl, le_refl _, fun _ => ⟨rfl, fun t h => absurd h (by simp)⟩⟩
  | some t =>
    by_cases hidle : t.pending = 0
    · simp only [if_pos hidle]
      refine ⟨trivial, le_refl _, fun _ => ⟨trivial, fun u hu => ?_⟩⟩
      rw [← Option.some.inj hu]
      exact hidle
    · simp only [if_neg hidle]
      have hdrained := RouteTable.pending_reselect t chunk
      have hprogress : (t.reselect chunk).1.pending < t.pending := by
        rw [hdrained]
        split <;> omega
      have hsum := Dict.sum_values_set RouteTable.pending (t.reselect chunk).1 ht
      simp only [pending, tables_foldl_publishDest]
      refine ⟨by omega, by omega, fun hsame => ?_⟩
      omega

theorem foldl_selectTable_examined (chunk : Int) (keys : List Family) (acc : GlobalRib × Nat) :
    (keys.foldl (selectTable chunk) acc).1.pending +
        (keys.foldl (selectTable chunk) acc).2 = acc.1.pending + acc.2 ∧
    acc.2 ≤ (keys.foldl (selectTable chunk) acc).2 ∧
    ((keys.foldl (selectTable chunk) acc).2 = acc.2 →
      (keys.foldl (selectTable chunk) acc).1.tables = acc.1.tables ∧
        ∀ key ∈ keys, ∀ t, acc.1.tables.get? key = some t → t.pending = 0) := by
  induction keys generalizing acc with
  | nil => exact ⟨rfl, le_refl _, fun _ => ⟨rfl, by simp⟩⟩
  | cons key keys ih =>
    obtain ⟨hsum, hmono, hidle⟩ := selectTable_examined chunk acc key
    obtain ⟨hsums, hmonos, hidles⟩ := ih (selectTable chunk acc key)
    rw [List.foldl_cons]
    refine ⟨hsums.trans hsum, le_trans hmono hmonos, fun hsame => ?_⟩
    obtain ⟨htables, hfirst⟩ := hidle (by omega)
    obtain ⟨htables', hrest⟩ := hidles (by omega)
    refine ⟨htables'.trans htables, ?_⟩
    intro k hk t ht
    rcases List.mem_cons.mp hk with rfl | hk
    · exact hfirst t ht
    · exact hrest k hk t (by rw [htables]; exact ht)

theorem pending_eq_zero_iff {g : GlobalRib} :
    g.pending = 0 ↔ ∀ key t, g.tables.get? key = some t → t.pending = 0 := by
  rw [pending, List.sum_eq_zero_iff_forall_eq_nat]
  simp only [List.mem_map, Dict.mem_values_iff]
  constructor
  · intro h key t ht
    exact h _ ⟨t, ⟨key, ht⟩, rfl⟩
  · rintro h _ ⟨t, ⟨key, ht⟩, rfl⟩
    exact h key t ht

theorem selectStep_pending (g : GlobalRib) (chunk : Int) :
    (g.selectStep chunk).1.pending + (g.selectStep chunk).2 = g.pending ∧
    ((g.selectStep chunk).2 = 0 → (g.selectStep chunk).1.pending = 0) := by
  obtain ⟨hsum, _, hidle⟩ := foldl_selectTable_examined chunk g.tables.keys (g, 0)
  refine ⟨hsum, fun hzero => ?_⟩
  obtain ⟨htables, hall⟩ := hidle hzero
  apply pending_eq_zero_iff.mpr
  intro key t ht
  rw [selectStep, htables] at ht
  exact hall key (Dict.mem_keys_iff.mpr ⟨t, ht⟩) t ht

theorem selectLoop_pending (chunk : Int) {fuel : Nat} {g : GlobalRib}
    (hfuel : g.pending < fuel) : (selectLoop chunk fuel g).pending = 0 := by
  induction fuel generalizing g with
  | zero => omega
  | succ fuel ih =>
    obtain ⟨hsum, hidle⟩ := selectStep_pending g chunk
    rw [selectLoop]
    by_cases hzero : (g.selectStep chunk).2 = 0
    · rw [if_pos hzero]
      exact hidle hzero
    · rw [if_neg hzero]
      apply ih
      omega

theorem select_pending (g : GlobalRib) (limit : Int) : (g.select limit).pending = 0 :=
  selectLoop_pending _ (Nat.lt_succ_self _)

theorem Faithful.bestAt_of_drained {g : GlobalRib} {offers : Offers}
    (h : Faithful g offers) (hpending : g.pending = 0) (key : Family) (p : Prefix) :
    g.published.get? (key, p) = selectRoute (offers key p) := by
  rw [h.published, ← h.offered, bestAt, routesAt]
  cases ht : g.tables.get? key with
  | none => rfl
  | some t =>
    have hqueue : t.queue = [] :=
      List.length_eq_zero_iff.mp (pending_eq_zero_iff.mp hpending key t ht)
    exact (h.kept key t ht).wf.bestAt_of_drained hqueue p

end GlobalRib

/-- What can be done with a RIB. -/
inductive RibOp where
  | ensureTable (key : Family)
  | offer (route : Route) (safi : Nat)
  | retract (pfx : Prefix) (protocol source safi : Nat)
  | retractAll (protocol source : Nat)
  | selectStep (chunk : Int)
  | select (limit : Int)

/-- One call.  One that raises changes nothing. -/
def GlobalRib.step (g : GlobalRib) : RibOp → GlobalRib
  | .ensureTable key => ((g.ensureTable key).map Prod.fst).getD g
  | .offer route safi => (g.offer route safi).getD g
  | .retract pfx protocol source safi => g.retract pfx protocol source safi
  | .retractAll protocol source => g.retractAll protocol source
  | .selectStep chunk => (g.selectStep chunk).1
  | .select limit => g.select limit

def GlobalRib.run (g : GlobalRib) (ops : List RibOp) : GlobalRib := ops.foldl step g

/-- What one call does to the offers. -/
def stepOffers (offers : GlobalRib.Offers) : RibOp → GlobalRib.Offers
  | .offer route safi => fun key p =>
    if key = (route.pfx.afi, safi) ∧ p = route.pfx then
      RouteTable.putOffer route (offers key p)
    else offers key p
  | .retract pfx protocol source safi => fun key p =>
    if key = (pfx.afi, safi) ∧ p = pfx then
      RouteTable.dropOffer protocol source (offers key p)
    else offers key p
  | .retractAll protocol source => fun key p => RouteTable.dropOffer protocol source (offers key p)
  | .ensureTable _ => offers
  | .selectStep _ => offers
  | .select _ => offers

/-- The offers that stand for a prefix of a table, oldest first. -/
def offersAt (ops : List RibOp) : GlobalRib.Offers := ops.foldl stepOffers fun _ _ => []

namespace GlobalRib

theorem step_faithful {g : GlobalRib} {offers : Offers} (h : Faithful g offers)
    (op : RibOp) : Faithful (g.step op) (stepOffers offers op) := by
  cases op with
  | ensureTable key =>
    rw [step]
    by_cases hknown : pfxAddrLen key.1 = 0
    · rw [ensureTable, if_pos hknown]
      exact h
    · rcases ensureTable_faithful h key hknown with ⟨g', t, hensured, _, h'⟩
      rw [hensured]
      exact h'
  | offer route safi =>
    rcases offer_faithful h route safi with ⟨g', hoffer, h'⟩
    rw [step, hoffer]
    exact h'
  | retract pfx protocol source safi => exact retract_faithful h pfx protocol source safi
  | retractAll protocol source => exact retractAll_faithful h protocol source
  | selectStep chunk => exact selectStep_faithful h chunk
  | select limit => exact selectLoop_faithful _ _ h

theorem run_faithful {g : GlobalRib} {offers : Offers} (h : Faithful g offers)
    (ops : List RibOp) : Faithful (g.run ops) (ops.foldl stepOffers offers) := by
  induction ops generalizing g offers with
  | nil => exact h
  | cons op ops ih => exact ih (step_faithful h op)

theorem new_faithful {keys : List Family} {g : GlobalRib} (h : new keys = some g) :
    Faithful g fun _ _ => [] := by
  have hfold : ∀ (keys : List Family) {g₀ g : GlobalRib}, Faithful g₀ (fun _ _ => []) →
      keys.foldlM (fun g key => (g.ensureTable key).map Prod.fst) g₀ = some g →
      Faithful g fun _ _ => [] := by
    intro keys
    induction keys with
    | nil =>
      intro g₀ g h₀ hg
      rw [← Option.some.inj hg]
      exact h₀
    | cons key keys ih =>
      intro g₀ g h₀ hg
      rw [List.foldlM_cons] at hg
      cases hensured : (g₀.ensureTable key).map Prod.fst with
      | none => rw [hensured] at hg; exact absurd hg (by simp)
      | some g₁ =>
        have hstep := step_faithful h₀ (.ensureTable key)
        rw [step, hensured] at hstep
        rw [hensured] at hg
        exact ih hstep hg
  exact hfold keys empty_faithful h

/-- After any run, a sink that replays the calls for one table of each address family is told to
withdraw only what is installed and holds what is published; with nothing pending that is, for
each prefix, the first offer to which none is preferred. -/
theorem run_published {keys : List Family} {g : GlobalRib} (h : new keys = some g)
    (ops : List RibOp) :
    (∀ safiOf : Nat → Nat, ∃ m, replay (callsFor safiOf (g.run ops).calls) = some m ∧
      ∀ p, m.get? p = (g.run ops).published.get? ((p.afi, safiOf p.afi), p)) ∧
    ((g.run ops).pending = 0 → ∀ key p,
      ((g.run ops).published.get? (key, p) = none ↔ offersAt ops key p = []) ∧
      ∀ r, (g.run ops).published.get? (key, p) = some r ↔ FirstMinimal (offersAt ops key p) r) := by
  have hrun := run_faithful (new_faithful h) ops
  refine ⟨hrun.mirrored, fun hpending key p => ?_⟩
  have hbest := hrun.bestAt_of_drained hpending key p
  rw [hbest]
  exact ⟨selectRoute_eq_none_iff, fun r => selectRoute_eq_some_iff⟩

def sharedPfx : Prefix := .ipv4 10 0 0 0 8

def sharedRoute (oid protocol : Nat) : Route :=
  ⟨oid, sharedPfx, protocol, 1, 0, [192, 0, 2, 1], protocol, 0⟩

def sharedRun : List RibOp :=
  [.offer (sharedRoute 0 1) 1, .offer (sharedRoute 1 2) 2, .select 0,
    .retract sharedPfx 1 1 1, .select 0]

theorem run_published_shared : new [IPV4_UNICAST] = some ((new [IPV4_UNICAST]).getD empty) ∧
    ((new [IPV4_UNICAST]).getD empty |>.run sharedRun).pending = 0 ∧
    ((new [IPV4_UNICAST]).getD empty |>.run sharedRun).published.get?
      ((1, 2), sharedPfx) = some (sharedRoute 1 2) := by
  have hnew : new [IPV4_UNICAST] = some ((new [IPV4_UNICAST]).getD empty) := rfl
  have hpending : ((new [IPV4_UNICAST]).getD empty |>.run sharedRun).pending = 0 := by
    decide +kernel
  refine ⟨hnew, hpending, ?_⟩
  rw [((run_published hnew sharedRun).2 hpending (1, 2) sharedPfx).2]
  exact ⟨[], [], by decide +kernel, by simp, by simp⟩

/-- The withdrawal from the first table names a route that a sink of all the calls no
longer has: the other table has installed its own for the prefix. -/
theorem not_replay_shared :
    ¬ ∃ m, replay (((new [IPV4_UNICAST]).getD empty |>.run sharedRun).calls.map
      Prod.snd) = some m := by
  have hfails : replay (((new [IPV4_UNICAST]).getD empty |>.run sharedRun).calls.map
      Prod.snd) = none := by
    decide +kernel
  rw [hfails]
  simp

end GlobalRib

end Rib

end Packets
