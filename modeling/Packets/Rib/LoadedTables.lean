/-
What loading leaves in the resolver's tables (`rib/resolver.py`).

The last row of a prefix wins it.  The tables of static entries are selected as soon as they
change.
-/
import Packets.Rib.ResolverRuns

namespace Packets

namespace Rib

namespace RouteTable

theorem queue_reselect_zero (t : RouteTable) : (t.reselect 0).1.queue = [] := by
  apply List.length_eq_zero_iff.mp
  have hpending := pending_reselect t 0
  rw [if_pos (Int.le_refl 0), Nat.sub_self] at hpending
  exact hpending

theorem reselect_of_drained {t : RouteTable} (h : t.queue = []) : (t.reselect 0).1 = t := by
  obtain ⟨afi, safi, heap, trie, routeCount, queue⟩ := t
  subst h
  rfl

theorem bestAt_reselect_zero {t : RouteTable} (h : Wf t []) (p : Prefix) :
    (t.reselect 0).1.bestAt p = selectRoute (t.routesAt p) := by
  have hsel := reselect_selecting h 0
  rw [hsel.wf.bestAt_of_drained (queue_reselect_zero t), hsel.routes]

/-- A withdrawal of what was not offered does nothing. -/
theorem retract_of_not_retracts {t : RouteTable} {pfx : Prefix} {protocol source : Nat}
    (h : t.retracts pfx protocol source = false) : t.retract pfx protocol source = t := by
  rw [retracts] at h
  rw [retract]
  cases hd : t.trie.get? pfx with
  | none => rfl
  | some d =>
    rw [hd] at h
    have hnone : (t.cell d).routes.find? (fun r => r.isFrom protocol source) = none := by
      apply List.find?_eq_none.mpr
      simpa using h
    simp only [hnone]

/-- A table that counts no routes has none. -/
def Counted (t : RouteTable) : Prop := t.routeCount = 0 → ∀ p, t.routesAt p = []

/-- Every winner is one of the routes. -/
def Elected (t : RouteTable) : Prop := ∀ p r, t.bestAt p = some r → r ∈ t.routesAt p

theorem routeCount_enqueue (t : RouteTable) (d : Nat) :
    (t.enqueue d).routeCount = t.routeCount := by
  rw [enqueue]
  split <;> rfl

theorem routeCount_dest {t t' : RouteTable} {pfx : Prefix} {d : Nat}
    (h : t.dest pfx = some (t', d)) : t'.routeCount = t.routeCount := by
  rw [dest] at h
  split at h
  · exact absurd h (by simp)
  · split at h
    · cases h
      rfl
    · cases h
      exact routeCount_enqueue _ _

/-- A table that was offered a route counts one. -/
theorem Counted.offer {t t' : RouteTable} {r : Route} (hcounted : Counted t) (h : Wf t [])
    (hafi : r.pfx.afi = t.afi) (hoffer : t.offer r = some t') : t'.routeCount ≠ 0 := by
  obtain ⟨t₁, d, hdest, hd, hfound⟩ := dest_edited h hafi
  have hcount := routeCount_dest hdest
  have hheld : t.routesAt r.pfx = (t₁.cell d).routes := by
    rw [← routesAt_of_filed hd, hfound.routes]
  have hkept : ∀ old, (t₁.cell d).routes.find? (fun old => old.isFrom r.protocol r.source) =
      some old → t.routeCount ≠ 0 := by
    intro old hold hzero
    rw [← hheld, hcounted hzero] at hold
    exact absurd hold (by simp)
  simp only [RouteTable.offer, hdest] at hoffer
  cases hold : (t₁.cell d).routes.find? fun old => old.isFrom r.protocol r.source with
  | some old =>
    simp only [hold] at hoffer
    split at hoffer
    · cases hoffer
      rw [hcount]
      exact hkept old hold
    · cases hoffer
      rw [routeCount_enqueue]
      change t₁.routeCount ≠ 0
      rw [hcount]
      exact hkept old hold
  | none =>
    simp only [hold, Option.some.injEq] at hoffer
    rw [← hoffer, routeCount_enqueue]
    exact Nat.succ_ne_zero _

theorem routeCount_reselect (t : RouteTable) (limit : Int) :
    (t.reselect limit).1.routeCount = t.routeCount := by
  have hone : ∀ acc d, (reselectDest acc d).1.routeCount = acc.1.routeCount := by
    intro acc d
    simp only [reselectDest]
    split <;> rfl
  have hfold : ∀ (ds : List Nat) (acc : RouteTable × List Nat),
      (ds.foldl reselectDest acc).1.routeCount = acc.1.routeCount := by
    intro ds
    induction ds with
    | nil => exact fun _ => rfl
    | cons d ds ih =>
      intro acc
      rw [List.foldl_cons, ih, hone]
  exact hfold _ _

theorem Counted.reselect {t : RouteTable} (hcounted : Counted t) (h : Wf t []) (limit : Int) :
    Counted (t.reselect limit).1 := by
  intro hzero p
  rw [routeCount_reselect] at hzero
  rw [(reselect_selecting h limit).routes]
  exact hcounted hzero p

theorem elected_reselect_zero {t : RouteTable} (h : Wf t []) : Elected (t.reselect 0).1 := by
  intro p r hr
  rw [bestAt_reselect_zero h] at hr
  rw [(reselect_selecting h 0).routes]
  obtain ⟨earlier, later, hroutes, -⟩ := selectRoute_eq_some_iff.mp hr
  rw [hroutes]
  simp

end RouteTable

namespace Resolver

open RouteTable

/-- The routes offered for a prefix. -/
def routesOf (tables : Dict Nat RouteTable) (p : Prefix) : List Route :=
  match tables.get? p.afi with
  | none => []
  | some table => table.routesAt p

/-- There is a table for every prefix. -/
def Complete (tables : Dict Nat RouteTable) : Prop :=
  ∀ p : Prefix, (tables.get? p.afi).isSome = true

theorem complete_fresh : Complete freshTables := by
  intro p
  have hknown := p.known
  rw [pfxAddrLen] at hknown
  simp only [freshTables, Dict.get?_set]
  split
  · rfl
  · split
    · rfl
    · split_ifs at hknown
      simp_all

theorem empty_of_fresh {afi : Nat} {t : RouteTable} (ht : freshTables.get? afi = some t)
    (p : Prefix) : t.routesAt p = [] ∧ t.bestAt p = none := by
  simp only [freshTables, Dict.get?_set, Dict.get?_empty] at ht
  split at ht
  · cases ht
    exact ⟨rfl, rfl⟩
  · split at ht
    · cases ht
      exact ⟨rfl, rfl⟩
    · exact absurd ht (by simp)

/-- An offer edits the routes of its own prefix. -/
theorem offerTo_spec {tables : Dict Nat RouteTable} (h : UsableTables tables)
    (hall : Complete tables) (r : Route) :
    Complete (offerTo tables r) ∧
      (∀ p, routesOf (offerTo tables r) p =
        if p = r.pfx then putOffer r (routesOf tables p) else routesOf tables p) ∧
      (∀ p, winnersOf (offerTo tables r) p.afi p = winnersOf tables p.afi p) ∧
      ((∀ afi t, tables.get? afi = some t → Counted t) →
        ∀ afi t, (offerTo tables r).get? afi = some t → Counted t) := by
  obtain ⟨table, ht⟩ := Option.isSome_iff_exists.mp (hall r.pfx)
  have husable := h _ table ht
  obtain ⟨table', hoffer, hedit⟩ := offer_edited husable.wf husable.afi.symm
  have htables : offerTo tables r = tables.set r.pfx.afi table' := by
    simp only [offerTo, ht, hoffer]
  rw [htables]
  refine ⟨?_, ?_, ?_, ?_⟩
  · intro p
    rw [Dict.get?_set]
    split
    · rfl
    · exact hall p
  · intro p
    simp only [routesOf, Dict.get?_set]
    by_cases hafi : p.afi = r.pfx.afi
    · simp only [hafi, if_true, ht, hedit.routes]
    · have hp : p ≠ r.pfx := fun heq => hafi (congrArg Prefix.afi heq)
      simp only [hafi, hp, if_false]
  · intro p
    simp only [winnersOf, Dict.get?_set]
    by_cases hafi : p.afi = r.pfx.afi
    · simp only [hafi, if_true, ht, hedit.best]
    · simp only [hafi, if_false]
  · intro hcounted afi t hget
    rw [Dict.get?_set] at hget
    by_cases hafi : afi = r.pfx.afi
    · rw [if_pos hafi, Option.some.injEq] at hget
      subst hget
      intro hzero
      exact absurd hzero ((hcounted _ table ht).offer husable.wf husable.afi.symm hoffer)
    · rw [if_neg hafi] at hget
      exact hcounted afi t hget

/-- The last row of a prefix. -/
def lastRow (rows : List StaticRow) (p : Prefix) : Option StaticRow :=
  rows.reverse.find? fun row => row.1 = p

theorem lastRow_concat (rows : List StaticRow) (row : StaticRow) (p : Prefix) :
    lastRow (rows ++ [row]) p = if row.1 = p then some row else lastRow rows p := by
  rw [lastRow, List.reverse_append, List.reverse_singleton, List.singleton_append, List.find?_cons]
  by_cases hp : row.1 = p <;> simp [hp, lastRow]

theorem lastRow_pfx {rows : List StaticRow} {p : Prefix} {row : StaticRow}
    (h : lastRow rows p = some row) : row.1 = p := by
  rw [lastRow] at h
  simpa using List.find?_some h

/-- A static entry takes the place of the one for its prefix. -/
theorem putOffer_static {old row : StaticRow} (hpfx : old.1 = row.1) :
    putOffer (staticRoute row) [staticRoute old] = [staticRoute row] := by
  have hfrom : (staticRoute old).isFrom (staticRoute row).protocol (staticRoute row).source =
      true := by
    simp [staticRoute, Route.isFrom]
  have hfound : [staticRoute old].find? (fun old =>
      old.isFrom (staticRoute row).protocol (staticRoute row).source) = some (staticRoute old) := by
    rw [List.find?_cons, hfrom]
  rw [putOffer, hfound]
  by_cases hsame : sameContent (staticRoute old) (staticRoute row) = true
  · simp only [sameContent, staticRoute, Bool.and_eq_true, beq_iff_eq] at hsame
    obtain ⟨⟨hdistance, hmetric⟩, hnexthop⟩ := hsame
    have heq : old = row := Prod.ext hpfx (Prod.ext hnexthop (Prod.ext hdistance hmetric))
    simp [heq, sameContent]
  · simp only [hsame, Bool.false_eq_true, if_false, replaceOffer, hfrom, if_true]

/-- What offering some routes to empty tables leaves. -/
structure Loaded (tables : Dict Nat RouteTable) : Prop where
  usable : UsableTables tables
  complete : Complete tables
  counted : ∀ afi t, tables.get? afi = some t → Counted t
  unselected : ∀ p, winnersOf tables p.afi p = none

theorem loaded_fresh : Loaded freshTables := by
  refine ⟨usableTables_fresh, complete_fresh, ?_, ?_⟩
  · intro afi t ht _ p
    exact (empty_of_fresh ht p).1
  · intro p
    rw [winnersOf]
    cases ht : freshTables.get? p.afi with
    | none => rfl
    | some t => exact (empty_of_fresh ht p).2

theorem Loaded.offerTo {tables : Dict Nat RouteTable} (h : Loaded tables) {r : Route}
    (hwidth : r.nexthop.length ∈ nexthopWidths) : Loaded (offerTo tables r) := by
  obtain ⟨hcomplete, -, hwinners, hcounted⟩ := offerTo_spec h.usable h.complete r
  refine ⟨h.usable.offerTo hwidth, hcomplete, hcounted h.counted, ?_⟩
  intro p
  rw [hwinners]
  exact h.unselected p

theorem Loaded.foldl {tables : Dict Nat RouteTable} (h : Loaded tables) {routes : List Route}
    (hwidth : ∀ r ∈ routes, r.nexthop.length ∈ nexthopWidths) :
    Loaded (routes.foldl Resolver.offerTo tables) := by
  induction routes generalizing tables with
  | nil => exact h
  | cons r routes ih =>
    exact ih (h.offerTo (hwidth r List.mem_cons_self))
      fun q hq => hwidth q (List.mem_cons_of_mem _ hq)

/-- Offered row by row, a section leaves each prefix its last row. -/
theorem routesOf_rows {rows : List StaticRow}
    (hwidth : ∀ r ∈ rows.map staticRoute, r.nexthop.length ∈ nexthopWidths) (p : Prefix) :
    routesOf ((rows.map staticRoute).foldl offerTo freshTables) p =
      ((lastRow rows p).map staticRoute).toList := by
  induction rows using List.reverseRecOn with
  | nil =>
    change routesOf freshTables p = []
    rw [routesOf]
    cases ht : freshTables.get? p.afi with
    | none => rfl
    | some t => exact (empty_of_fresh ht p).1
  | append_singleton rows row ih =>
    rw [List.map_append] at hwidth
    have hbefore := fun r hr => hwidth r (List.mem_append_left _ hr)
    have hloaded := loaded_fresh.foldl hbefore
    rw [List.map_append, List.foldl_append, lastRow_concat]
    change routesOf (offerTo _ (staticRoute row)) p = _
    rw [(offerTo_spec hloaded.usable hloaded.complete (staticRoute row)).2.1]
    have hpfx : (staticRoute row).pfx = row.1 := rfl
    by_cases hp : p = row.1
    · rw [hpfx, if_pos hp, if_pos hp.symm, ih hbefore]
      cases hlast : lastRow rows p with
      | none => rfl
      | some old => exact putOffer_static ((lastRow_pfx hlast).trans hp)
    · rw [hpfx, if_neg hp, if_neg (Ne.symm hp)]
      exact ih hbefore

theorem winnersOf_reselectAll {tables : Dict Nat RouteTable} (h : UsableTables tables)
    (p : Prefix) : winnersOf (reselectAll tables) p.afi p = selectRoute (routesOf tables p) := by
  rw [winnersOf, routesOf, reselectAll, Dict.get?_mapValues]
  cases ht : tables.get? p.afi with
  | none => rfl
  | some t => exact bestAt_reselect_zero (h _ t ht).wf p

theorem winnersOf_rows {rows : List StaticRow}
    (hwidth : ∀ r ∈ rows.map staticRoute, r.nexthop.length ∈ nexthopWidths) (p : Prefix) :
    winnersOf (reselectAll ((rows.map staticRoute).foldl offerTo freshTables)) p.afi p =
      (lastRow rows p).map staticRoute := by
  rw [winnersOf_reselectAll (loaded_fresh.foldl hwidth).usable, routesOf_rows hwidth]
  cases lastRow rows p <;> rfl

end Resolver

end Rib

end Packets
