/-
What a route table holds and what it has selected.

`Wf`: a destination in line is the one filed under its prefix, and one filed and not in line has
been selected.
-/
import Packets.Rib.RouteTable

namespace Packets

namespace Rib

/-- What `routeCmp` compares, in turn. -/
def routeRank (r : Route) : List Int := [(r.adminDistance : Int), r.metric, r.protocol, r.recvTime]

theorem routeCmp_eq (a b : Route) :
    routeCmp a b = Preference.compareRanks (routeRank a) (routeRank b) := by
  simp only [routeCmp, routeRank, Preference.compareRanks, ne_eq, Int.ofNat_inj, Int.ofNat_lt]

theorem routeCmp_neg_iff {a b : Route} : routeCmp a b < 0 ↔ routeRank a < routeRank b := by
  have hlen : (routeRank a).length = (routeRank b).length := rfl
  rw [routeCmp_eq]
  exact Preference.compareRanks_neg_iff hlen

theorem routeCmp_pos_iff {a b : Route} : 0 < routeCmp a b ↔ routeRank b < routeRank a := by
  have hlen : (routeRank a).length = (routeRank b).length := rfl
  rw [routeCmp_eq]
  exact Preference.compareRanks_pos_iff hlen

theorem routeCmp_nonpos_iff {a b : Route} : routeCmp a b ≤ 0 ↔ routeRank a ≤ routeRank b := by
  rw [← not_lt, ← not_lt, routeCmp_pos_iff]

/-- The comparator of the scan: positive if the newcomer wins. -/
def scanCmp (best r : Route) : Int := -routeCmp r best

theorem scanCmp_ranked : Preference.RankedOn scanCmp routeRank fun _ => True := by
  constructor
  · intro a b _ _
    rw [scanCmp, Int.neg_pos]
    exact routeCmp_neg_iff
  · intro a b _ _
    rw [scanCmp, Int.neg_neg_iff_pos]
    exact routeCmp_pos_iff

theorem selectRoute_cons (r : Route) (rest : List Route) :
    selectRoute (r :: rest) = some (Preference.champion scanCmp r rest) := by
  rw [selectRoute, List.foldl_cons, Preference.champion]
  induction rest generalizing r with
  | nil => rfl
  | cons q rest ih =>
    rw [List.foldl_cons, List.foldl_cons]
    by_cases hbeats : routeCmp q r < 0
    · have hscan : 0 < scanCmp r q := Int.neg_pos.mpr hbeats
      simp only [if_pos hbeats, if_pos hscan]
      exact ih q
    · have hscan : ¬ 0 < scanCmp r q := fun h => hbeats (Int.neg_pos.mp h)
      simp only [if_neg hbeats, if_neg hscan]
      exact ih r

theorem selectRoute_eq_none_iff {routes : List Route} :
    selectRoute routes = none ↔ routes = [] := by
  cases routes with
  | nil => exact ⟨fun _ => rfl, fun _ => rfl⟩
  | cons r rest =>
    rw [selectRoute_cons]
    simp

/-- `r` is the first of the routes to which none is preferred. -/
def FirstMinimal (routes : List Route) (r : Route) : Prop :=
  ∃ earlier later, routes = earlier ++ r :: later ∧
    (∀ q ∈ earlier, routeCmp r q < 0) ∧ ∀ q ∈ later, routeCmp r q ≤ 0

theorem FirstMinimal.unique {routes : List Route} {r r' : Route}
    (h : FirstMinimal routes r) (h' : FirstMinimal routes r') : r = r' := by
  rcases h with ⟨earlier, later, heq, hearlier, hlater⟩
  rcases h' with ⟨earlier', later', heq', hearlier', hlater'⟩
  have hantisymm : ∀ a b : Route, routeCmp a b < 0 → ¬ routeCmp b a ≤ 0 := by
    intro a b hab hba
    exact absurd (routeCmp_nonpos_iff.mp hba) (not_le.mpr (routeCmp_neg_iff.mp hab))
  rw [heq, List.append_eq_append_iff] at heq'
  rcases heq' with ⟨as, hleft, hright⟩ | ⟨bs, hleft, hright⟩
  · cases as with
    | nil => exact (List.cons.inj hright).1
    | cons a as =>
      have hr : r ∈ earlier' := by
        rw [hleft, (List.cons.inj hright).1]
        simp
      have hr' : r' ∈ later := by
        rw [(List.cons.inj hright).2]
        simp
      exact absurd (hlater r' hr') (hantisymm r' r (hearlier' r hr))
  · cases bs with
    | nil => exact (List.cons.inj hright).1.symm
    | cons b bs =>
      have hr' : r' ∈ earlier := by
        rw [hleft, (List.cons.inj hright).1]
        simp
      have hr : r ∈ later' := by
        rw [(List.cons.inj hright).2]
        simp
      exact absurd (hlater' r hr) (hantisymm r r' (hearlier r' hr'))

/-- Selection finds the first route to which none is preferred. -/
theorem selectRoute_eq_some_iff {routes : List Route} {r : Route} :
    selectRoute routes = some r ↔ FirstMinimal routes r := by
  have hfound : ∀ r, selectRoute routes = some r → FirstMinimal routes r := by
    intro r hr
    cases routes with
    | nil => exact absurd hr (by simp [selectRoute])
    | cons first rest =>
      rw [selectRoute_cons] at hr
      rcases Preference.champion_first scanCmp_ranked first rest
        (fun _ _ => trivial) with ⟨earlier, later, heq, hearlier, hlater⟩
      rw [Option.some.inj hr] at heq hearlier hlater
      refine ⟨earlier, later, heq, ?_, ?_⟩
      · intro q hq
        exact routeCmp_neg_iff.mpr (hearlier q hq)
      · intro q hq
        exact routeCmp_nonpos_iff.mpr (hlater q hq)
  constructor
  · exact hfound r
  · intro hr
    cases hsel : selectRoute routes with
    | none =>
      rcases hr with ⟨earlier, later, heq, _, _⟩
      rw [selectRoute_eq_none_iff.mp hsel] at heq
      exact absurd heq (by simp)
    | some w => rw [(hfound w hsel).unique hr]

namespace RouteTable

/-- The routes held for a prefix. -/
def routesAt (t : RouteTable) (p : Prefix) : List Route :=
  match t.trie.get? p with
  | none => []
  | some d => (t.cell d).routes

/-- The winner the last selection left for a prefix. -/
def bestAt (t : RouteTable) (p : Prefix) : Option Route :=
  match t.trie.get? p with
  | none => none
  | some d => (t.cell d).best

theorem routesAt_of_filed {t : RouteTable} {p : Prefix} {d : Nat}
    (hd : t.trie.get? p = some d) : t.routesAt p = (t.cell d).routes := by
  rw [routesAt, hd]

theorem bestAt_of_filed {t : RouteTable} {p : Prefix} {d : Nat}
    (hd : t.trie.get? p = some d) : t.bestAt p = (t.cell d).best := by
  rw [bestAt, hd]

theorem routesAt_of_none {t : RouteTable} {p : Prefix} (hp : t.trie.get? p = none) :
    t.routesAt p = [] := by
  rw [routesAt, hp]

theorem bestAt_of_none {t : RouteTable} {p : Prefix} (hp : t.trie.get? p = none) :
    t.bestAt p = none := by
  rw [bestAt, hp]

@[simp] theorem cell_setDest (t : RouteTable) (d x : Nat) (dest : Dest) :
    (t.setDest d dest).cell x = if x = d then dest else t.cell x := rfl

@[simp] theorem trie_setDest (t : RouteTable) (d : Nat) (dest : Dest) :
    (t.setDest d dest).trie = t.trie := rfl

@[simp] theorem queue_setDest (t : RouteTable) (d : Nat) (dest : Dest) :
    (t.setDest d dest).queue = t.queue := rfl

@[simp] theorem next_setDest (t : RouteTable) (d : Nat) (dest : Dest) :
    (t.setDest d dest).heap.next = t.heap.next := rfl

/-- What `_enqueue` leaves alone. -/
structure SameButQueue (t t' : RouteTable) : Prop where
  afi : t'.afi = t.afi
  safi : t'.safi = t.safi
  trie : t'.trie = t.trie
  next : t'.heap.next = t.heap.next

theorem enqueue_same (t : RouteTable) (d : Nat) : SameButQueue t (t.enqueue d) := by
  rw [enqueue]
  split
  · exact ⟨rfl, rfl, rfl, rfl⟩
  · exact ⟨rfl, rfl, rfl, rfl⟩

theorem cell_enqueue (t : RouteTable) (d x : Nat) :
    (t.enqueue d).cell x =
      if x = d then { t.cell d with queued := true } else t.cell x := by
  rw [enqueue]
  split
  · rename_i hqueued
    by_cases hx : x = d
    · subst hx
      rw [if_pos rfl, ← hqueued]
    · rw [if_neg hx]
  · rfl

theorem queue_enqueue (t : RouteTable) (d : Nat) :
    (t.enqueue d).queue = if (t.cell d).queued then t.queue else t.queue ++ [d] := by
  rw [enqueue]
  split <;> rfl

/-- The destinations, with `todo` taken off the queue and not yet selected. -/
structure Wf (t : RouteTable) (todo : List Nat) : Prop where
  filed_pfx : ∀ p d, t.trie.get? p = some d → (t.cell d).pfx = p
  filed_afi : ∀ p d, t.trie.get? p = some d → p.afi = t.afi
  filed_lt : ∀ p d, t.trie.get? p = some d → d < t.heap.next
  line_filed : ∀ d ∈ todo ++ t.queue, t.trie.get? (t.cell d).pfx = some d
  line_queued : ∀ p d, t.trie.get? p = some d → ((t.cell d).queued = true ↔ d ∈ todo ++ t.queue)
  line_nodup : (todo ++ t.queue).Nodup
  settled : ∀ p d, t.trie.get? p = some d → d ∉ todo ++ t.queue →
    (t.cell d).best = selectRoute (t.cell d).routes
  route_pfx : ∀ p d, t.trie.get? p = some d → ∀ r ∈ (t.cell d).routes, r.pfx = p
  best_pfx : ∀ p d, t.trie.get? p = some d → ∀ r, (t.cell d).best = some r → r.pfx = p

theorem new_wf (afi safi : Nat) : Wf (new afi safi) [] := by
  constructor <;> intros <;> simp_all [new, Dict.empty, Dict.get?, Dict.getEntries]

namespace Wf

variable {t : RouteTable} {todo : List Nat}

theorem filed_inj (h : Wf t todo) {p q : Prefix} {d : Nat}
    (hp : t.trie.get? p = some d) (hq : t.trie.get? q = some d) : p = q :=
  (h.filed_pfx p d hp).symm.trans (h.filed_pfx q d hq)

theorem bestAt_pfx (h : Wf t todo) {p : Prefix} {r : Route} (hr : t.bestAt p = some r) :
    r.pfx = p := by
  cases hp : t.trie.get? p with
  | none => rw [bestAt_of_none hp] at hr; exact absurd hr (by simp)
  | some d => rw [bestAt_of_filed hp] at hr; exact h.best_pfx p d hp r hr

theorem bestAt_afi (h : Wf t todo) {p : Prefix} {r : Route} (hr : t.bestAt p = some r) :
    p.afi = t.afi := by
  cases hp : t.trie.get? p with
  | none => rw [bestAt_of_none hp] at hr; exact absurd hr (by simp)
  | some d => exact h.filed_afi p d hp

theorem bestAt_of_drained (h : Wf t todo) (hline : todo ++ t.queue = []) (p : Prefix) :
    t.bestAt p = selectRoute (t.routesAt p) := by
  cases hp : t.trie.get? p with
  | none => rw [bestAt_of_none hp, routesAt_of_none hp]; rfl
  | some d =>
    rw [bestAt_of_filed hp, routesAt_of_filed hp]
    apply h.settled p d hp
    rw [hline]
    simp

end Wf

/-- What a change of offers does: the table is still well formed and of its family,
the routes of each prefix are edited, and nothing is selected. -/
structure Edited (t t' : RouteTable) (edit : Prefix → List Route → List Route) :
    Prop where
  afi : t'.afi = t.afi
  safi : t'.safi = t.safi
  wf : Wf t' []
  routes : ∀ p, t'.routesAt p = edit p (t.routesAt p)
  best : ∀ p, t'.bestAt p = t.bestAt p

theorem Edited.refl {t : RouteTable} (h : Wf t []) : Edited t t fun _ routes => routes :=
  ⟨rfl, rfl, h, fun _ => rfl, fun _ => rfl⟩

theorem Edited.trans {t t' t'' : RouteTable} {edit edit' : Prefix → List Route → List Route}
    (h : Edited t t' edit) (h' : Edited t' t'' edit') :
    Edited t t'' fun p routes => edit' p (edit p routes) :=
  ⟨h'.afi.trans h.afi, h'.safi.trans h.safi, h'.wf,
    fun p => by rw [h'.routes, h.routes], fun p => by rw [h'.best, h.best]⟩

theorem Edited.congr {t t' : RouteTable} {edit edit' : Prefix → List Route → List Route}
    (h : Edited t t' edit) (heq : ∀ p, edit p (t.routesAt p) = edit' p (t.routesAt p)) :
    Edited t t' edit' :=
  ⟨h.afi, h.safi, h.wf, fun p => (h.routes p).trans (heq p), h.best⟩

/-- Replacing the routes of a filed destination and queueing it. -/
theorem edited_of_filed {t t' : RouteTable} {p : Prefix} {d : Nat} (routes : List Route)
    (h : Wf t []) (hd : t.trie.get? p = some d) (hroutes : ∀ r ∈ routes, r.pfx = p)
    (hsame : SameButQueue t t')
    (hcell : ∀ x, t'.cell x =
      if x = d then { t.cell d with routes := routes, queued := true } else t.cell x)
    (hqueue : t'.queue = if (t.cell d).queued then t.queue else t.queue ++ [d]) :
    Edited t t' fun q old => if q = p then routes else old := by
  have hmem : ∀ x, x ∈ t'.queue ↔ x ∈ t.queue ∨ x = d := by
    intro x
    rw [hqueue]
    split
    · rename_i hqueued
      constructor
      · exact Or.inl
      · rintro (hx | rfl)
        · exact hx
        · exact (h.line_queued p x hd).mp hqueued
    · simp
  have hpfx : ∀ x, (t'.cell x).pfx = (t.cell x).pfx := by
    intro x
    rw [hcell]
    by_cases hx : x = d
    · rw [if_pos hx, hx]
    · rw [if_neg hx]
  have hbest : ∀ x, (t'.cell x).best = (t.cell x).best := by
    intro x
    rw [hcell]
    by_cases hx : x = d
    · rw [if_pos hx, hx]
    · rw [if_neg hx]
  have hother : ∀ x, x ≠ d → t'.cell x = t.cell x := fun x hx => by
    rw [hcell, if_neg hx]
  have hcelld : t'.cell d = { t.cell d with routes := routes, queued := true } := by
    rw [hcell, if_pos rfl]
  refine ⟨hsame.afi, hsame.safi, ?_, ?_, ?_⟩
  · constructor
    · intro q x hx
      rw [hsame.trie] at hx
      rw [hpfx]
      exact h.filed_pfx q x hx
    · intro q x hx
      rw [hsame.trie] at hx
      rw [hsame.afi]
      exact h.filed_afi q x hx
    · intro q x hx
      rw [hsame.trie] at hx
      rw [hsame.next]
      exact h.filed_lt q x hx
    · intro x hx
      rw [hsame.trie, hpfx]
      rcases (hmem x).mp hx with hx | rfl
      · exact h.line_filed x hx
      · rw [h.filed_pfx p x hd]
        exact hd
    · intro q x hx
      rw [hsame.trie] at hx
      rw [List.nil_append, hmem]
      by_cases hxd : x = d
      · rw [hxd, hcelld]
        simp
      · rw [hother x hxd, h.line_queued q x hx]
        simp [hxd]
    · rw [List.nil_append, hqueue]
      split
      · exact h.line_nodup
      · rename_i hqueued
        have hd' : d ∉ t.queue := fun hin => hqueued ((h.line_queued p d hd).mpr hin)
        exact List.nodup_append.mpr ⟨h.line_nodup, by simp, by
          rintro x hx y hy rfl
          rw [List.mem_singleton.mp hy] at hx
          exact hd' hx⟩
    · intro q x hx hline
      rw [hsame.trie] at hx
      rw [List.nil_append, hmem, not_or] at hline
      rw [hother x hline.2]
      exact h.settled q x hx hline.1
    · intro q x hx
      rw [hsame.trie] at hx
      by_cases hxd : x = d
      · subst hxd
        rw [hcelld, h.filed_inj hx hd]
        exact hroutes
      · rw [hother x hxd]
        exact h.route_pfx q x hx
    · intro q x hx
      rw [hsame.trie] at hx
      rw [hbest]
      exact h.best_pfx q x hx
  · intro q
    by_cases hq : q = p
    · subst hq
      have hd' : t'.trie.get? q = some d := by rw [hsame.trie]; exact hd
      rw [if_pos rfl, routesAt_of_filed hd', hcelld]
    · rw [if_neg hq, routesAt, routesAt, hsame.trie]
      cases hx : t.trie.get? q with
      | none => rfl
      | some x =>
        have hxd : x ≠ d := fun heq => hq (h.filed_inj (heq ▸ hx) hd)
        simp only [hother x hxd]
  · intro q
    rw [bestAt, bestAt, hsame.trie]
    cases t.trie.get? q with
    | none => rfl
    | some x => exact hbest x

theorem created_edited {t : RouteTable} {pfx : Prefix} (h : Wf t [])
    (hafi : pfx.afi = t.afi) (hnew : t.trie.get? pfx = none) :
    Edited t { t with
      heap := t.heap.alloc (Dest.new pfx)
      trie := t.trie.set pfx t.heap.next } fun _ routes => routes := by
  have hold : ∀ q x, t.trie.get? q = some x → x ≠ t.heap.next := fun q x hx =>
    Nat.ne_of_lt (h.filed_lt q x hx)
  have hline : ∀ x ∈ t.queue, x ≠ t.heap.next := fun x hx => hold _ x (h.line_filed x hx)
  have hcell : ∀ x, x ≠ t.heap.next →
      (t.heap.alloc (Dest.new pfx)).cell x = t.cell x := fun x hx => by
    rw [Heap.cell_alloc, if_neg hx]
    rfl
  have hcreated : (t.heap.alloc (Dest.new pfx)).cell t.heap.next = Dest.new pfx := by
    rw [Heap.cell_alloc, if_pos rfl]
  have hfiled : ∀ q x, (t.trie.set pfx t.heap.next).get? q = some x →
      (q = pfx ∧ x = t.heap.next) ∨ (t.trie.get? q = some x ∧ x ≠ t.heap.next) := by
    intro q x hx
    rw [Dict.get?_set] at hx
    by_cases hq : q = pfx
    · rw [if_pos hq] at hx
      exact Or.inl ⟨hq, (Option.some.inj hx).symm⟩
    · rw [if_neg hq] at hx
      exact Or.inr ⟨hx, hold q x hx⟩
  refine ⟨rfl, rfl, ?_, ?_, ?_⟩
  · constructor
    · intro q x hx
      show ((t.heap.alloc (Dest.new pfx)).cell x).pfx = q
      rcases hfiled q x hx with ⟨rfl, rfl⟩ | ⟨hx, hne⟩
      · rw [hcreated]
        rfl
      · rw [hcell x hne]
        exact h.filed_pfx q x hx
    · intro q x hx
      rcases hfiled q x hx with ⟨rfl, _⟩ | ⟨hx, _⟩
      · exact hafi
      · exact h.filed_afi q x hx
    · intro q x hx
      show x < t.heap.next + 1
      rcases hfiled q x hx with ⟨_, rfl⟩ | ⟨hx, _⟩
      · exact Nat.lt_succ_self _
      · exact Nat.lt_succ_of_lt (h.filed_lt q x hx)
    · intro x hx
      show (t.trie.set pfx t.heap.next).get? ((t.heap.alloc (Dest.new pfx)).cell x).pfx = some x
      have hin := h.line_filed x hx
      rw [hcell x (hline x hx), Dict.get?_set]
      have hne : (t.cell x).pfx ≠ pfx := fun heq => by
        rw [heq, hnew] at hin
        exact absurd hin (by simp)
      rw [if_neg hne]
      exact hin
    · intro q x hx
      show ((t.heap.alloc (Dest.new pfx)).cell x).queued = true ↔ x ∈ t.queue
      rcases hfiled q x hx with ⟨_, rfl⟩ | ⟨hx, hne⟩
      · rw [hcreated]
        exact ⟨fun hq => absurd hq (by simp [Dest.new]), fun hx => absurd rfl (hline _ hx)⟩
      · rw [hcell x hne]
        exact h.line_queued q x hx
    · exact h.line_nodup
    · intro q x hx hnot
      show ((t.heap.alloc (Dest.new pfx)).cell x).best =
        selectRoute ((t.heap.alloc (Dest.new pfx)).cell x).routes
      rcases hfiled q x hx with ⟨_, rfl⟩ | ⟨hx, hne⟩
      · rw [hcreated]
        rfl
      · rw [hcell x hne]
        exact h.settled q x hx hnot
    · intro q x hx
      show ∀ r ∈ ((t.heap.alloc (Dest.new pfx)).cell x).routes, r.pfx = q
      rcases hfiled q x hx with ⟨_, rfl⟩ | ⟨hx, hne⟩
      · rw [hcreated]
        simp [Dest.new]
      · rw [hcell x hne]
        exact h.route_pfx q x hx
    · intro q x hx
      show ∀ r, ((t.heap.alloc (Dest.new pfx)).cell x).best = some r → r.pfx = q
      rcases hfiled q x hx with ⟨_, rfl⟩ | ⟨hx, hne⟩
      · rw [hcreated]
        simp [Dest.new]
      · rw [hcell x hne]
        exact h.best_pfx q x hx
  · intro q
    by_cases hq : q = pfx
    · subst hq
      rw [routesAt_of_none hnew, routesAt_of_filed (d := t.heap.next) (by simp)]
      show ((t.heap.alloc (Dest.new q)).cell t.heap.next).routes = []
      rw [hcreated]
      rfl
    · simp only [routesAt, Dict.get?_set, if_neg hq]
      cases hx : t.trie.get? q with
      | none => rfl
      | some x =>
        show ((t.heap.alloc (Dest.new pfx)).cell x).routes = (t.cell x).routes
        rw [hcell x (hold q x hx)]
  · intro q
    by_cases hq : q = pfx
    · subst hq
      rw [bestAt_of_none hnew, bestAt_of_filed (d := t.heap.next) (by simp)]
      show ((t.heap.alloc (Dest.new q)).cell t.heap.next).best = none
      rw [hcreated]
      rfl
    · simp only [bestAt, Dict.get?_set, if_neg hq]
      cases hx : t.trie.get? q with
      | none => rfl
      | some x =>
        show ((t.heap.alloc (Dest.new pfx)).cell x).best = (t.cell x).best
        rw [hcell x (hold q x hx)]

/-- The destination of a prefix is found or created. -/
theorem dest_edited {t : RouteTable} {pfx : Prefix} (h : Wf t []) (hafi : pfx.afi = t.afi) :
    ∃ t' d, t.dest pfx = some (t', d) ∧ t'.trie.get? pfx = some d ∧
      Edited t t' fun _ routes => routes := by
  rw [dest, if_neg (not_not.mpr hafi)]
  cases hd : t.trie.get? pfx with
  | some d => exact ⟨t, d, rfl, hd, Edited.refl h⟩
  | none =>
    have hcreated := created_edited h hafi hd
    generalize ht : ({ t with
      heap := t.heap.alloc (Dest.new pfx)
      trie := t.trie.set pfx t.heap.next } : RouteTable) = created at hcreated
    have hfiled : created.trie.get? pfx = some t.heap.next := by
      rw [← ht]
      simp
    have hempty : (created.cell t.heap.next).routes = [] := by
      rw [← ht]
      show ((t.heap.alloc (Dest.new pfx)).cell t.heap.next).routes = []
      rw [Heap.cell_alloc, if_pos rfl]
      rfl
    have hqueued := edited_of_filed [] hcreated.wf hfiled (by simp)
      (enqueue_same created t.heap.next)
      (fun x => by rw [cell_enqueue, ← hempty]) (queue_enqueue created _)
    refine ⟨created.enqueue t.heap.next, t.heap.next, rfl, ?_, ?_⟩
    · rw [(enqueue_same created _).trie]
      exact hfiled
    · apply (hcreated.trans hqueued).congr
      intro q
      by_cases hq : q = pfx
      · rw [if_pos hq, hq, routesAt_of_none hd]
      · rw [if_neg hq]

/-- The routes of a prefix after an offer: the newcomer takes the place of the one of
its origin, unless that has the same content. -/
def putOffer (r : Route) (routes : List Route) : List Route :=
  match routes.find? fun old => old.isFrom r.protocol r.source with
  | some old => if sameContent old r then routes else replaceOffer r routes
  | none => routes ++ [r]

/-- The routes of a prefix after a withdrawal. -/
def dropOffer (protocol source : Nat) (routes : List Route) : List Route :=
  routes.eraseP fun r => r.isFrom protocol source

theorem replaceOffer_pfx {r : Route} {p : Prefix} {routes : List Route} (hr : r.pfx = p)
    (h : ∀ q ∈ routes, q.pfx = p) : ∀ q ∈ replaceOffer r routes, q.pfx = p := by
  induction routes with
  | nil => simp [replaceOffer]
  | cons old rest ih =>
    have hrest : ∀ q ∈ rest, q.pfx = p := fun q hq => h q (List.mem_cons_of_mem _ hq)
    intro q hq
    rw [replaceOffer] at hq
    split at hq
    · rcases List.mem_cons.mp hq with rfl | hq
      · exact hr
      · exact hrest q hq
    · rcases List.mem_cons.mp hq with rfl | hq
      · exact h q List.mem_cons_self
      · exact ih hrest q hq

theorem dropOffer_of_find?_none {protocol source : Nat} {routes : List Route}
    (h : routes.find? (fun r => r.isFrom protocol source) = none) :
    dropOffer protocol source routes = routes := by
  rw [dropOffer]
  apply List.eraseP_of_forall_not
  intro r hr
  exact List.find?_eq_none.mp h r hr

/-- Storing the routes of a filed destination, counting them, and queueing it. -/
theorem store_edited {t : RouteTable} {p : Prefix} {d : Nat} (count : Nat)
    (routes : List Route) (h : Wf t []) (hd : t.trie.get? p = some d) (hroutes : ∀ r ∈ routes, r.pfx = p) :
    Edited t (({ t.setDest d { t.cell d with routes := routes } with
        routeCount := count } : RouteTable).enqueue d)
      fun q old => if q = p then routes else old := by
  generalize ht : ({ t.setDest d { t.cell d with routes := routes } with
    routeCount := count } : RouteTable) = stored
  have hcell : ∀ x, stored.cell x =
      if x = d then { t.cell d with routes := routes } else t.cell x := fun x => by
    rw [← ht]
    rfl
  have hsame := enqueue_same stored d
  apply edited_of_filed routes h hd hroutes
  · refine ⟨hsame.afi.trans ?_, hsame.safi.trans ?_, hsame.trie.trans ?_,
      hsame.next.trans ?_⟩ <;> rw [← ht] <;> rfl
  · intro x
    rw [cell_enqueue, hcell, hcell, if_pos rfl]
    by_cases hx : x = d <;> simp [hx]
  · have hqueue : stored.queue = t.queue := by rw [← ht]; rfl
    rw [queue_enqueue, hcell, if_pos rfl, hqueue]

theorem offer_edited {t : RouteTable} {r : Route} (h : Wf t []) (hafi : r.pfx.afi = t.afi) :
    ∃ t', t.offer r = some t' ∧
      Edited t t' fun p routes => if p = r.pfx then putOffer r routes else routes := by
  rcases dest_edited h hafi with ⟨t₁, d, hdest, hd, hfound⟩
  have hroutes := routesAt_of_filed hd
  have hpfx : ∀ q ∈ (t₁.cell d).routes, q.pfx = r.pfx := hfound.wf.route_pfx r.pfx d hd
  have hheld : t.routesAt r.pfx = (t₁.cell d).routes := by rw [← hroutes, hfound.routes]
  simp only [offer, hdest]
  cases hold : (t₁.cell d).routes.find? fun old => old.isFrom r.protocol r.source with
  | some old =>
    by_cases hsame : sameContent old r
    · simp only [if_pos hsame]
      refine ⟨t₁, rfl, hfound.congr fun p => ?_⟩
      by_cases hp : p = r.pfx
      · rw [if_pos hp, hp, hheld, putOffer, hold]
        exact (if_pos hsame).symm
      · rw [if_neg hp]
    · simp only [if_neg hsame]
      have hstored := store_edited t₁.routeCount (replaceOffer r (t₁.cell d).routes)
        hfound.wf hd (replaceOffer_pfx rfl hpfx)
      refine ⟨_, rfl, (hfound.trans hstored).congr fun p => ?_⟩
      by_cases hp : p = r.pfx
      · rw [if_pos hp, if_pos hp, hp, hheld, putOffer, hold]
        exact (if_neg hsame).symm
      · rw [if_neg hp, if_neg hp]
  | none =>
    have hstored := store_edited (t₁.routeCount + 1) ((t₁.cell d).routes ++ [r])
      hfound.wf hd (by
        intro q hq
        rcases List.mem_append.mp hq with hq | hq
        · exact hpfx q hq
        · rw [List.mem_singleton.mp hq])
    refine ⟨_, rfl, (hfound.trans hstored).congr fun p => ?_⟩
    by_cases hp : p = r.pfx
    · rw [if_pos hp, if_pos hp, hp, hheld, putOffer, hold]
    · rw [if_neg hp, if_neg hp]

theorem retract_edited {t : RouteTable} (h : Wf t []) (pfx : Prefix) (protocol source : Nat) :
    Edited t (t.retract pfx protocol source) fun p routes =>
      if p = pfx then dropOffer protocol source routes else routes := by
  rw [retract]
  cases hd : t.trie.get? pfx with
  | none =>
    apply (Edited.refl h).congr
    intro p
    by_cases hp : p = pfx
    · rw [if_pos hp, hp, routesAt_of_none hd]
      rfl
    · rw [if_neg hp]
  | some d =>
    have hroutes := routesAt_of_filed hd
    simp only
    cases hold : (t.cell d).routes.find? fun r => r.isFrom protocol source with
    | none =>
      apply (Edited.refl h).congr
      intro p
      by_cases hp : p = pfx
      · rw [if_pos hp, hp, hroutes, dropOffer_of_find?_none hold]
      · rw [if_neg hp]
    | some old =>
      have hstored := store_edited (t.routeCount - 1)
        (dropOffer protocol source (t.cell d).routes) h hd
        (fun r hr => h.route_pfx pfx d hd r (List.mem_of_mem_eraseP hr))
      apply hstored.congr
      intro p
      by_cases hp : p = pfx
      · rw [if_pos hp, if_pos hp, hp, hroutes]
      · rw [if_neg hp, if_neg hp]

/-- Withdrawing one origin's offers for each of a list of prefixes. -/
theorem foldl_retract_edited {protocol source : Nat} {pfxs : List Prefix}
    (hnodup : pfxs.Nodup) {t : RouteTable} (h : Wf t []) :
    Edited t (pfxs.foldl (fun t pfx => t.retract pfx protocol source) t) fun p routes =>
      if p ∈ pfxs then dropOffer protocol source routes else routes := by
  induction pfxs generalizing t with
  | nil => exact (Edited.refl h).congr fun p => by simp
  | cons pfx pfxs ih =>
    have hfirst := retract_edited h pfx protocol source
    apply (hfirst.trans (ih (List.nodup_cons.mp hnodup).2 hfirst.wf)).congr
    intro p
    by_cases hp : p = pfx
    · subst hp
      simp [(List.nodup_cons.mp hnodup).1]
    · simp [hp]

/-- Selecting `d`, the first in line: it has its winner, and is dropped from the trie
if it has no routes. -/
theorem selected_wf {t t' : RouteTable} {d : Nat} {rest : List Nat} (h : Wf t (d :: rest))
    (hafi : t'.afi = t.afi) (hnext : t'.heap.next = t.heap.next)
    (hcell : ∀ x, t'.cell x = if x = d then { t.cell d with
      best := selectRoute (t.cell d).routes, queued := false } else t.cell x)
    (hqueue : t'.queue = t.queue)
    (htrie : ∀ q, t'.trie.get? q =
      if q = (t.cell d).pfx ∧ (t.cell d).routes = [] then none else t.trie.get? q) :
    Wf t' rest := by
  have hfiled : ∀ q x, t'.trie.get? q = some x → t.trie.get? q = some x := by
    intro q x hx
    rw [htrie] at hx
    split at hx
    · exact absurd hx (by simp)
    · exact hx
  have hpfx : ∀ x, (t'.cell x).pfx = (t.cell x).pfx ∧ (t'.cell x).routes = (t.cell x).routes := by
    intro x
    rw [hcell]
    by_cases hx : x = d
    · rw [if_pos hx, hx]
      exact ⟨rfl, rfl⟩
    · rw [if_neg hx]
      exact ⟨rfl, rfl⟩
  have hother : ∀ x, x ≠ d → t'.cell x = t.cell x := fun x hx => by
    rw [hcell, if_neg hx]
  have hcelld : t'.cell d = { t.cell d with
      best := selectRoute (t.cell d).routes, queued := false } := by
    rw [hcell, if_pos rfl]
  have hline : d ∉ rest ++ t.queue := (List.nodup_cons.mp h.line_nodup).1
  have hd : t.trie.get? (t.cell d).pfx = some d := h.line_filed d List.mem_cons_self
  constructor
  · intro q x hx
    rw [(hpfx x).1]
    exact h.filed_pfx q x (hfiled q x hx)
  · intro q x hx
    rw [hafi]
    exact h.filed_afi q x (hfiled q x hx)
  · intro q x hx
    rw [hnext]
    exact h.filed_lt q x (hfiled q x hx)
  · intro x hx
    rw [hqueue] at hx
    have hxd : x ≠ d := fun heq => hline (heq ▸ hx)
    have hin := h.line_filed x (List.mem_cons_of_mem _ hx)
    have hne : (t.cell x).pfx ≠ (t.cell d).pfx := fun heq => by
      rw [heq, hd] at hin
      exact hxd (Option.some.inj hin).symm
    rw [(hpfx x).1, htrie, if_neg fun hboth => hne hboth.1]
    exact hin
  · intro q x hx
    rw [hqueue]
    by_cases hxd : x = d
    · rw [hxd, hcelld]
      exact ⟨fun hq => absurd hq (by simp), fun hin => absurd hin hline⟩
    · have hiff := h.line_queued q x (hfiled q x hx)
      rw [List.cons_append, List.mem_cons] at hiff
      rw [hother x hxd, hiff]
      exact ⟨fun hin => hin.resolve_left hxd, Or.inr⟩
  · rw [hqueue]
    exact (List.nodup_cons.mp h.line_nodup).2
  · intro q x hx hnot
    rw [hqueue] at hnot
    by_cases hxd : x = d
    · rw [hxd, hcelld]
    · rw [hother x hxd]
      apply h.settled q x (hfiled q x hx)
      rw [List.cons_append, List.mem_cons, not_or]
      exact ⟨hxd, hnot⟩
  · intro q x hx
    rw [(hpfx x).2]
    exact h.route_pfx q x (hfiled q x hx)
  · intro q x hx
    have hroutes := h.route_pfx q x (hfiled q x hx)
    by_cases hxd : x = d
    · rw [hxd, hcelld]
      intro r hr
      rcases selectRoute_eq_some_iff.mp hr with ⟨earlier, later, heq, _, _⟩
      apply hroutes r
      rw [hxd, heq]
      simp
    · rw [hother x hxd]
      exact h.best_pfx q x (hfiled q x hx)

/-- A pass of selection over `t₀`, with `todo` still to select: the routes are those of
`t₀`, and so are the winners of the prefixes not reported as changed. -/
structure Selecting (t₀ : RouteTable) (acc : RouteTable × List Nat) (todo : List Nat) :
    Prop where
  wf : Wf acc.1 todo
  afi : acc.1.afi = t₀.afi
  safi : acc.1.safi = t₀.safi
  routes : ∀ p, acc.1.routesAt p = t₀.routesAt p
  changed_filed : ∀ d ∈ acc.2, acc.1.trie.get? (acc.1.cell d).pfx = some d ∨
    (acc.1.trie.get? (acc.1.cell d).pfx = none ∧ (acc.1.cell d).best = none)
  changed_afi : ∀ d ∈ acc.2, (acc.1.cell d).pfx.afi = acc.1.afi
  changed_idle : ∀ d ∈ acc.2, d ∉ todo ++ acc.1.queue
  unchanged : ∀ p, (∀ d ∈ acc.2, (acc.1.cell d).pfx ≠ p) → acc.1.bestAt p = t₀.bestAt p

theorem Selecting.changed_best {t₀ : RouteTable} {acc : RouteTable × List Nat}
    {todo : List Nat} (h : Selecting t₀ acc todo) {d : Nat} (hd : d ∈ acc.2) :
    (acc.1.cell d).best = acc.1.bestAt (acc.1.cell d).pfx := by
  rcases h.changed_filed d hd with hfiled | ⟨hnone, hbest⟩
  · rw [bestAt_of_filed hfiled]
  · rw [bestAt_of_none hnone, hbest]

theorem reselectDest_selecting {t₀ : RouteTable} {acc : RouteTable × List Nat} {d : Nat}
    {rest : List Nat} (h : Selecting t₀ acc (d :: rest)) :
    Selecting t₀ (reselectDest acc d) rest := by
  obtain ⟨t, changed⟩ := acc
  have hd : t.trie.get? (t.cell d).pfx = some d := h.wf.line_filed d List.mem_cons_self
  generalize hres : reselectDest (t, changed) d = res
  obtain ⟨t', changed'⟩ := res
  have hdropped : selectRoute (t.cell d).routes = none ∧ (t.cell d).routes = [] ↔
      (t.cell d).routes = [] :=
    ⟨And.right, fun hnil => ⟨selectRoute_eq_none_iff.mpr hnil, hnil⟩⟩
  simp only [reselectDest, hdropped, Prod.mk.injEq] at hres
  obtain ⟨ht', hchanged'⟩ := hres
  have hcell : ∀ x, t'.cell x = if x = d then { t.cell d with
      best := selectRoute (t.cell d).routes, queued := false } else t.cell x := by
    intro x
    rw [← ht']
    split <;> rfl
  have htrie : ∀ q, t'.trie.get? q =
      if q = (t.cell d).pfx ∧ (t.cell d).routes = [] then none else t.trie.get? q := by
    intro q
    rw [← ht']
    split
    · rename_i hnil
      simp only [hnil, and_true]
      exact Dict.get?_erase _ _ _
    · rename_i hnil
      simp [hnil]
  have hqueue : t'.queue = t.queue := by rw [← ht']; split <;> rfl
  have hafi : t'.afi = t.afi := by rw [← ht']; split <;> rfl
  have hsafi : t'.safi = t.safi := by rw [← ht']; split <;> rfl
  have hnext : t'.heap.next = t.heap.next := by rw [← ht']; split <;> rfl
  have hother : ∀ x, x ≠ d → t'.cell x = t.cell x := fun x hx => by
    rw [hcell, if_neg hx]
  have hcelld : t'.cell d = { t.cell d with
      best := selectRoute (t.cell d).routes, queued := false } := by
    rw [hcell, if_pos rfl]
  have hline : d ∉ rest ++ t.queue := (List.nodup_cons.mp h.wf.line_nodup).1
  -- A destination already reported is another one, of another prefix.
  have hreported : ∀ x ∈ changed, x ≠ d ∧ (t.cell x).pfx ≠ (t.cell d).pfx := by
    intro x hx
    have hxd : x ≠ d := fun heq => h.changed_idle x hx (by simp [heq])
    refine ⟨hxd, fun heq => ?_⟩
    rcases h.changed_filed x hx with hfiled | ⟨hnone, _⟩
    · rw [heq] at hfiled
      exact hxd (Option.some.inj (hfiled.symm.trans hd))
    · rw [heq] at hnone
      exact absurd (hnone.symm.trans hd) (by simp)
  have hmem : ∀ x ∈ changed', x ∈ changed ∨ x = d := by
    intro x hx
    rw [← hchanged'] at hx
    split at hx
    · simpa using hx
    · exact Or.inl hx
  have hwhere : ∀ q, q ≠ (t.cell d).pfx → t'.trie.get? q = t.trie.get? q := fun q hq => by
    rw [htrie, if_neg fun hboth => hq hboth.1]
  have hkeep : ∀ q x, q ≠ (t.cell d).pfx → t.trie.get? q = some x → x ≠ d :=
    fun q x hq hx heq => hq ((h.wf.filed_pfx q x hx).symm.trans (by rw [heq]))
  have hbest : ∀ q, t'.bestAt q =
      if q = (t.cell d).pfx then selectRoute (t.cell d).routes else t.bestAt q := by
    intro q
    by_cases hq : q = (t.cell d).pfx
    · rw [if_pos hq]
      by_cases hnil : (t.cell d).routes = []
      · rw [bestAt_of_none (by rw [htrie, if_pos ⟨hq, hnil⟩]), selectRoute_eq_none_iff.mpr hnil]
      · rw [bestAt_of_filed (d := d) (by rw [htrie, if_neg fun hb => hnil hb.2, hq, hd]), hcelld]
    · rw [if_neg hq, bestAt, bestAt, hwhere q hq]
      cases hx : t.trie.get? q with
      | none => rfl
      | some x => simp only [hother x (hkeep q x hq hx)]
  refine ⟨selected_wf h.wf hafi hnext hcell hqueue htrie, hafi.trans h.afi,
    hsafi.trans h.safi, ?_, ?_, ?_, ?_, ?_⟩
  · intro q
    rw [← h.routes q]
    by_cases hq : q = (t.cell d).pfx
    · rw [hq, routesAt_of_filed hd]
      by_cases hnil : (t.cell d).routes = []
      · rw [routesAt_of_none (by rw [htrie, if_pos ⟨rfl, hnil⟩]), hnil]
      · rw [routesAt_of_filed (d := d) (by rw [htrie, if_neg fun hb => hnil hb.2, hd]), hcelld]
    · rw [routesAt, routesAt, hwhere q hq]
      cases hx : t.trie.get? q with
      | none => rfl
      | some x => simp only [hother x (hkeep q x hq hx)]
  · intro x hx
    rcases hmem x hx with hx | rfl
    · obtain ⟨hxd, hne⟩ := hreported x hx
      simp only [hother x hxd, hwhere _ hne]
      exact h.changed_filed x hx
    · have hpfx : (t'.cell x).pfx = (t.cell x).pfx := by rw [hcelld]
      simp only [hpfx, htrie]
      by_cases hnil : (t.cell x).routes = []
      · right
        rw [if_pos ⟨trivial, hnil⟩, hcelld]
        exact ⟨rfl, selectRoute_eq_none_iff.mpr hnil⟩
      · left
        rw [if_neg fun hb => hnil hb.2]
        exact hd
  · intro x hx
    rcases hmem x hx with hx | rfl
    · simp only [hother x (hreported x hx).1, hafi]
      exact h.changed_afi x hx
    · simp only [hcelld, hafi]
      exact h.wf.filed_afi _ x hd
  · intro x hx hin
    rw [hqueue] at hin
    rcases hmem x hx with hx | rfl
    · exact h.changed_idle x hx (List.mem_cons_of_mem _ hin)
    · exact hline hin
  · intro q hq
    have hold : ∀ x ∈ changed, (t.cell x).pfx ≠ q := fun x hx => by
      rw [← hother x (hreported x hx).1]
      apply hq x
      simp only [← hchanged']
      split
      · exact List.mem_append_left _ hx
      · exact hx
    have hsame := h.unchanged q hold
    rw [hbest]
    by_cases heq : q = (t.cell d).pfx
    · have hkept : selectRoute (t.cell d).routes = (t.cell d).best := by
        by_contra hne
        have hin : d ∈ changed' := by
          rw [← hchanged', if_pos hne]
          simp
        apply hq d hin
        simp only [hcelld]
        exact heq.symm
      rw [if_pos heq, hkept, ← hsame, heq, bestAt_of_filed hd]
    · rw [if_neg heq]
      exact hsame

theorem foldl_reselectDest_selecting {t₀ : RouteTable} {acc : RouteTable × List Nat}
    {todo : List Nat} (h : Selecting t₀ acc todo) :
    Selecting t₀ (todo.foldl reselectDest acc) [] := by
  induction todo generalizing acc with
  | nil => exact h
  | cons d rest ih => exact ih (reselectDest_selecting h)

/-- A pass begins by taking destinations off the queue. -/
theorem selecting_take {t : RouteTable} (h : Wf t []) (count : Nat) :
    Selecting t ({ t with queue := t.queue.drop count }, []) (t.queue.take count) := by
  have hline : t.queue.take count ++ t.queue.drop count = t.queue :=
    List.take_append_drop count t.queue
  refine ⟨?_, rfl, rfl, fun _ => rfl, by simp, by simp, by simp, fun _ _ => rfl⟩
  constructor
  · exact h.filed_pfx
  · exact h.filed_afi
  · exact h.filed_lt
  · simp only [hline]
    exact h.line_filed
  · simp only [hline]
    exact h.line_queued
  · simp only [hline]
    exact h.line_nodup
  · simp only [hline]
    exact h.settled
  · exact h.route_pfx
  · exact h.best_pfx

theorem reselect_selecting {t : RouteTable} (h : Wf t []) (limit : Int) :
    Selecting t (t.reselect limit) [] :=
  foldl_reselectDest_selecting (selecting_take h _)

theorem queue_reselectDest (acc : RouteTable × List Nat) (d : Nat) :
    (reselectDest acc d).1.queue = acc.1.queue := by
  simp only [reselectDest]
  split <;> rfl

/-- A pass takes as many destinations off the queue as its limit allows. -/
theorem pending_reselect (t : RouteTable) (limit : Int) :
    (t.reselect limit).1.pending = t.pending -
      (if limit ≤ 0 then t.pending else min limit.toNat t.pending) := by
  have hfold : ∀ (ds : List Nat) (acc : RouteTable × List Nat),
      (ds.foldl reselectDest acc).1.queue = acc.1.queue := by
    intro ds
    induction ds with
    | nil => exact fun _ => rfl
    | cons d ds ih =>
      intro acc
      rw [List.foldl_cons, ih, queue_reselectDest]
  rw [pending, reselect, hfold]
  exact List.length_drop

end RouteTable

end Rib

end Packets
