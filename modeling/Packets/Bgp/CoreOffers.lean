/-
What BGP offers to the core.

`coreRoutes` replays the calls made to the core's table.  Of several destinations of one
prefix in line, only the first can have a winner that was offered; it speaks for its prefix.
-/
import Packets.Bgp.DeterministicMed
import Packets.Bgp.LocRibIndexes

namespace Packets

/-- The routes of one origin in the core after these calls. -/
def coreRoutes (calls : List RibCall) : Prefix → Option Route :=
  calls.foldl
    (fun held call =>
      match call with
      | .offer r => fun q => if q = r.pfx then some r else held q
      | .retract p => fun q => if q = p then none else held q)
    fun _ => none

theorem coreRoutes_offer (calls : List RibCall) (r : Route) (q : Prefix) :
    coreRoutes (calls ++ [.offer r]) q = if q = r.pfx then some r else coreRoutes calls q := by
  rw [coreRoutes, List.foldl_append]
  rfl

theorem coreRoutes_retract (calls : List RibCall) (p q : Prefix) :
    coreRoutes (calls ++ [.retract p]) q = if q = p then none else coreRoutes calls q := by
  rw [coreRoutes, List.foldl_append]
  rfl

theorem scanBest_mem (cfg : BestpathConfig) (best : BgpPath) (rest : List BgpPath) :
    scanBest cfg best rest ∈ best :: rest := by
  induction rest generalizing best with
  | nil => simp [scanBest]
  | cons p rest ih =>
    rw [scanBest, List.foldl_cons]
    by_cases hbeats : (pathCmp best p cfg).1 > 0
    · rw [if_pos hbeats]
      exact List.mem_cons_of_mem _ (ih p)
    · rw [if_neg hbeats]
      rcases List.mem_cons.mp (ih best) with hbest | hrest
      · rw [scanBest] at hbest
        rw [hbest]
        exact List.mem_cons_self
      · exact List.mem_cons_of_mem _ (List.mem_cons_of_mem _ hrest)

theorem mem_of_mem_medGroupWinners {eligible : List BgpPath} {cfg : BestpathConfig}
    {w : BgpPath} (h : w ∈ medGroupWinners eligible cfg) : w ∈ eligible := by
  rw [medGroupWinners_eq, Preference.mem_groupWinners] at h
  exact (Preference.groupChampion_eq_some h).1

/-- The winner is one of the paths, and resolved. -/
theorem select_best_mem {paths : List BgpPath} {cfg : BestpathConfig} {w : BgpPath}
    (h : (select paths cfg).best = some w) : w ∈ paths ∧ w.resolved = true := by
  have hfound : w ∈ paths.filter BgpPath.resolved := by
    rw [select] at h
    split at h
    · exact absurd h (by simp)
    · rename_i p heligible
      rw [heligible, ← Option.some.inj h]
      exact List.mem_singleton_self p
    · rename_i eligible _ _
      dsimp only at h
      have hsub : ∀ v ∈ (if cfg.deterministicMed = true then
          medGroupWinners (paths.filter BgpPath.resolved) cfg
          else paths.filter BgpPath.resolved), v ∈ paths.filter BgpPath.resolved := by
        intro v hv
        split at hv
        · exact mem_of_mem_medGroupWinners hv
        · exact hv
      split at h
      · exact absurd h (by simp)
      · rename_i first rest hwinners
        rw [← Option.some.inj h]
        apply hsub
        rw [hwinners]
        exact scanBest_mem cfg first rest
  exact List.mem_filter.mp hfound

theorem select_nil (cfg : BestpathConfig) : (select [] cfg).best = none := rfl

/-- What the core is told of a path: nothing that next-hop tracking changes. -/
def BgpPath.bare (p : BgpPath) : BgpPath := { p with resolved := false, igpMetric := 0 }

/-- Whether a winner is offered: a path learned from a peer, with a next hop a route
can carry. -/
def BgpPath.Offerable (p : BgpPath) : Prop :=
  p.source = .peer ∧
    (p.attrs.nexthop.length = 0 ∨ p.attrs.nexthop.length = 4 ∨ p.attrs.nexthop.length = 16)

instance (p : BgpPath) : Decidable p.Offerable := inferInstanceAs (Decidable (_ ∧ _))

namespace LocRib

/-- A winner as a route of the core. -/
def routeOf (s : LocRib) (pfx : Prefix) (path : BgpPath) : Route where
  pfx := pfx
  adminDistance := if path.peer.isEbgp then s.adminDistanceEbgp else s.adminDistanceIbgp
  metric := match path.attrs.med with
    | some med => med.toNat
    | none => 0
  nexthop := path.attrs.nexthop
  recvTime := if path.recvTime > 0 then some path.recvTime else none

/-- The route a winner stands for in the core. -/
def winnerRoute (s : LocRib) (pfx : Prefix) (best : Option BgpPath) : Option Route :=
  best.bind fun b => if b.Offerable then some (s.routeOf pfx b) else none

theorem winnerRoute_congr (s : LocRib) (pfx : Prefix) {best best' : Option BgpPath}
    (h : best'.map BgpPath.bare = best.map BgpPath.bare) :
    s.winnerRoute pfx best' = s.winnerRoute pfx best := by
  have hbare : ∀ best : Option BgpPath,
      s.winnerRoute pfx best = s.winnerRoute pfx (best.map BgpPath.bare) := by
    intro best
    cases best <;> rfl
  rw [hbare best', hbare best, h]

theorem offer_eq (s : LocRib) (pfx : Prefix) (path : BgpPath) :
    s.offer pfx path =
      if path.Offerable then
        { s with
          offered := if pfx ∈ s.offered then s.offered else s.offered ++ [pfx]
          published := s.published ++ [.offer (s.routeOf pfx path)] }
      else s.retract pfx := by
  rw [offer]
  by_cases hsource : path.source = .peer
  · rw [if_neg (not_not.mpr hsource)]
    by_cases hwidth : path.attrs.nexthop.length = 0 ∨ path.attrs.nexthop.length = 4 ∨
        path.attrs.nexthop.length = 16
    · have hoff : path.Offerable := ⟨hsource, hwidth⟩
      have hfits : ¬ (path.attrs.nexthop.length ≠ 0 ∧ path.attrs.nexthop.length ≠ 4 ∧
          path.attrs.nexthop.length ≠ 16) := by omega
      cases hmed : path.attrs.med <;> simp only [if_neg hfits, if_pos hoff, routeOf, hmed]
    · have hoff : ¬ path.Offerable := fun hoff => hwidth hoff.2
      rw [if_pos (by omega), if_neg hoff]
  · have hoff : ¬ path.Offerable := fun hoff => hsource hoff.1
    rw [if_pos hsource, if_neg hoff]

/-- The prefixes the table believes are offered are those that are. -/
def Accounted (s : LocRib) : Prop := ∀ q, q ∈ s.offered ↔ (coreRoutes s.published q).isSome = true

theorem retract_core {s : LocRib} (h : s.Accounted) (pfx : Prefix) :
    (s.retract pfx).Accounted ∧ ∀ q, coreRoutes (s.retract pfx).published q =
      if q = pfx then none else coreRoutes s.published q := by
  rw [retract]
  by_cases hin : pfx ∈ s.offered
  · rw [if_neg (not_not.mpr hin)]
    have hcore := coreRoutes_retract s.published pfx
    refine ⟨fun q => ?_, hcore⟩
    show q ∈ s.offered.filter (· ≠ pfx) ↔ _
    rw [hcore, List.mem_filter, h q]
    by_cases hq : q = pfx <;> simp [hq]
  · rw [if_pos hin]
    refine ⟨h, fun q => ?_⟩
    by_cases hq : q = pfx
    · rw [if_pos hq, hq]
      have hnone := (h pfx).not.mp hin
      simpa using hnone
    · rw [if_neg hq]

theorem offer_core {s : LocRib} (h : s.Accounted) (pfx : Prefix) (path : BgpPath) :
    (s.offer pfx path).Accounted ∧ ∀ q, coreRoutes (s.offer pfx path).published q =
      if q = pfx then s.winnerRoute pfx (some path) else coreRoutes s.published q := by
  rw [offer_eq]
  by_cases hoff : path.Offerable
  · rw [if_pos hoff]
    have hroute : s.winnerRoute pfx (some path) = some (s.routeOf pfx path) := if_pos hoff
    have hcore : ∀ q, coreRoutes (s.published ++ [.offer (s.routeOf pfx path)]) q =
        if q = pfx then s.winnerRoute pfx (some path) else coreRoutes s.published q := by
      intro q
      rw [hroute]
      exact coreRoutes_offer s.published (s.routeOf pfx path) q
    refine ⟨fun q => ?_, hcore⟩
    show q ∈ (if pfx ∈ s.offered then s.offered else s.offered ++ [pfx]) ↔ _
    rw [hcore, hroute]
    by_cases hq : q = pfx
    · rw [if_pos hq, hq]
      by_cases hin : pfx ∈ s.offered <;> simp [hin]
    · rw [if_neg hq, ← h q]
      by_cases hin : pfx ∈ s.offered <;> simp [hin, hq]
  · rw [if_neg hoff]
    have hroute : s.winnerRoute pfx (some path) = none := if_neg hoff
    rw [hroute]
    exact retract_core h pfx

/-- Publishing a winner: the core has its route, whether or not it was there. -/
theorem publish_core {s : LocRib} (h : s.Accounted) {previous : Option BgpPath}
    {dest : BgpDest} (hresolved : ∀ w, dest.best = some w → w.resolved = true)
    (hheld : coreRoutes s.published dest.pfx = s.winnerRoute dest.pfx previous)
    (hsame : dest.best.map BgpPath.oid = previous.map BgpPath.oid →
      dest.best.map BgpPath.bare = previous.map BgpPath.bare) :
    (s.publish previous dest).Accounted ∧
      ∀ q, coreRoutes (s.publish previous dest).published q =
        if q = dest.pfx then s.winnerRoute dest.pfx dest.best
        else coreRoutes s.published q := by
  rw [publish]
  by_cases hkept : dest.best.map BgpPath.oid = previous.map BgpPath.oid
  · rw [if_pos hkept]
    refine ⟨h, fun q => ?_⟩
    by_cases hq : q = dest.pfx
    · rw [if_pos hq, hq, hheld, s.winnerRoute_congr dest.pfx (hsame hkept)]
    · rw [if_neg hq]
  · rw [if_neg hkept]
    cases hbest : dest.best with
    | none => exact retract_core h dest.pfx
    | some w =>
      simp only [hresolved w hbest]
      exact offer_core h dest.pfx w

/-- The path objects a destination knows. -/
def objects (dest : BgpDest) : List BgpPath := dest.best.toList ++ dest.paths

/-- The path objects of a destination are told apart by their addresses, which are
below the next one to be used. -/
def Named (next : Nat) (dest : BgpDest) : Prop :=
  ∀ p ∈ objects dest, p.oid < next ∧ ∀ q ∈ objects dest, p.oid = q.oid → p.bare = q.bare

/-- The destination that speaks for a prefix: the first in line, else the one in the
table. -/
def speaker (s : LocRib) (line : List DestId) (p : Prefix) : Option DestId :=
  (line.find? fun d => (s.cell d).pfx = p).or (s.dests.get? p)

/-- The destinations, the line and the core, with `todo` taken off the queue and not
yet selected. -/
structure Offering (todo : List DestId) (s : LocRib) : Prop where
  live_lt : ∀ p d, s.dests.get? p = some d → d < s.heap.next
  live_pfx : ∀ p d, s.dests.get? p = some d → (s.cell d).pfx = p
  live_paths : ∀ p d, s.dests.get? p = some d → (s.cell d).paths ≠ []
  live_queued : ∀ p d, s.dests.get? p = some d → (s.cell d).queued = true → d ∈ todo ++ s.queue
  line_queued : ∀ d ∈ todo ++ s.queue, (s.cell d).queued = true
  line_lt : ∀ d ∈ todo ++ s.queue, d < s.heap.next
  line_nodup : (todo ++ s.queue).Nodup
  /-- One that has left the table has no paths. -/
  left : ∀ d ∈ todo ++ s.queue, s.dests.get? (s.cell d).pfx ≠ some d → (s.cell d).paths = []
  /-- With one in line, the one in the table is in line too. -/
  line_live : ∀ d ∈ todo ++ s.queue, ∀ x, s.dests.get? (s.cell d).pfx = some x → x ∈ todo ++ s.queue
  /-- Of two for one prefix the first has left the table, the second has no winner. -/
  order : (todo ++ s.queue).Pairwise fun d x => (s.cell d).pfx = (s.cell x).pfx →
    s.dests.get? (s.cell d).pfx ≠ some d ∧ (s.cell x).best = none
  named : ∀ d, (d ∈ todo ++ s.queue ∨ ∃ p, s.dests.get? p = some d) → Named s.nextPath (s.cell d)
  accounted : s.Accounted
  spoken : ∀ p, coreRoutes s.published p =
    s.winnerRoute p ((s.speaker (todo ++ s.queue) p).bind fun d => (s.cell d).best)

/-- Every destination that is not in line has been selected. -/
def Selected (todo : List DestId) (s : LocRib) : Prop :=
  ∀ p d, s.dests.get? p = some d → d ∉ todo ++ s.queue →
    (s.cell d).best = (select (s.cell d).paths s.config).best

/-- States that agree on what the core is told with. -/
structure SameCore (s s' : LocRib) : Prop where
  published : s'.published = s.published
  offered : s'.offered = s.offered
  config : s'.config = s.config
  ebgp : s'.adminDistanceEbgp = s.adminDistanceEbgp
  ibgp : s'.adminDistanceIbgp = s.adminDistanceIbgp

theorem SameCore.refl (s : LocRib) : SameCore s s := ⟨rfl, rfl, rfl, rfl, rfl⟩

theorem SameCore.trans {s s' s'' : LocRib} (h : SameCore s s') (h' : SameCore s' s'') :
    SameCore s s'' :=
  ⟨h'.published.trans h.published, h'.offered.trans h.offered, h'.config.trans h.config,
    h'.ebgp.trans h.ebgp, h'.ibgp.trans h.ibgp⟩

theorem SameCore.winnerRoute {s s' : LocRib} (h : SameCore s s') (p : Prefix)
    (best : Option BgpPath) : s'.winnerRoute p best = s.winnerRoute p best := by
  simp only [LocRib.winnerRoute, routeOf, h.ebgp, h.ibgp]

theorem SameCore.accounted {s s' : LocRib} (h : SameCore s s') (ha : s.Accounted) :
    s'.Accounted := by
  rw [Accounted, h.published, h.offered]
  exact ha

theorem speaker_congr {s s' : LocRib} (ht : SameTable s s') (line : List DestId)
    (p : Prefix) : s'.speaker line p = s.speaker line p := by
  simp only [speaker, ht.dests, ht.cell]

/-- Bookkeeping beside the table, the line and the core. -/
theorem Offering.of_same {todo : List DestId} {s s' : LocRib} (h : Offering todo s)
    (ht : SameTable s s') (hc : SameCore s s') (hn : s.nextPath = s'.nextPath) :
    Offering todo s' := by
  constructor
  · rw [ht.dests, ht.heap]
    exact h.live_lt
  · simp only [ht.dests, ht.cell]
    exact h.live_pfx
  · simp only [ht.dests, ht.cell]
    exact h.live_paths
  · simp only [ht.dests, ht.cell, ht.queue]
    exact h.live_queued
  · simp only [ht.cell, ht.queue]
    exact h.line_queued
  · rw [ht.queue, ht.heap]
    exact h.line_lt
  · rw [ht.queue]
    exact h.line_nodup
  · simp only [ht.dests, ht.cell, ht.queue]
    exact h.left
  · simp only [ht.dests, ht.cell, ht.queue]
    exact h.line_live
  · simp only [ht.dests, ht.cell, ht.queue]
    exact h.order
  · simp only [ht.dests, ht.cell, ht.queue, ← hn]
    exact h.named
  · exact hc.accounted h.accounted
  · intro p
    simp only [hc.published, hc.winnerRoute, speaker_congr ht, ht.cell, ht.queue]
    exact h.spoken p

theorem Selected.of_same {todo : List DestId} {s s' : LocRib} (h : Selected todo s)
    (ht : SameTable s s') (hc : SameCore s s') : Selected todo s' := by
  simp only [Selected, ht.dests, ht.cell, ht.queue, hc.config]
  exact h

theorem find?_congr_of_mem {f g : DestId → Bool} {ds : List DestId}
    (h : ∀ d ∈ ds, f d = g d) : ds.find? f = ds.find? g := by
  induction ds with
  | nil => rfl
  | cons d ds ih =>
    have hds := ih fun x hx => h x (List.mem_cons_of_mem _ hx)
    simp only [List.find?_cons, h d List.mem_cons_self, hds]

/-- One destination, in the table or new, is changed and put in line; it leaves the
table if it has no path. -/
structure Touched (s s' : LocRib) (p : Prefix) (d : DestId) (before after : BgpDest) :
    Prop where
  known : (s.dests.get? p = some d ∧ before = s.cell d) ∨
    (s.dests.get? p = none ∧ d = s.heap.next ∧ before = BgpDest.new p)
  cell : ∀ x, s'.cell x = if x = d then after else s.cell x
  queue : s'.queue = if before.queued = true then s.queue else s.queue ++ [d]
  dests : ∀ q, s'.dests.get? q =
    if q = p then (if after.paths = [] then none else some d) else s.dests.get? q
  next : s.heap.next ≤ s'.heap.next
  allocated : d < s'.heap.next
  nextPath : s.nextPath ≤ s'.nextPath
  pfx : after.pfx = p
  queued : after.queued = true
  best : after.best.map BgpPath.bare = before.best.map BgpPath.bare
  named : Named s'.nextPath after
  same : SameCore s s'

theorem Named.mono {next next' : Nat} {dest : BgpDest} (h : Named next dest)
    (hle : next ≤ next') : Named next' dest := fun p hp =>
  ⟨lt_of_lt_of_le (h p hp).1 hle, (h p hp).2⟩

namespace Touched

variable {s s' : LocRib} {p : Prefix} {d : DestId} {before after : BgpDest}

theorem cell_self (h : Touched s s' p d before after) : s'.cell d = after := by
  rw [h.cell, if_pos rfl]

theorem cell_ne (h : Touched s s' p d before after) {x : DestId} (hx : x ≠ d) :
    s'.cell x = s.cell x := by
  rw [h.cell, if_neg hx]

theorem cell_pfx (h : Touched s s' p d before after) (ho : Offering [] s) {x : DestId}
    (hx : x ∈ s.queue) : (s'.cell x).pfx = (s.cell x).pfx := by
  by_cases hxd : x = d
  · subst hxd
    rw [h.cell_self, h.pfx]
    rcases h.known with ⟨hlive, _⟩ | ⟨_, hnew, _⟩
    · exact (ho.live_pfx p x hlive).symm
    · exact absurd (ho.line_lt x hx) (by rw [hnew]; exact Nat.lt_irrefl _)
  · rw [h.cell_ne hxd]

/-- In line before or not, it is in line now. -/
theorem mem_queue (h : Touched s s' p d before after) (ho : Offering [] s) {x : DestId} :
    x ∈ s'.queue ↔ x ∈ s.queue ∨ x = d := by
  rw [h.queue]
  by_cases hqueued : before.queued = true
  · rw [if_pos hqueued]
    refine ⟨Or.inl, ?_⟩
    rintro (hx | rfl)
    · exact hx
    · rcases h.known with ⟨hlive, hbefore⟩ | ⟨_, _, hbefore⟩
      · rw [hbefore] at hqueued
        exact ho.live_queued p x hlive hqueued
      · rw [hbefore] at hqueued
        exact absurd hqueued (by simp [BgpDest.new])
  · rw [if_neg hqueued]
    simp

theorem not_mem (h : Touched s s' p d before after) (ho : Offering [] s)
    (hqueued : ¬ before.queued = true) : d ∉ s.queue := by
  intro hd
  rcases h.known with ⟨_, hbefore⟩ | ⟨_, hnew, _⟩
  · rw [hbefore] at hqueued
    exact hqueued (ho.line_queued d hd)
  · exact absurd (ho.line_lt d hd) (by rw [hnew]; exact Nat.lt_irrefl _)

theorem line_pfx_ne (h : Touched s s' p d before after) (ho : Offering [] s)
    (hqueued : ¬ before.queued = true)
    (hlive : s.dests.get? p = some d) : ∀ x ∈ s.queue, (s.cell x).pfx ≠ p := by
  intro x hx hpfx
  exact h.not_mem ho hqueued (ho.line_live x hx d (by rw [hpfx]; exact hlive))

/-- Another destination in line is not in the table for this prefix. -/
theorem dests_ne (h : Touched s s' p d before after) {x : DestId} (hxd : x ≠ d) :
    s'.dests.get? p ≠ some x ∧ s.dests.get? p ≠ some x := by
  constructor
  · rw [h.dests, if_pos rfl]
    split
    · simp
    · exact fun heq => hxd (Option.some.inj heq).symm
  · rcases h.known with ⟨hlive, _⟩ | ⟨hnone, _, _⟩
    · rw [hlive]
      exact fun heq => hxd (Option.some.inj heq).symm
    · rw [hnone]
      simp

theorem best_none (h : Touched s s' p d before after) (hnone : before.best = none) :
    after.best = none := by
  have hbest := h.best
  rw [hnone] at hbest
  exact Option.map_eq_none_iff.mp hbest

theorem order (h : Touched s s' p d before after) (ho : Offering [] s) :
    s'.queue.Pairwise fun x y => (s'.cell x).pfx = (s'.cell y).pfx →
      s'.dests.get? (s'.cell x).pfx ≠ some x ∧ (s'.cell y).best = none := by
  have hold : s.queue.Pairwise fun x y => (s'.cell x).pfx = (s'.cell y).pfx →
      s'.dests.get? (s'.cell x).pfx ≠ some x ∧ (s'.cell y).best = none := by
    apply ho.order.imp_of_mem
    intro x y hx hy hxy heq
    rw [h.cell_pfx ho hx, h.cell_pfx ho hy] at heq
    obtain ⟨hleft, hnone⟩ := hxy heq
    have hbest : (s'.cell y).best = none := by
      by_cases hyd : y = d
      · subst hyd
        rw [h.cell_self]
        apply h.best_none
        rcases h.known with ⟨_, hbefore⟩ | ⟨_, _, hbefore⟩
        · rw [hbefore]
          exact hnone
        · rw [hbefore]
          rfl
      · rw [h.cell_ne hyd]
        exact hnone
    refine ⟨?_, hbest⟩
    rw [h.cell_pfx ho hx]
    by_cases hp : (s.cell x).pfx = p
    · rw [hp] at hleft ⊢
      apply (h.dests_ne _).1
      rintro rfl
      rcases h.known with ⟨hlive, _⟩ | ⟨_, hnew, _⟩
      · exact hleft hlive
      · exact absurd (ho.line_lt x hx) (by rw [hnew]; exact Nat.lt_irrefl _)
    · rw [h.dests, if_neg hp]
      exact hleft
  rw [h.queue]
  by_cases hqueued : before.queued = true
  · rw [if_pos hqueued]
    exact hold
  · rw [if_neg hqueued]
    refine List.pairwise_append.mpr ⟨hold, List.pairwise_singleton _ _, ?_⟩
    intro x hx y hy heq
    rw [List.mem_singleton.mp hy, h.cell_self, h.pfx] at heq
    rw [List.mem_singleton.mp hy, h.cell_self, heq]
    have hxd : x ≠ d := fun hxd => h.not_mem ho hqueued (hxd ▸ hx)
    refine ⟨(h.dests_ne hxd).1, h.best_none ?_⟩
    rcases h.known with ⟨hlive, _⟩ | ⟨_, _, hbefore⟩
    · rw [h.cell_pfx ho hx] at heq
      exact absurd heq (h.line_pfx_ne ho hqueued hlive x hx)
    · rw [hbefore]
      rfl

/-- Its change of winner is none, and it speaks for its prefix if anything does. -/
theorem spoken (h : Touched s s' p d before after) (ho : Offering [] s) (q : Prefix) :
    ((s'.speaker s'.queue q).bind fun x => (s'.cell x).best).map BgpPath.bare =
      ((s.speaker s.queue q).bind fun x => (s.cell x).best).map BgpPath.bare := by
  have hbare : ∀ x, (s.dests.get? p = some d ∨ x ≠ d) →
      (s'.cell x).best.map BgpPath.bare = (s.cell x).best.map BgpPath.bare := by
    intro x hx
    by_cases hxd : x = d
    · subst hxd
      rcases h.known with ⟨_, hbefore⟩ | ⟨hnone, _, _⟩
      · rw [h.cell_self, h.best, hbefore]
      · exact absurd (hx.resolve_right (not_not.mpr rfl)) (by rw [hnone]; simp)
    · rw [h.cell_ne hxd]
  have hfind : s.queue.find? (fun x => (s'.cell x).pfx = q) =
      s.queue.find? (fun x => (s.cell x).pfx = q) := by
    apply find?_congr_of_mem
    intro x hx
    rw [h.cell_pfx ho hx]
  have hpd : (s'.cell d).pfx = p := by rw [h.cell_self, h.pfx]
  cases hfirst : s.queue.find? (fun x => (s.cell x).pfx = q) with
  | some x =>
    have hx := List.mem_of_find?_eq_some hfirst
    have hfirst' : s'.queue.find? (fun x => (s'.cell x).pfx = q) = some x := by
      rw [h.queue]
      split
      · rw [hfind, hfirst]
      · rw [List.find?_append, hfind, hfirst]
        rfl
    simp only [speaker, hfirst, hfirst', Option.some_or, Option.bind_some]
    apply hbare
    by_cases hxd : x = d
    · subst hxd
      rcases h.known with ⟨hlive, _⟩ | ⟨_, hnew, _⟩
      · exact Or.inl hlive
      · exact absurd (ho.line_lt x hx) (by rw [hnew]; exact Nat.lt_irrefl _)
    · exact Or.inr hxd
  | none =>
    by_cases hpq : p = q
    · subst hpq
      have hqueued : ¬ before.queued = true := fun hqueued => by
        have hd := List.find?_eq_none.mp hfirst d
        rcases h.known with ⟨hlive, hbefore⟩ | ⟨_, _, hbefore⟩
        · rw [hbefore] at hqueued
          exact hd (ho.live_queued p d hlive hqueued) (by simpa using ho.live_pfx p d hlive)
        · rw [hbefore] at hqueued
          exact absurd hqueued (by simp [BgpDest.new])
      have hfirst' : s'.queue.find? (fun x => (s'.cell x).pfx = p) = some d := by
        rw [h.queue, if_neg hqueued, List.find?_append, hfind, hfirst]
        simp [hpd]
      simp only [speaker, hfirst, hfirst', Option.some_or, Option.none_or, Option.bind_some]
      rcases h.known with ⟨hlive, hbefore⟩ | ⟨hnone, _, hbefore⟩
      · rw [hlive]
        exact hbare d (Or.inl hlive)
      · rw [hnone, h.cell_self, h.best_none (by rw [hbefore]; rfl)]
        rfl
    · have hqp : q ≠ p := fun heq => hpq heq.symm
      have hfirst' : s'.queue.find? (fun x => (s'.cell x).pfx = q) = none := by
        rw [h.queue]
        split
        · rw [hfind, hfirst]
        · rw [List.find?_append, hfind, hfirst]
          simp [hpd, hpq]
      simp only [speaker, hfirst, hfirst', Option.none_or, h.dests, if_neg hqp]
      cases hlive : s.dests.get? q with
      | none => rfl
      | some x =>
        apply hbare
        right
        rintro rfl
        rcases h.known with ⟨hlive', _⟩ | ⟨_, hnew, _⟩
        · exact hpq ((ho.live_pfx p x hlive').symm.trans (ho.live_pfx q x hlive))
        · exact absurd (ho.live_lt q x hlive) (by rw [hnew]; exact Nat.lt_irrefl _)

theorem live (h : Touched s s' p d before after) {q : Prefix} {x : DestId}
    (hx : s'.dests.get? q = some x) :
    (q = p ∧ x = d ∧ after.paths ≠ []) ∨ (q ≠ p ∧ s.dests.get? q = some x) := by
  rw [h.dests] at hx
  by_cases hq : q = p
  · rw [if_pos hq] at hx
    split at hx
    · exact absurd hx (by simp)
    · rename_i hne
      exact Or.inl ⟨hq, (Option.some.inj hx).symm, hne⟩
  · rw [if_neg hq] at hx
    exact Or.inr ⟨hq, hx⟩

theorem live_ne (h : Touched s s' p d before after) (ho : Offering [] s) {q : Prefix}
    {x : DestId} (hq : q ≠ p) (hx : s.dests.get? q = some x) : x ≠ d := by
  rintro rfl
  rcases h.known with ⟨hlive, _⟩ | ⟨_, hnew, _⟩
  · exact hq ((ho.live_pfx q x hx).symm.trans (ho.live_pfx p x hlive))
  · exact absurd (ho.live_lt q x hx) (by rw [hnew]; exact Nat.lt_irrefl _)

theorem offering (h : Touched s s' p d before after) (ho : Offering [] s) : Offering [] s' := by
  constructor
  · intro q x hx
    rcases h.live hx with ⟨_, rfl, _⟩ | ⟨_, hx⟩
    · exact h.allocated
    · exact lt_of_lt_of_le (ho.live_lt q x hx) h.next
  · intro q x hx
    rcases h.live hx with ⟨rfl, rfl, _⟩ | ⟨hq, hx⟩
    · rw [h.cell_self, h.pfx]
    · rw [h.cell_ne (h.live_ne ho hq hx)]
      exact ho.live_pfx q x hx
  · intro q x hx
    rcases h.live hx with ⟨_, rfl, hne⟩ | ⟨hq, hx⟩
    · rw [h.cell_self]
      exact hne
    · rw [h.cell_ne (h.live_ne ho hq hx)]
      exact ho.live_paths q x hx
  · intro q x hx hqueued
    apply (h.mem_queue ho).mpr
    rcases h.live hx with ⟨_, rfl, _⟩ | ⟨hq, hx⟩
    · exact Or.inr rfl
    · rw [h.cell_ne (h.live_ne ho hq hx)] at hqueued
      exact Or.inl (ho.live_queued q x hx hqueued)
  · intro x hx
    by_cases hxd : x = d
    · rw [hxd, h.cell_self]
      exact h.queued
    · rw [h.cell_ne hxd]
      exact ho.line_queued x (((h.mem_queue ho).mp hx).resolve_right hxd)
  · intro x hx
    rcases (h.mem_queue ho).mp hx with hx | rfl
    · exact lt_of_lt_of_le (ho.line_lt x hx) h.next
    · exact h.allocated
  · rw [List.nil_append, h.queue]
    by_cases hqueued : before.queued = true
    · rw [if_pos hqueued]
      exact ho.line_nodup
    · rw [if_neg hqueued]
      refine List.nodup_append.mpr ⟨ho.line_nodup, List.nodup_singleton d, ?_⟩
      rintro x hx y hy rfl
      rw [List.mem_singleton.mp hy] at hx
      exact h.not_mem ho hqueued hx
  · intro x hx hleft
    by_cases hxd : x = d
    · subst hxd
      rw [h.cell_self, h.pfx, h.dests, if_pos rfl] at hleft
      rw [h.cell_self]
      by_contra hne
      rw [if_neg hne] at hleft
      exact hleft rfl
    · have hold := ((h.mem_queue ho).mp hx).resolve_right hxd
      rw [h.cell_ne hxd] at hleft ⊢
      apply ho.left x hold
      by_cases hp : (s.cell x).pfx = p
      · rw [hp]
        exact (h.dests_ne hxd).2
      · rw [h.dests, if_neg hp] at hleft
        exact hleft
  · intro x hx y hy
    rcases h.live hy with ⟨_, rfl, _⟩ | ⟨hq, hy⟩
    · exact (h.mem_queue ho).mpr (Or.inr rfl)
    · have hxd : x ≠ d := by
        rintro rfl
        rw [h.cell_self, h.pfx] at hq
        exact hq rfl
      have hold := ((h.mem_queue ho).mp hx).resolve_right hxd
      rw [h.cell_ne hxd] at hy
      exact (h.mem_queue ho).mpr (Or.inl (ho.line_live x hold y hy))
  · exact h.order ho
  · intro x hx
    by_cases hxd : x = d
    · rw [hxd, h.cell_self]
      exact h.named
    · rw [h.cell_ne hxd]
      apply (ho.named x _).mono h.nextPath
      rcases hx with hx | ⟨q, hx⟩
      · exact Or.inl (((h.mem_queue ho).mp hx).resolve_right hxd)
      · rcases h.live hx with ⟨_, hxd', _⟩ | ⟨_, hx⟩
        · exact absurd hxd' hxd
        · exact Or.inr ⟨q, hx⟩
  · exact h.same.accounted ho.accounted
  · intro q
    rw [h.same.published, h.same.winnerRoute, ho.spoken q]
    exact (s.winnerRoute_congr q (h.spoken ho q)).symm

theorem selected (h : Touched s s' p d before after) (ho : Offering [] s)
    (hs : Selected [] s) : Selected [] s' := by
  intro q x hx hline
  rw [List.nil_append, h.mem_queue ho, not_or] at hline
  rcases h.live hx with ⟨_, hxd, _⟩ | ⟨_, hx⟩
  · exact absurd hxd hline.2
  · rw [h.cell_ne hline.2, h.same.config]
    exact hs q x hx hline.1

end Touched

end LocRib

end Packets
