/-
What each operation of a Loc-RIB keeps of the line, and what the core holds after a run.

`Relays`: the calls of one Loc-RIB stand in order among the calls of others.
-/
import Packets.Bgp.CoreOffers
import Packets.Rib.Publication

namespace Packets

namespace LocRib

/-- The core is told nothing, and no path object is made. -/
structure Quiet (s s' : LocRib) : Prop where
  core : SameCore s s'
  nextPath : s'.nextPath = s.nextPath

theorem Quiet.refl (s : LocRib) : Quiet s s := ⟨SameCore.refl s, rfl⟩

theorem Quiet.trans {s s' s'' : LocRib} (h : Quiet s s') (h' : Quiet s' s'') : Quiet s s'' :=
  ⟨h.core.trans h'.core, h'.nextPath.trans h.nextPath⟩

theorem quiet_of_eq {s s' : LocRib} (hp : s'.published = s.published)
    (ho : s'.offered = s.offered) (hc : s'.config = s.config)
    (he : s'.adminDistanceEbgp = s.adminDistanceEbgp)
    (hi : s'.adminDistanceIbgp = s.adminDistanceIbgp) (hn : s'.nextPath = s.nextPath) :
    Quiet s s' :=
  ⟨⟨hp, ho, hc, he, hi⟩, hn⟩

theorem fileNexthop_quiet (s : LocRib) (nexthop : Bytes) (dests : Dict Prefix DestId) :
    Quiet s (s.fileNexthop nexthop dests) := by
  rw [fileNexthop]
  split <;> exact quiet_of_eq rfl rfl rfl rfl rfl rfl

theorem unindexNexthop_quiet (s : LocRib) (nexthop : Bytes) (d : DestId) :
    Quiet s (s.unindexNexthop nexthop d) := by
  rw [unindexNexthop]
  split
  · exact Quiet.refl s
  · split
    · exact Quiet.refl s
    · split
      · exact Quiet.refl s
      · split
        · exact Quiet.refl s
        · exact fileNexthop_quiet s nexthop _

theorem foldl_unindexNexthop_quiet (gone : List BgpPath) (d : DestId) (s : LocRib) :
    Quiet s (gone.foldl (fun s p => s.unindexNexthop p.attrs.nexthop d) s) := by
  induction gone generalizing s with
  | nil => exact Quiet.refl s
  | cons p gone ih => exact (unindexNexthop_quiet s p.attrs.nexthop d).trans (ih _)

theorem indexNexthop_quiet (s : LocRib) (nexthop : Bytes) (d : DestId) (resolved : Bool)
    (igpMetric : Nat) : Quiet s (s.indexNexthop nexthop d resolved igpMetric) := by
  rw [indexNexthop]
  split <;> exact quiet_of_eq rfl rfl rfl rfl rfl rfl

theorem indexRemove_quiet (s : LocRib) (peer : PeerRef) (pfx : Prefix) :
    Quiet s (s.indexRemove peer pfx) := by
  rw [indexRemove]
  split
  · exact Quiet.refl s
  · dsimp only
    split <;> exact quiet_of_eq rfl rfl rfl rfl rfl rfl

theorem settleReplaced_quiet (s : LocRib) (d : DestId) (nexthop : Bytes)
    (replaced : Option BgpPath) : Quiet s (s.settleReplaced d nexthop replaced) := by
  cases replaced with
  | none => exact quiet_of_eq rfl rfl rfl rfl rfl rfl
  | some old =>
    have hreleased : Quiet s { s with
        attrTable := s.attrTable.release old.attrs old.interned } :=
      quiet_of_eq rfl rfl rfl rfl rfl rfl
    simp only [settleReplaced]
    split
    · exact hreleased.trans (unindexNexthop_quiet _ _ d)
    · exact hreleased

theorem enqueue_quiet (s : LocRib) (d : DestId) : Quiet s (s.enqueue d) := by
  rw [enqueue]
  split <;> exact quiet_of_eq rfl rfl rfl rfl rfl rfl

theorem dropEmpty_quiet (s : LocRib) (d : DestId) : Quiet s (s.dropEmpty d) := by
  rw [dropEmpty]
  split <;> exact quiet_of_eq rfl rfl rfl rfl rfl rfl

theorem enqueue_queue (s : LocRib) (d : DestId) :
    (s.enqueue d).queue =
      if (s.cell d).queued = true then s.queue else s.queue ++ [d] := by
  rw [enqueue]
  split <;> rfl

theorem dests_dropEmpty {s : LocRib} {d : DestId} {p : Prefix}
    (hd : s.dests.get? p = some d) (hpfx : (s.cell d).pfx = p) (q : Prefix) :
    (s.dropEmpty d).dests.get? q =
      if q = p then (if (s.cell d).paths = [] then none else some d)
      else s.dests.get? q := by
  rw [dropEmpty, hpfx]
  by_cases hempty : (s.cell d).paths = []
  · rw [if_pos ⟨List.isEmpty_iff.mpr hempty, hd⟩, if_pos hempty]
    exact Dict.get?_erase _ _ _
  · rw [if_neg fun h => hempty (List.isEmpty_iff.mp h.1), if_neg hempty]
    by_cases hq : q = p
    · rw [if_pos hq, hq, hd]
    · rw [if_neg hq]

/-- A destination found for a prefix, or created. -/
structure Reached (s s₀ : LocRib) (p : Prefix) (d : DestId) : Prop where
  known : (s.dests.get? p = some d ∧ s₀.cell d = s.cell d) ∨
    (s.dests.get? p = none ∧ d = s.heap.next ∧ s₀.cell d = BgpDest.new p)
  cell : ∀ x, x ≠ d → s₀.cell x = s.cell x
  queue : s₀.queue = s.queue
  dests : ∀ q, s₀.dests.get? q = if q = p then some d else s.dests.get? q
  pfx : (s₀.cell d).pfx = p
  next : s.heap.next ≤ s₀.heap.next
  allocated : d < s₀.heap.next
  nextPath : s.nextPath ≤ s₀.nextPath
  same : SameCore s s₀

theorem Offering.reached {s : LocRib} (h : Offering [] s) {p : Prefix} {d : DestId}
    (hd : s.dests.get? p = some d) : Reached s s p d := by
  refine ⟨Or.inl ⟨hd, rfl⟩, fun _ _ => rfl, rfl, ?_, h.live_pfx p d hd, le_refl _,
    h.live_lt p d hd, le_refl _, SameCore.refl s⟩
  intro q
  by_cases hq : q = p
  · rw [if_pos hq, hq, hd]
  · rw [if_neg hq]

theorem Offering.dest_reached {s s₀ : LocRib} (h : Offering [] s) {p : Prefix}
    {d : DestId} (hdest : s.dest p = some (s₀, d)) : Reached s s₀ p d := by
  rcases dest_cases hdest with ⟨hd, rfl⟩ | ⟨hnone, rfl, rfl⟩
  · exact h.reached hd
  · have hcell : ∀ x, (s.heap.alloc (BgpDest.new p)).cell x =
        if x = s.heap.next then BgpDest.new p else s.heap.cell x := fun _ => rfl
    refine ⟨Or.inr ⟨hnone, rfl, ?_⟩, ?_, rfl, ?_, ?_, Nat.le_succ _, Nat.lt_succ_self _,
      le_refl _, ⟨rfl, rfl, rfl, rfl, rfl⟩⟩
    · exact (hcell _).trans (if_pos rfl)
    · intro x hx
      exact (hcell x).trans (if_neg hx)
    · intro q
      exact Dict.get?_set _ _ _ _
    · show ((s.heap.alloc (BgpDest.new p)).cell s.heap.next).pfx = p
      rw [hcell, if_pos rfl]
      rfl

/-- A destination is changed, bookkeeping is done, it is put in line, dropped if it is
empty, and more bookkeeping is done. -/
theorem Reached.touched {s s₀ s₁ s' : LocRib} {p : Prefix} {d : DestId} (hr : Reached s s₀ p d)
    (dest : BgpDest) (hpfx : dest.pfx = p) (hqueued : dest.queued = (s₀.cell d).queued)
    (hbest : dest.best.map BgpPath.bare = (s₀.cell d).best.map BgpPath.bare)
    (hnamed : Named s₀.nextPath dest) (ht : SameTable (s₀.setDest d dest) s₁) (hq : Quiet s₀ s₁)
    (ht' : SameTable ((s₁.enqueue d).dropEmpty d) s')
    (hq' : Quiet ((s₁.enqueue d).dropEmpty d) s') :
    Touched s s' p d (s₀.cell d) { dest with queued := true } := by
  have hcell₁ : ∀ x, s₁.cell x = if x = d then dest else s₀.cell x := fun x => by
    rw [ht.cell, cell_setDest]
  have hd₁ : s₁.dests.get? p = some d := by
    rw [ht.dests]
    exact (hr.dests p).trans (if_pos rfl)
  have hcell' : ∀ x, s'.cell x =
      if x = d then { dest with queued := true } else s₀.cell x := by
    intro x
    rw [ht'.cell, dropEmpty_cell, enqueue_cell, hcell₁, hcell₁, if_pos rfl]
    by_cases hx : x = d <;> simp [hx]
  have hquiet : Quiet s₀ s' :=
    ((hq.trans (enqueue_quiet s₁ d)).trans (dropEmpty_quiet _ d)).trans hq'
  constructor
  · exact hr.known
  · intro x
    rw [hcell']
    by_cases hx : x = d
    · rw [if_pos hx, if_pos hx]
    · rw [if_neg hx, if_neg hx, hr.cell x hx]
  · rw [ht'.queue, dropEmpty_queue, enqueue_queue, hcell₁, if_pos rfl, hqueued, ht.queue]
    show (if _ then s₀.queue else s₀.queue ++ [d]) = _
    rw [hr.queue]
  · intro q
    have hdrop := dests_dropEmpty (s := s₁.enqueue d) (d := d) (p := p)
      (by rw [enqueue_dests]; exact hd₁)
      (by rw [enqueue_cell, if_pos rfl, hcell₁, if_pos rfl]; exact hpfx) q
    rw [ht'.dests, hdrop, enqueue_cell, if_pos rfl, hcell₁, if_pos rfl, enqueue_dests, ht.dests]
    by_cases hqp : q = p
    · rw [if_pos hqp, if_pos hqp]
    · rw [if_neg hqp, if_neg hqp]
      exact (hr.dests q).trans (if_neg hqp)
  · rw [ht'.heap, dropEmpty_heap, enqueue_next, ht.heap]
    exact hr.next
  · rw [ht'.heap, dropEmpty_heap, enqueue_next, ht.heap]
    exact hr.allocated
  · rw [hquiet.nextPath]
    exact hr.nextPath
  · exact hpfx
  · rfl
  · exact hbest
  · rw [hquiet.nextPath]
    exact hnamed
  · exact hr.same.trans hquiet.core

theorem Named.of_subset {next : Nat} {dest dest' : BgpDest} (h : Named next dest)
    (hsub : ∀ p ∈ objects dest', p ∈ objects dest) : Named next dest' := fun p hp =>
  ⟨(h p (hsub p hp)).1, fun q hq => (h p (hsub p hp)).2 q (hsub q hq)⟩

theorem Named.new (next : Nat) (p : Prefix) : Named next (BgpDest.new p) := by
  intro q hq
  exact absurd hq (by simp [objects, BgpDest.new])

theorem Reached.named {s s₀ : LocRib} {p : Prefix} {d : DestId} (hr : Reached s s₀ p d)
    (h : Offering [] s) : Named s.nextPath (s₀.cell d) := by
  rcases hr.known with ⟨hlive, heq⟩ | ⟨_, _, heq⟩
  · rw [heq]
    exact h.named d (Or.inr ⟨p, hlive⟩)
  · rw [heq]
    exact Named.new _ p

/-- A new path object is told apart from all others. -/
theorem Named.add {next : Nat} {dest : BgpDest} (h : Named next dest) {path : BgpPath}
    (hpath : path.oid = next) : Named (next + 1) (dest.add path) := by
  have hmem : ∀ p ∈ objects (dest.add path), p = path ∨ p ∈ objects dest := by
    intro p hp
    rcases List.mem_append.mp hp with hbest | hput
    · exact Or.inr (List.mem_append_left _ hbest)
    · rcases mem_putPath hput with rfl | hold
      · exact Or.inl rfl
      · exact Or.inr (List.mem_append_right _ hold)
  intro p hp
  rcases hmem p hp with rfl | hold
  · refine ⟨by rw [hpath]; exact Nat.lt_succ_self _, fun q hq heq => ?_⟩
    rcases hmem q hq with rfl | hold
    · rfl
    · exact absurd (h q hold).1 (by rw [← heq, hpath]; exact Nat.lt_irrefl _)
  · refine ⟨Nat.lt_succ_of_lt (h p hold).1, fun q hq heq => ?_⟩
    rcases hmem q hq with rfl | hold'
    · exact absurd (h p hold).1 (by rw [heq, hpath]; exact Nat.lt_irrefl _)
    · exact (h p hold).2 q hold' heq

theorem addPath_touched {s s' : LocRib} (h : Offering [] s) {peer : PeerRef}
    {pfx : Prefix} {a : Arrival} (hadd : s.addPath peer pfx a = some s') :
    ∃ d before after, Touched s s' pfx d before after := by
  rw [addPath] at hadd
  cases hdest : s.dest pfx with
  | none => rw [hdest] at hadd; exact absurd hadd (by simp)
  | some found =>
    obtain ⟨s₀, d⟩ := found
    rw [hdest] at hadd
    simp only [Option.some.injEq] at hadd
    have hr := h.dest_reached hdest
    generalize hpath : a.path s₀.nextPath (s₀.attrTable.intern a.attrs).2 peer
      (s₀.cell d) = path at hadd
    have hoid : path.oid = s₀.nextPath := by rw [← hpath]; rfl
    generalize hcounted : ({ s₀ with
      attrTable := (s₀.attrTable.intern a.attrs).1
      nextPath := s₀.nextPath + 1 } : LocRib) = s₁ at hadd
    have hr₁ : Reached s s₁ pfx d := by
      rw [← hcounted]
      exact ⟨hr.known, hr.cell, hr.queue, hr.dests, hr.pfx, hr.next, hr.allocated,
        Nat.le_succ_of_le hr.nextPath, hr.same.trans ⟨rfl, rfl, rfl, rfl, rfl⟩⟩
    have hcell : s₁.cell d = s₀.cell d := by rw [← hcounted]; rfl
    have hnamed : Named s₁.nextPath ((s₁.cell d).add path) := by
      have hnext : s₁.nextPath = s₀.nextPath + 1 := by rw [← hcounted]
      rw [hnext, hcell]
      exact ((hr.named h).mono hr.nextPath).add hoid
    have hput : putPath path (s₁.cell d).paths ≠ [] := by
      cases hpaths : (s₁.cell d).paths with
      | nil => simp [putPath]
      | cons old rest =>
        rw [putPath]
        split <;> simp
    generalize hset : s₁.setDest d ((s₁.cell d).add path) = s₂ at hadd
    generalize hreplaced : (s₀.cell d).find peer a.pathId = replaced at hadd
    have ht₃ := settleReplaced_sameTable s₂ d a.attrs.nexthop replaced
    have hq₃ := settleReplaced_quiet s₂ d a.attrs.nexthop replaced
    generalize s₂.settleReplaced d a.attrs.nexthop replaced = s₃ at hadd ht₃ hq₃
    have ht₄ := indexAdd_sameTable s₃ peer d
    have hq₄ : Quiet s₃ (s₃.indexAdd peer d) := quiet_of_eq rfl rfl rfl rfl rfl rfl
    generalize s₃.indexAdd peer d = s₄ at hadd ht₄ hq₄
    have ht₅ := indexNexthop_sameTable s₄ a.attrs.nexthop d a.resolved a.igpMetric
    have hq₅ := indexNexthop_quiet s₄ a.attrs.nexthop d a.resolved a.igpMetric
    generalize s₄.indexNexthop a.attrs.nexthop d a.resolved a.igpMetric = s₅ at hadd ht₅ hq₅
    have ht : SameTable (s₁.setDest d ((s₁.cell d).add path)) s₅ := by
      rw [hset]
      exact (ht₃.trans ht₄).trans ht₅
    have hq₂ : Quiet s₁ s₂ := by
      rw [← hset]
      exact quiet_of_eq rfl rfl rfl rfl rfl rfl
    have hkept : (s₅.enqueue d).dropEmpty d = s' := by
      rw [← hadd, dropEmpty, if_neg]
      intro hempty
      apply hput
      have hpaths := List.isEmpty_iff.mp hempty.1
      rw [enqueue_cell, if_pos rfl, ht.cell, cell_setDest, if_pos rfl] at hpaths
      exact hpaths
    refine ⟨d, _, _, hr₁.touched ((s₁.cell d).add path) hr₁.pfx rfl rfl hnamed ht
      (((hq₂.trans hq₃).trans hq₄).trans hq₅) ?_ ?_⟩
    · rw [hkept]
      exact SameTable.refl s'
    · rw [hkept]
      exact Quiet.refl s'

theorem removePath_touched {s : LocRib} (h : Offering [] s) (peer : PeerRef)
    (pfx : Prefix) (pathId : Nat) :
    s.removePath peer pfx pathId = s ∨
      ∃ d before after, Touched s (s.removePath peer pfx pathId) pfx d before after := by
  rw [removePath]
  cases hd : s.dests.get? pfx with
  | none => exact Or.inl rfl
  | some d =>
    dsimp only
    cases hfind : (s.cell d).find peer pathId with
    | none => exact Or.inl rfl
    | some path =>
      right
      dsimp only
      have hr := h.reached hd
      generalize hs₁ : ({ s.setDest d ((s.cell d).remove peer pathId) with
        pathCount := s.pathCount - 1
        attrTable := s.attrTable.release path.attrs path.interned } : LocRib) = s₁
      have ht₁ : SameTable (s.setDest d ((s.cell d).remove peer pathId)) s₁ := by
        rw [← hs₁]
        exact ⟨rfl, rfl, rfl, rfl⟩
      have hq₁ : Quiet s s₁ := by
        rw [← hs₁]
        exact quiet_of_eq rfl rfl rfl rfl rfl rfl
      have hunfiled : SameTable s₁ (if s₁.peerHas peer d then s₁
          else s₁.indexRemove peer pfx) ∧
          Quiet s₁ (if s₁.peerHas peer d then s₁ else s₁.indexRemove peer pfx) := by
        split
        · exact ⟨SameTable.refl s₁, Quiet.refl s₁⟩
        · exact ⟨indexRemove_sameTable s₁ peer pfx, indexRemove_quiet s₁ peer pfx⟩
      obtain ⟨ht₂, hq₂⟩ := hunfiled
      have hnamed : Named s.nextPath ((s.cell d).remove peer pathId) := by
        apply (hr.named h).of_subset
        intro p hp
        rcases List.mem_append.mp hp with hbest | hpath
        · exact List.mem_append_left _ hbest
        · exact List.mem_append_right _ (List.mem_of_mem_eraseP hpath)
      exact ⟨d, _, _, hr.touched ((s.cell d).remove peer pathId) hr.pfx rfl rfl
        hnamed (ht₁.trans ht₂) (hq₁.trans hq₂) (unindexNexthop_sameTable _ _ d)
        (unindexNexthop_quiet _ _ d)⟩

theorem removePeerFrom_touched {s : LocRib} (h : Offering [] s) (peer : PeerRef)
    {pfx : Prefix} {d : DestId} (hd : s.dests.get? pfx = some d) :
    (SameTable s (removePeerFrom peer s d) ∧ Quiet s (removePeerFrom peer s d)) ∨
      ∃ before after, Touched s (removePeerFrom peer s d) pfx d before after := by
  rw [removePeerFrom]
  dsimp only
  generalize (s.cell d).paths.filter (fun p => p.peer.oid == peer.oid) = gone
  generalize hs₀ : ({ s with
    attrTable := gone.foldl (fun t (p : BgpPath) => t.release p.attrs p.interned)
      s.attrTable } : LocRib) = s₀
  have ht₀ : SameTable s s₀ := by rw [← hs₀]; exact ⟨rfl, rfl, rfl, rfl⟩
  have hq₀ : Quiet s s₀ := by rw [← hs₀]; exact quiet_of_eq rfl rfl rfl rfl rfl rfl
  by_cases hgone : gone.isEmpty = true
  · rw [if_pos hgone]
    exact Or.inl ⟨ht₀, hq₀⟩
  · rw [if_neg hgone]
    right
    have hr := h.reached hd
    generalize hs₁ : ({ s₀.setDest d ((s₀.cell d).removePeer peer) with
      pathCount := s.pathCount - gone.length } : LocRib) = s₁
    have ht₁ : SameTable (s.setDest d ((s.cell d).removePeer peer)) s₁ := by
      rw [← hs₁, ← hs₀]
      exact ⟨rfl, rfl, rfl, rfl⟩
    have hq₁ : Quiet s s₁ := by
      apply hq₀.trans
      rw [← hs₁]
      exact quiet_of_eq rfl rfl rfl rfl rfl rfl
    have hnamed : Named s.nextPath ((s.cell d).removePeer peer) := by
      apply (hr.named h).of_subset
      intro p hp
      rcases List.mem_append.mp hp with hbest | hpath
      · exact List.mem_append_left _ hbest
      · exact List.mem_append_right _ (List.mem_filter.mp hpath).1
    exact ⟨_, _, hr.touched ((s.cell d).removePeer peer) hr.pfx rfl rfl hnamed ht₁
      hq₁ (foldl_unindexNexthop_sameTable gone d _) (foldl_unindexNexthop_quiet gone d _)⟩

/-- What an operation keeps. -/
def Sound (s : LocRib) : Prop := Offering [] s ∧ Selected [] s

theorem Sound.of_same {s s' : LocRib} (h : s.Sound) (ht : SameTable s s')
    (hq : Quiet s s') : s'.Sound :=
  ⟨h.1.of_same ht hq.core hq.nextPath.symm, h.2.of_same ht hq.core⟩

theorem Sound.of_touched {s s' : LocRib} (h : s.Sound) {p : Prefix} {d : DestId}
    {before after : BgpDest} (ht : Touched s s' p d before after) : s'.Sound :=
  ⟨ht.offering h.1, ht.selected h.1 h.2⟩

theorem foldl_removePeerFrom_sound (peer : PeerRef) (entries : List (Prefix × DestId))
    (hnodup : (entries.map Prod.fst).Nodup) {s : LocRib} (hw : s.Wf) (h : s.Sound)
    (hlive : ∀ e ∈ entries, s.dests.get? e.1 = some e.2) :
    ((entries.map Prod.snd).foldl (removePeerFrom peer) s).Sound := by
  induction entries generalizing s with
  | nil => exact h
  | cons entry entries ih =>
    simp only [List.map_cons, List.nodup_cons] at hnodup
    have hd := hlive entry List.mem_cons_self
    obtain ⟨_, _, hothers, _⟩ := removePeerFrom_paths hw peer hd
    apply ih hnodup.2 (removePeerFrom_spec hw peer entry.2).1
    · rcases removePeerFrom_touched h.1 peer hd with ⟨ht, hq⟩ | ⟨_, _, ht⟩
      · exact h.of_same ht hq
      · exact h.of_touched ht
    · intro e he
      have hne : e.1 ≠ entry.1 := fun heq => hnodup.1 (List.mem_map.mpr ⟨e, he, heq⟩)
      rw [hothers e.1 hne]
      exact hlive e (List.mem_cons_of_mem _ he)

theorem removePeer_sound {s : LocRib} (hi : s.Indexed) (h : s.Sound) (peer : PeerRef) :
    (s.removePeer peer).Sound := by
  rw [removePeer]
  cases hpeer : s.byPeer.get? peer.oid with
  | none => exact h
  | some contributed =>
    have ht : SameTable s { s with byPeer := s.byPeer.erase peer.oid } := ⟨rfl, rfl, rfl, rfl⟩
    apply foldl_removePeerFrom_sound peer contributed.entries contributed.nodup
      (hi.wf.of_same ht ⟨rfl, rfl⟩) (h.of_same ht (quiet_of_eq rfl rfl rfl rfl rfl rfl))
    intro e he
    have hfiled : contributed.get? e.1 = some e.2 := Dict.mem_entries_iff.mp he
    exact ((hi.exact peer.oid e.1 e.2).mp ⟨contributed, hpeer, hfiled⟩).1

theorem bare_touch (nexthop : Bytes) (answer : Bool × Nat) (p : BgpPath) :
    (if p.attrs.nexthop = nexthop then BgpPath.setAnswer answer p else p).bare = p.bare ∧
    (if p.attrs.nexthop = nexthop then BgpPath.setAnswer answer p else p).oid = p.oid := by
  split <;> exact ⟨rfl, rfl⟩

theorem setAnswers_best (nexthop : Bytes) (answer : Bool × Nat) (dest : BgpDest) :
    (setAnswers nexthop answer dest).best.map BgpPath.bare = dest.best.map BgpPath.bare := by
  rw [setAnswers]
  cases dest.best with
  | none => rfl
  | some b =>
    simp only [Option.map_some, Option.some.injEq]
    split
    · exact (bare_touch nexthop answer b).1
    · rfl

theorem Named.setAnswers {next : Nat} {dest : BgpDest} (h : Named next dest) (nexthop : Bytes)
    (answer : Bool × Nat) : Named next (setAnswers nexthop answer dest) := by
  have hmem : ∀ p ∈ objects (LocRib.setAnswers nexthop answer dest),
      ∃ q ∈ objects dest, p.bare = q.bare ∧ p.oid = q.oid := by
    intro p hp
    rcases List.mem_append.mp hp with hbest | hpath
    · rw [LocRib.setAnswers] at hbest
      cases hb : dest.best with
      | none => rw [hb] at hbest; exact absurd hbest (by simp)
      | some b =>
        have hin : b ∈ objects dest := List.mem_append_left _ (by rw [hb]; simp)
        rw [hb] at hbest
        simp only [Option.map_some, Option.toList_some, List.mem_singleton] at hbest
        refine ⟨b, hin, ?_⟩
        rw [hbest]
        split
        · exact bare_touch nexthop answer b
        · exact ⟨rfl, rfl⟩
    · obtain ⟨q, hq, rfl⟩ := List.mem_map.mp hpath
      exact ⟨q, List.mem_append_right _ hq, bare_touch nexthop answer q⟩
  intro p hp
  obtain ⟨p', hp', hbare, hoid⟩ := hmem p hp
  refine ⟨by rw [hoid]; exact (h p' hp').1, fun q hq heq => ?_⟩
  obtain ⟨q', hq', hbare', hoid'⟩ := hmem q hq
  rw [hbare, hbare']
  exact (h p' hp').2 q' hq' (by rw [← hoid, heq, hoid'])

/-- Putting a destination of the table in line, changed or not. -/
theorem Offering.touch {s : LocRib} (h : Offering [] s) {p : Prefix} {d : DestId}
    (hd : s.dests.get? p = some d) (dest : BgpDest) (hpfx : dest.pfx = p)
    (hqueued : dest.queued = (s.cell d).queued) (hpaths : dest.paths ≠ [])
    (hbest : dest.best.map BgpPath.bare = (s.cell d).best.map BgpPath.bare)
    (hnamed : Named s.nextPath dest) :
    Touched s ((s.setDest d dest).enqueue d) p d (s.cell d) { dest with queued := true } := by
  have hkept : ((s.setDest d dest).enqueue d).dropEmpty d = (s.setDest d dest).enqueue d := by
    rw [dropEmpty, if_neg]
    intro hempty
    apply hpaths
    have hnil := List.isEmpty_iff.mp hempty.1
    rw [enqueue_cell, if_pos rfl, cell_setDest, if_pos rfl] at hnil
    exact hnil
  apply (h.reached hd).touched dest hpfx hqueued hbest hnamed (SameTable.refl _)
    (quiet_of_eq rfl rfl rfl rfl rfl rfl)
  · rw [hkept]
    exact SameTable.refl _
  · rw [hkept]
    exact Quiet.refl _

theorem revalidateDest_sound {s : LocRib} (h : s.Sound) (nexthop : Bytes) (answer : Bool × Nat)
    (entry : Prefix × DestId) : (revalidateDest nexthop answer s entry).Sound := by
  rw [revalidateDest]
  by_cases hlive : s.dests.get? entry.1 = some entry.2
  · rw [if_neg (not_not.mpr hlive)]
    split
    · have hpaths : (setAnswers nexthop answer (s.cell entry.2)).paths ≠ [] := by
        intro hnil
        exact h.1.live_paths _ _ hlive (List.map_eq_nil_iff.mp hnil)
      exact h.of_touched (h.1.touch hlive (setAnswers nexthop answer (s.cell entry.2))
        (h.1.live_pfx _ _ hlive) rfl hpaths (setAnswers_best nexthop answer _)
        ((h.1.named _ (Or.inr ⟨_, hlive⟩)).setAnswers nexthop answer))
    · exact h
  · rw [if_pos hlive]
    exact h

theorem revalidateNexthop_sound (check : Check) {s : LocRib} (h : s.Sound)
    (nexthop : Bytes) : (revalidateNexthop check s nexthop).Sound := by
  have hfold : ∀ (answer : Bool × Nat) (entries : List (Prefix × DestId)) {s : LocRib},
      s.Sound → (entries.foldl (revalidateDest nexthop answer) s).Sound := by
    intro answer entries
    induction entries with
    | nil => exact fun h => h
    | cons entry entries ih => exact fun h => ih (revalidateDest_sound h nexthop answer entry)
  have hprune : ∀ {s : LocRib} (dests : Dict Prefix DestId), s.Sound →
      (s.pruneNexthop nexthop dests).Sound := fun {s} dests h =>
    h.of_same (pruneNexthop_sameTable s nexthop dests) (fileNexthop_quiet s nexthop _)
  rw [revalidateNexthop]
  cases s.nhDests.get? nexthop with
  | none => exact h
  | some dests =>
    dsimp only
    split
    · exact hprune dests h
    · apply hprune dests
      apply hfold
      exact h.of_same ⟨rfl, rfl, rfl, rfl⟩ (quiet_of_eq rfl rfl rfl rfl rfl rfl)

theorem revalidate_sound {s : LocRib} (h : s.Sound) (check : Check) :
    (s.revalidate check).Sound := by
  rw [revalidate]
  generalize s.nhDests.keys = nexthops
  induction nexthops generalizing s with
  | nil => exact h
  | cons nexthop nexthops ih => exact ih (revalidateNexthop_sound check h nexthop)

theorem enqueue_touched {s : LocRib} (h : Offering [] s) {p : Prefix} {d : DestId}
    (hd : s.dests.get? p = some d) : ∃ before after, Touched s (s.enqueue d) p d before after := by
  have hsame : s.setDest d (s.cell d) = s := by
    have hheap : s.heap.write d (s.cell d) = s.heap := by
      rw [Heap.write]
      congr 1
      funext x
      by_cases hx : x = d
      · rw [if_pos hx, hx]
        rfl
      · rw [if_neg hx]
    rw [setDest, hheap]
  have ht := h.touch hd (s.cell d) (h.live_pfx p d hd) rfl (h.live_paths p d hd) rfl
    (h.named d (Or.inr ⟨p, hd⟩))
  rw [hsame] at ht
  exact ⟨_, _, ht⟩

/-- Requeueing destinations of the table. -/
theorem foldl_enqueue_offering (ds : List DestId) {s : LocRib} (h : Offering [] s)
    (hlive : ∀ d ∈ ds, ∃ p, s.dests.get? p = some d) :
    Offering [] (ds.foldl enqueue s) ∧ ∀ d, d ∈ ds ∨ d ∈ s.queue →
      d ∈ (ds.foldl enqueue s).queue := by
  induction ds generalizing s with
  | nil => exact ⟨h, fun d hd => hd.resolve_left (by simp)⟩
  | cons d ds ih =>
    obtain ⟨p, hd⟩ := hlive d List.mem_cons_self
    obtain ⟨_, _, ht⟩ := enqueue_touched h hd
    have hmem : ∀ x, x ∈ (s.enqueue d).queue ↔ x ∈ s.queue ∨ x = d := fun _ => ht.mem_queue h
    obtain ⟨hoff, hline⟩ := ih (ht.offering h) fun x hx => by
      rw [enqueue_dests]
      exact hlive x (List.mem_cons_of_mem _ hx)
    refine ⟨hoff, fun x hx => hline x ?_⟩
    rw [List.mem_cons, or_assoc] at hx
    rcases hx with rfl | hx | hx
    · exact Or.inr ((hmem x).mpr (Or.inr rfl))
    · exact Or.inl hx
    · exact Or.inr ((hmem x).mpr (Or.inl hx))

theorem setConfig_sound {s : LocRib} (h : s.Sound) (config : BestpathConfig) :
    (s.setConfig config).Sound := by
  rw [setConfig]
  split
  · exact h
  · have hstart : Offering [] { s with config := config } := by
      have ho := h.1
      exact ⟨ho.live_lt, ho.live_pfx, ho.live_paths, ho.live_queued, ho.line_queued,
        ho.line_lt, ho.line_nodup, ho.left, ho.line_live, ho.order, ho.named, ho.accounted,
        ho.spoken⟩
    have hlive : ∀ d ∈ s.dests.values, ∃ p, s.dests.get? p = some d := fun d hd =>
      Dict.mem_values_iff.mp hd
    obtain ⟨hoff, hline⟩ := foldl_enqueue_offering s.dests.values hstart hlive
    refine ⟨hoff, fun p d hd hnot => absurd (hline d (Or.inl ?_)) hnot⟩
    rw [(foldl_enqueue_same s.dests.values _).2] at hd
    exact Dict.mem_values_iff.mpr ⟨p, hd⟩

theorem publish_nextPath (s : LocRib) (previous : Option BgpPath) (dest : BgpDest) :
    (s.publish previous dest).nextPath = s.nextPath ∧ (s.publish previous dest).config = s.config ∧
      (s.publish previous dest).adminDistanceEbgp = s.adminDistanceEbgp ∧
      (s.publish previous dest).adminDistanceIbgp = s.adminDistanceIbgp := by
  have hretract : ∀ p, (s.retract p).nextPath = s.nextPath ∧ (s.retract p).config = s.config ∧
      (s.retract p).adminDistanceEbgp = s.adminDistanceEbgp ∧
      (s.retract p).adminDistanceIbgp = s.adminDistanceIbgp := by
    intro p
    rw [retract]
    split <;> exact ⟨rfl, rfl, rfl, rfl⟩
  rw [publish]
  split
  · exact ⟨rfl, rfl, rfl, rfl⟩
  · split
    · exact hretract _
    · split
      · exact hretract _
      · rw [offer_eq]
        split
        · exact ⟨rfl, rfl, rfl, rfl⟩
        · exact hretract _

/-- The first in line is taken off and selected, and its winner published. -/
structure Taken (s s' : LocRib) (d : DestId) (dest : BgpDest) : Prop where
  pfx : dest.pfx = (s.cell d).pfx
  paths : dest.paths = (s.cell d).paths
  best : dest.best = (select (s.cell d).paths s.config).best
  queued : dest.queued = false
  cell : ∀ x, s'.cell x = if x = d then dest else s.cell x
  dests : s'.dests = s.dests
  queue : s'.queue = s.queue
  next : s'.heap.next = s.heap.next
  nextPath : s'.nextPath = s.nextPath
  config : s'.config = s.config
  route : ∀ p best, s'.winnerRoute p best = s.winnerRoute p best
  accounted : s'.Accounted
  core : ∀ q, coreRoutes s'.published q =
    if q = (s.cell d).pfx then s.winnerRoute q dest.best else coreRoutes s.published q

/-- Winners that are one object are one path to the core. -/
theorem Named.bare_eq {next : Nat} {before dest : BgpDest} (h : Named next before)
    (hmem : ∀ w, dest.best = some w → w ∈ before.paths)
    (hoid : dest.best.map BgpPath.oid = before.best.map BgpPath.oid) :
    dest.best.map BgpPath.bare = before.best.map BgpPath.bare := by
  cases hw : dest.best with
  | none =>
    rw [hw] at hoid
    rw [Option.map_eq_none_iff.mp hoid.symm]
  | some w =>
    rw [hw] at hoid
    obtain ⟨b, hb, hboid⟩ := Option.map_eq_some_iff.mp hoid.symm
    rw [hb, Option.map_some, Option.map_some, Option.some.injEq]
    have hwin : w ∈ objects before := List.mem_append_right _ (hmem w hw)
    have hbin : b ∈ objects before := List.mem_append_left _ (by rw [hb]; simp)
    exact (h w hwin).2 b hbin hboid.symm

theorem reselectDest_taken {s : LocRib} {d : DestId} {rest : List DestId}
    (h : Offering (d :: rest) s) : ∃ dest, Taken s (s.reselectDest d) d dest := by
  rw [reselectDest_eq]
  dsimp only
  generalize hdest : ({ s.cell d with queued := false } : BgpDest).reselect s.config = dest
  have hpfx : dest.pfx = (s.cell d).pfx := by rw [← hdest]; rfl
  have hpaths : dest.paths = (s.cell d).paths := by rw [← hdest]; rfl
  have hbest : dest.best = (select (s.cell d).paths s.config).best := by rw [← hdest]; rfl
  have hmem : ∀ w, dest.best = some w → w ∈ (s.cell d).paths ∧ w.resolved = true := by
    intro w hw
    rw [hbest] at hw
    exact select_best_mem hw
  have hnamed := h.named d (Or.inl List.mem_cons_self)
  -- The line starts at `d`, so `d` speaks for its prefix.
  have hheld : coreRoutes s.published dest.pfx = s.winnerRoute dest.pfx (s.cell d).best := by
    rw [hpfx, h.spoken, speaker, List.cons_append, List.find?_cons]
    simp
  have hacc : (s.setDest d dest).Accounted := h.accounted
  obtain ⟨haccounted, hcore⟩ := publish_core (s := s.setDest d dest) hacc
    (fun w hw => (hmem w hw).2) hheld (hnamed.bare_eq fun w hw => (hmem w hw).1)
  obtain ⟨ht, _⟩ := publish_same (s.setDest d dest) (s.cell d).best dest
  obtain ⟨hnext, hconfig, hebgp, hibgp⟩ := publish_nextPath (s.setDest d dest) (s.cell d).best dest
  generalize (s.setDest d dest).publish (s.cell d).best dest = s'
    at haccounted hcore ht hnext hconfig hebgp hibgp ⊢
  have hcell : ∀ x, s'.cell x = if x = d then dest else s.cell x := fun x => by
    rw [ht.cell, cell_setDest]
  -- A destination of the table has paths, one that has left it is not in it.
  have hkept : (if dest.best.isNone = true then s'.dropEmpty d else s') = s' := by
    split
    · have hdests : s'.dests = s.dests := ht.dests
      rw [dropEmpty, if_neg]
      rw [hcell, if_pos rfl, hpaths, hpfx, hdests]
      rintro ⟨hempty, hlive⟩
      exact h.live_paths _ _ hlive (List.isEmpty_iff.mp hempty)
    · rfl
  rw [hkept]
  refine ⟨dest, hpfx, hpaths, hbest, by rw [← hdest]; rfl, hcell, ht.dests, ht.queue,
    by rw [ht.heap]; rfl, hnext, hconfig, ?_, haccounted, ?_⟩
  · intro p best
    simp only [winnerRoute, routeOf, hebgp, hibgp]
    rfl
  · intro q
    rw [hcore, hpfx]
    by_cases hq : q = (s.cell d).pfx
    · rw [if_pos hq, if_pos hq, hq]
      rfl
    · rw [if_neg hq, if_neg hq]
      rfl

namespace Taken

variable {s s' : LocRib} {d : DestId} {dest : BgpDest} {rest : List DestId}

theorem cell_self (h : Taken s s' d dest) : s'.cell d = dest := by rw [h.cell, if_pos rfl]

theorem cell_ne (h : Taken s s' d dest) {x : DestId} (hx : x ≠ d) : s'.cell x = s.cell x := by
  rw [h.cell, if_neg hx]

theorem cell_pfx (h : Taken s s' d dest) (x : DestId) :
    (s'.cell x).pfx = (s.cell x).pfx ∧ (s'.cell x).paths = (s.cell x).paths := by
  by_cases hx : x = d
  · rw [hx, h.cell_self]
    exact ⟨h.pfx, h.paths⟩
  · rw [h.cell_ne hx]
    exact ⟨rfl, rfl⟩

theorem best_none (h : Taken s s' d dest) (ho : Offering (d :: rest) s)
    (hleft : s.dests.get? (s.cell d).pfx ≠ some d) : dest.best = none := by
  rw [h.best, ho.left d List.mem_cons_self hleft, select_nil]

theorem mem_rest (h : Taken s s' d dest) (ho : Offering (d :: rest) s) {x : DestId}
    (hx : x ∈ rest ++ s'.queue) : x ≠ d ∧ x ∈ rest ++ s.queue := by
  rw [h.queue] at hx
  have hout := (List.nodup_cons.mp ho.line_nodup).1
  exact ⟨fun heq => hout (heq ▸ hx), hx⟩

/-- What `d` published is spoken by the next of its prefix, or by itself. -/
theorem spoken_here (h : Taken s s' d dest) (ho : Offering (d :: rest) s) :
    ((s'.speaker (rest ++ s'.queue) (s.cell d).pfx).bind fun x => (s'.cell x).best) =
      dest.best := by
  have hfirst := (List.pairwise_cons.mp ho.order).1
  have hfind : (rest ++ s'.queue).find? (fun x => (s'.cell x).pfx = (s.cell d).pfx) =
      (rest ++ s.queue).find? (fun x => (s.cell x).pfx = (s.cell d).pfx) := by
    rw [h.queue]
    apply find?_congr_of_mem
    intro x _
    rw [(h.cell_pfx x).1]
  rw [speaker, hfind, h.dests]
  cases hnextd : (rest ++ s.queue).find? (fun x => (s.cell x).pfx = (s.cell d).pfx) with
  | some x =>
    have hx := List.mem_of_find?_eq_some hnextd
    have hxpfx : (s.cell x).pfx = (s.cell d).pfx := by simpa using List.find?_some hnextd
    obtain ⟨hleft, hnone⟩ := hfirst x hx hxpfx.symm
    have hxd := (h.mem_rest ho (h.queue ▸ hx)).1
    rw [Option.some_or, Option.bind_some, h.cell_ne hxd, hnone, h.best_none ho hleft]
  | none =>
    rw [Option.none_or]
    by_cases hlive : s.dests.get? (s.cell d).pfx = some d
    · rw [hlive, Option.bind_some, h.cell_self]
    · rw [h.best_none ho hlive]
      cases hother : s.dests.get? (s.cell d).pfx with
      | none => rfl
      | some x =>
        have hxline := ho.line_live d List.mem_cons_self x hother
        have hxd : x ≠ d := fun heq => hlive (by rw [hother, heq])
        have hx := (List.mem_cons.mp hxline).resolve_left hxd
        have hno := List.find?_eq_none.mp hnextd x hx
        exact absurd (ho.live_pfx _ x hother) (by simpa using hno)

/-- The other prefixes have the speaker they had. -/
theorem spoken_other (h : Taken s s' d dest) (ho : Offering (d :: rest) s) {p : Prefix}
    (hp : p ≠ (s.cell d).pfx) :
    ((s'.speaker (rest ++ s'.queue) p).bind fun x => (s'.cell x).best) =
      (s.speaker ((d :: rest) ++ s.queue) p).bind fun x => (s.cell x).best := by
  have hpd : ¬ (s.cell d).pfx = p := fun heq => hp heq.symm
  have hfind : (rest ++ s'.queue).find? (fun x => (s'.cell x).pfx = p) =
      (rest ++ s.queue).find? (fun x => (s.cell x).pfx = p) := by
    rw [h.queue]
    apply find?_congr_of_mem
    intro x _
    rw [(h.cell_pfx x).1]
  rw [speaker, speaker, hfind, h.dests, List.cons_append, List.find?_cons]
  simp only [hpd, decide_false]
  cases hother : ((rest ++ s.queue).find? fun x => (s.cell x).pfx = p).or (s.dests.get? p) with
  | none => rfl
  | some x =>
    have hxd : x ≠ d := by
      rintro rfl
      rcases Option.or_eq_some_iff.mp hother with hfound | ⟨_, hlive⟩
      · exact hpd (by simpa using List.find?_some hfound)
      · exact hpd (ho.live_pfx p x hlive)
    rw [Option.bind_some, Option.bind_some, h.cell_ne hxd]

theorem named (h : Taken s s' d dest) (ho : Offering (d :: rest) s) : Named s'.nextPath dest := by
  rw [h.nextPath]
  apply (ho.named d (Or.inl List.mem_cons_self)).of_subset
  intro p hp
  rcases List.mem_append.mp hp with hbest | hpath
  · rw [Option.mem_toList, h.best] at hbest
    exact List.mem_append_right _ (select_best_mem hbest).1
  · rw [h.paths] at hpath
    exact List.mem_append_right _ hpath

theorem offering (h : Taken s s' d dest) (ho : Offering (d :: rest) s) : Offering rest s' := by
  obtain ⟨hfirst, horder⟩ := List.pairwise_cons.mp ho.order
  constructor
  · rw [h.dests, h.next]
    exact ho.live_lt
  · intro p x hx
    rw [h.dests] at hx
    rw [(h.cell_pfx x).1]
    exact ho.live_pfx p x hx
  · intro p x hx
    rw [h.dests] at hx
    rw [(h.cell_pfx x).2]
    exact ho.live_paths p x hx
  · intro p x hx hqueued
    rw [h.dests] at hx
    by_cases hxd : x = d
    · rw [hxd, h.cell_self, h.queued] at hqueued
      exact absurd hqueued (by simp)
    · rw [h.cell_ne hxd] at hqueued
      rw [h.queue]
      exact (List.mem_cons.mp (ho.live_queued p x hx hqueued)).resolve_left hxd
  · intro x hx
    obtain ⟨hxd, hx⟩ := h.mem_rest ho hx
    rw [h.cell_ne hxd]
    exact ho.line_queued x (List.mem_cons_of_mem _ hx)
  · intro x hx
    rw [h.next]
    exact ho.line_lt x (List.mem_cons_of_mem _ (h.mem_rest ho hx).2)
  · rw [h.queue]
    exact (List.nodup_cons.mp ho.line_nodup).2
  · intro x hx hleft
    obtain ⟨hxd, hx⟩ := h.mem_rest ho hx
    rw [h.cell_ne hxd, h.dests] at hleft
    rw [h.cell_ne hxd]
    exact ho.left x (List.mem_cons_of_mem _ hx) hleft
  · intro x hx y hy
    obtain ⟨hxd, hx⟩ := h.mem_rest ho hx
    rw [h.cell_ne hxd, h.dests] at hy
    rw [h.queue]
    rcases List.mem_cons.mp (ho.line_live x (List.mem_cons_of_mem _ hx) y hy) with rfl | hy'
    · -- `d` is in the table, so nothing behind it is of its prefix.
      have hlater := (hfirst x hx (ho.live_pfx _ _ hy)).1
      rw [ho.live_pfx _ _ hy] at hlater
      exact absurd hy hlater
    · exact hy'
  · rw [h.queue]
    apply horder.imp_of_mem
    intro x y hx hy hxy heq
    rw [(h.cell_pfx x).1, (h.cell_pfx y).1] at heq
    rw [(h.cell_pfx x).1, h.dests, h.cell_ne (h.mem_rest ho (h.queue ▸ hy)).1]
    exact hxy heq
  · intro x hx
    by_cases hxd : x = d
    · rw [hxd, h.cell_self]
      exact h.named ho
    · rw [h.cell_ne hxd, h.nextPath]
      apply ho.named x
      rcases hx with hx | ⟨p, hx⟩
      · exact Or.inl (List.mem_cons_of_mem _ (h.mem_rest ho hx).2)
      · exact Or.inr ⟨p, by rw [← h.dests]; exact hx⟩
  · exact h.accounted
  · intro p
    rw [h.core, h.route]
    by_cases hp : p = (s.cell d).pfx
    · rw [if_pos hp, hp, h.spoken_here ho]
    · rw [if_neg hp, h.spoken_other ho hp]
      exact ho.spoken p

theorem selected (h : Taken s s' d dest) (hs : Selected (d :: rest) s) : Selected rest s' := by
  intro p x hx hnot
  rw [h.dests] at hx
  rw [h.queue] at hnot
  rw [h.config]
  by_cases hxd : x = d
  · rw [hxd, h.cell_self, h.paths]
    exact h.best
  · rw [h.cell_ne hxd]
    apply hs p x hx
    rw [List.cons_append, List.mem_cons, not_or]
    exact ⟨hxd, hnot⟩

end Taken

theorem foldl_reselectDest_offering (todo : List DestId) {s : LocRib} (h : Offering todo s)
    (hs : Selected todo s) : (todo.foldl reselectDest s).Sound := by
  induction todo generalizing s with
  | nil => exact ⟨h, hs⟩
  | cons d todo ih =>
    obtain ⟨_, ht⟩ := reselectDest_taken h
    exact ih (ht.offering h) (ht.selected hs)

/-- Taking the first destinations off the queue. -/
theorem Offering.take {s : LocRib} (ho : Offering [] s) (count : Nat) :
    Offering (s.queue.take count) { s with queue := s.queue.drop count } := by
  have hline : s.queue.take count ++ s.queue.drop count = s.queue :=
    List.take_append_drop count s.queue
  constructor
  · exact ho.live_lt
  · exact ho.live_pfx
  · exact ho.live_paths
  · simp only [hline]
    exact ho.live_queued
  · simp only [hline]
    exact ho.line_queued
  · simp only [hline]
    exact ho.line_lt
  · simp only [hline]
    exact ho.line_nodup
  · simp only [hline]
    exact ho.left
  · simp only [hline]
    exact ho.line_live
  · simp only [hline]
    exact ho.order
  · simp only [hline]
    exact ho.named
  · exact ho.accounted
  · simp only [hline]
    exact ho.spoken

theorem reselect_sound {s : LocRib} (h : s.Sound) (limit : Int) : (s.reselect limit).Sound := by
  rw [reselect]
  generalize (if limit ≤ 0 then s.queue.length else min limit.toNat s.queue.length) = count
  have hline : s.queue.take count ++ s.queue.drop count = s.queue :=
    List.take_append_drop count s.queue
  apply foldl_reselectDest_offering _ (h.1.take count)
  simp only [Selected, hline]
  exact h.2

theorem foldl_retract_core (pfxs : List Prefix) {s : LocRib} (h : s.Accounted) :
    (pfxs.foldl retract s).Accounted ∧
      ∀ q, coreRoutes (pfxs.foldl retract s).published q =
        if q ∈ pfxs then none else coreRoutes s.published q := by
  induction pfxs generalizing s with
  | nil => exact ⟨h, fun q => by simp⟩
  | cons p pfxs ih =>
    obtain ⟨haccounted, hcore⟩ := retract_core h p
    obtain ⟨haccounted', hcore'⟩ := ih haccounted
    refine ⟨haccounted', fun q => ?_⟩
    rw [List.foldl_cons, hcore', hcore]
    by_cases hq : q = p
    · simp [hq]
    · simp [hq]

theorem foldl_unqueue_quiet (held : List DestId) (s : LocRib) :
    Quiet s (held.foldl (fun s d => s.setDest d { s.cell d with queued := false }) s) := by
  induction held generalizing s with
  | nil => exact Quiet.refl s
  | cons d held ih =>
    have hset : Quiet s (s.setDest d { s.cell d with queued := false }) :=
      quiet_of_eq rfl rfl rfl rfl rfl rfl
    exact hset.trans (ih _)

/-- Shutdown takes everything back. -/
theorem clear_core {s : LocRib} (h : s.Accounted) (q : Prefix) :
    coreRoutes s.clear.published q = none := by
  rw [clear]
  dsimp only
  generalize hs₁ : ({ s with
    attrTable := (s.dests.values.flatMap fun d => (s.cell d).paths).foldl
      (fun t (p : BgpPath) => t.release p.attrs p.interned) s.attrTable } : LocRib) = s₁
  have hq₁ : Quiet s s₁ := by
    rw [← hs₁]
    exact quiet_of_eq rfl rfl rfl rfl rfl rfl
  have hq₂ := hq₁.trans (foldl_unqueue_quiet s.dests.values s₁)
  generalize s.dests.values.foldl
    (fun s d => s.setDest d { s.cell d with queued := false }) s₁ = s₂ at hq₂ ⊢
  have hcore := (foldl_retract_core s₂.offered (hq₂.core.accounted h)).2 q
  rw [hcore]
  by_cases hin : q ∈ s₂.offered
  · rw [if_pos hin]
  · rw [if_neg hin]
    have hnone := ((hq₂.core.accounted h) q).not.mp hin
    simpa using hnone

theorem sound_of_empty {s : LocRib} (hd : s.dests = Dict.empty) (hq : s.queue = [])
    (ho : s.offered = []) (hcore : ∀ p, coreRoutes s.published p = none) : s.Sound := by
  have hlive : ∀ p d, s.dests.get? p ≠ some d := fun p d => by simp [hd]
  have hline : ∀ d, d ∉ [] ++ s.queue := fun d => by simp [hq]
  refine ⟨?_, fun p d hx => absurd hx (hlive p d)⟩
  constructor
  · exact fun p d hx => absurd hx (hlive p d)
  · exact fun p d hx => absurd hx (hlive p d)
  · exact fun p d hx => absurd hx (hlive p d)
  · exact fun p d hx => absurd hx (hlive p d)
  · exact fun d hx => absurd hx (hline d)
  · exact fun d hx => absurd hx (hline d)
  · simp [hq]
  · exact fun d hx => absurd hx (hline d)
  · exact fun d hx => absurd hx (hline d)
  · simp [hq]
  · rintro d (hx | ⟨p, hx⟩)
    · exact absurd hx (hline d)
    · exact absurd hx (hlive p d)
  · intro q
    simp [ho, hcore]
  · intro p
    rw [hcore, speaker, hq, hd]
    rfl

theorem new_sound (afi safi : Nat) (attrTable : AttrTable) (config : BestpathConfig)
    (unused : BgpDest) : (new afi safi attrTable config unused).Sound :=
  sound_of_empty rfl rfl rfl fun _ => rfl

theorem clear_sound {s : LocRib} (h : s.Sound) : s.clear.Sound :=
  sound_of_empty rfl rfl rfl (clear_core h.1.accounted)

theorem step_sound {s : LocRib} (hi : s.Indexed) (h : s.Sound) (op : Op) : (s.step op).Sound := by
  cases op with
  | addPath peer pfx arrival =>
    rw [step]
    cases hadd : s.addPath peer pfx arrival with
    | none => exact h
    | some s' =>
      obtain ⟨_, _, _, ht⟩ := addPath_touched h.1 hadd
      exact h.of_touched ht
  | removePath peer pfx pathId =>
    rcases removePath_touched h.1 peer pfx pathId with heq | ⟨_, _, _, ht⟩
    · rw [step, heq]
      exact h
    · exact h.of_touched ht
  | removePeer peer => exact removePeer_sound hi h peer
  | revalidate check => exact revalidate_sound h check
  | reselect limit => exact reselect_sound h limit
  | setConfig config => exact setConfig_sound h config
  | clear => exact clear_sound h

theorem run_sound {s : LocRib} (hi : s.Indexed) (h : s.Sound) (ops : List Op) :
    (s.run ops).Sound := by
  induction ops generalizing s with
  | nil => exact h
  | cons op ops ih => exact ih (step_indexed hi op) (step_sound hi h op)

/-- The best path held for a prefix, by selection under the current configuration. -/
def bestFor (s : LocRib) (p : Prefix) : Option BgpPath := (select (s.pathsFor p) s.config).best

theorem Sound.core_of_drained {s : LocRib} (h : s.Sound) (hqueue : s.queue = [])
    (p : Prefix) : coreRoutes s.published p = s.winnerRoute p (s.bestFor p) := by
  rw [h.1.spoken, speaker, hqueue, bestFor, pathsFor]
  cases hd : s.dests.get? p with
  | none => rfl
  | some d =>
    have hbest := h.2 p d hd (by simp [hqueue])
    rw [← hbest]
    rfl

end LocRib

/-- `PROTO_BGP`. -/
def PROTO_BGP : Nat := 3

/-- A call of a Loc-RIB as the core's RIB receives it.  `oid` is the route object,
`now` the time of the call. -/
def RibCall.toCore (safi source oid : Nat) (now : Int) : RibCall → Rib.RibOp
  | .offer r =>
    .offer ⟨oid, r.pfx, PROTO_BGP, r.adminDistance, r.metric, r.nexthop, source,
      r.recvTime.getD now⟩ safi
  | .retract p => .retract p PROTO_BGP source safi

/-- A call of another origin. -/
def Foreign (source : Nat) : Rib.RibOp → Prop
  | .offer r _ => r.isFrom PROTO_BGP source = false
  | .retract _ protocol other _ => ¬ (protocol = PROTO_BGP ∧ other = source)
  | .retractAll protocol other => ¬ (protocol = PROTO_BGP ∧ other = source)
  | .ensureTable _ => True
  | .selectStep _ => True
  | .select _ => True

/-- The history of a RIB that received these calls of one origin, in this order, among
calls of others. -/
inductive Relays (safi source : Nat) : List RibCall → List Rib.RibOp → Prop where
  | nil : Relays safi source [] []
  | call {calls ops} (call : RibCall) (oid : Nat) (now : Int) :
      Relays safi source calls ops →
      Relays safi source (calls ++ [call]) (ops ++ [call.toCore safi source oid now])
  | other {calls ops} (op : Rib.RibOp) :
      Foreign source op → Relays safi source calls ops →
      Relays safi source calls (ops ++ [op])

/-- The offers of one origin among those for a prefix. -/
def ownOffers (source : Nat) (routes : List Rib.Route) : List Rib.Route :=
  routes.filter fun r => r.isFrom PROTO_BGP source

/-- The RIB has the one route for the prefix, or none. -/
def Carries (p : Prefix) : Option Route → List Rib.Route → Prop
  | none, own => own = []
  | some r, own => ∃ held, own = [held] ∧ held.pfx = p ∧
      held.adminDistance = r.adminDistance ∧ held.metric = r.metric ∧
      held.nexthop = r.nexthop

theorem ownOffers_cons_own {source : Nat} {q : Rib.Route} (hq : q.isFrom PROTO_BGP source = true)
    (rest : List Rib.Route) : ownOffers source (q :: rest) = q :: ownOffers source rest := by
  simp only [ownOffers, List.filter_cons, hq, if_true]

theorem ownOffers_cons_other {source : Nat} {q : Rib.Route}
    (hq : ¬ q.isFrom PROTO_BGP source = true) (rest : List Rib.Route) :
    ownOffers source (q :: rest) = ownOffers source rest := by
  simp only [ownOffers, List.filter_cons, hq]
  rfl

theorem dropOffer_cons (protocol source : Nat) (q : Rib.Route) (rest : List Rib.Route) :
    Rib.RouteTable.dropOffer protocol source (q :: rest) =
      if q.isFrom protocol source = true then rest
      else q :: Rib.RouteTable.dropOffer protocol source rest := by
  simp only [Rib.RouteTable.dropOffer, List.eraseP_cons]
  cases q.isFrom protocol source <;> rfl

theorem find?_own (source : Nat) (routes : List Rib.Route) :
    routes.find? (fun r => r.isFrom PROTO_BGP source) = (ownOffers source routes).head? :=
  (List.head?_filter ..).symm

theorem ownOffers_replace {source : Nat} {r : Rib.Route} (hprotocol : r.protocol = PROTO_BGP)
    (hsource : r.source = source) {routes : List Rib.Route} {old : Rib.Route}
    (h : ownOffers source routes = [old]) :
    ownOffers source (Rib.RouteTable.replaceOffer r routes) = [r] := by
  have hr : r.isFrom PROTO_BGP source = true := by simp [Rib.Route.isFrom, hprotocol, hsource]
  induction routes with
  | nil => exact absurd h (by simp [ownOffers])
  | cons q rest ih =>
    rw [Rib.RouteTable.replaceOffer, hprotocol, hsource]
    by_cases hq : q.isFrom PROTO_BGP source = true
    · rw [ownOffers_cons_own hq] at h
      rw [if_pos hq, ownOffers_cons_own hr, (List.cons.inj h).2]
    · rw [ownOffers_cons_other hq] at h
      rw [if_neg hq, ownOffers_cons_other hq]
      exact ih h

/-- An offer of the origin is its one offer, unless it has one of the same content. -/
theorem ownOffers_put {source : Nat} {r : Rib.Route} (hprotocol : r.protocol = PROTO_BGP)
    (hsource : r.source = source) {routes : List Rib.Route}
    (h : ownOffers source routes = [] ∨ ∃ old, ownOffers source routes = [old]) :
    ownOffers source (Rib.RouteTable.putOffer r routes) = [r] ∨
      ∃ old, ownOffers source (Rib.RouteTable.putOffer r routes) = [old] ∧
        ownOffers source routes = [old] ∧ Rib.sameContent old r = true := by
  have hr : r.isFrom PROTO_BGP source = true := by simp [Rib.Route.isFrom, hprotocol, hsource]
  rw [Rib.RouteTable.putOffer, hprotocol, hsource, find?_own]
  rcases h with hnone | ⟨old, hold⟩
  · left
    rw [hnone]
    simp only [List.head?_nil]
    rw [ownOffers, List.filter_append, ← ownOffers, hnone]
    simp [hr]
  · rw [hold]
    simp only [List.head?_cons]
    by_cases hsame : Rib.sameContent old r = true
    · rw [if_pos hsame]
      exact Or.inr ⟨old, hold, rfl, hsame⟩
    · rw [if_neg hsame]
      exact Or.inl (ownOffers_replace hprotocol hsource hold)

/-- An offer of another origin leaves them alone. -/
theorem ownOffers_put_foreign {source : Nat} {r : Rib.Route}
    (hr : r.isFrom PROTO_BGP source = false) (routes : List Rib.Route) :
    ownOffers source (Rib.RouteTable.putOffer r routes) = ownOffers source routes := by
  have hreplace : ownOffers source (Rib.RouteTable.replaceOffer r routes) =
      ownOffers source routes := by
    induction routes with
    | nil => rfl
    | cons q rest ih =>
      rw [Rib.RouteTable.replaceOffer]
      by_cases hq : q.isFrom r.protocol r.source = true
      · have hown : q.isFrom PROTO_BGP source = false := by
          simp only [Rib.Route.isFrom, Bool.and_eq_true, beq_iff_eq] at hq
          rw [← hr]
          simp only [Rib.Route.isFrom, hq.1, hq.2]
        rw [if_pos hq, ownOffers_cons_other (by simp [hr]), ownOffers_cons_other (by simp [hown])]
      · rw [if_neg hq]
        by_cases hown : q.isFrom PROTO_BGP source = true
        · rw [ownOffers_cons_own hown, ownOffers_cons_own hown, ih]
        · rw [ownOffers_cons_other hown, ownOffers_cons_other hown, ih]
  rw [Rib.RouteTable.putOffer]
  split
  · split
    · rfl
    · exact hreplace
  · rw [ownOffers, List.filter_append]
    simp [hr, ownOffers]

theorem ownOffers_drop (source : Nat) (routes : List Rib.Route) :
    ownOffers source (Rib.RouteTable.dropOffer PROTO_BGP source routes) =
      (ownOffers source routes).tail := by
  induction routes with
  | nil => rfl
  | cons q rest ih =>
    by_cases hq : q.isFrom PROTO_BGP source = true
    · rw [dropOffer_cons, if_pos hq, ownOffers_cons_own hq, List.tail_cons]
    · rw [dropOffer_cons, if_neg hq, ownOffers_cons_other hq, ownOffers_cons_other hq]
      exact ih

theorem ownOffers_drop_foreign {protocol other source : Nat}
    (h : ¬ (protocol = PROTO_BGP ∧ other = source)) (routes : List Rib.Route) :
    ownOffers source (Rib.RouteTable.dropOffer protocol other routes) =
      ownOffers source routes := by
  induction routes with
  | nil => rfl
  | cons q rest ih =>
    by_cases hq : q.isFrom protocol other = true
    · have hown : ¬ q.isFrom PROTO_BGP source = true := by
        intro hown
        simp only [Rib.Route.isFrom, Bool.and_eq_true, beq_iff_eq] at hq hown
        exact h ⟨hq.1.symm.trans hown.1, hq.2.symm.trans hown.2⟩
      rw [dropOffer_cons, if_pos hq, ownOffers_cons_other hown]
    · rw [dropOffer_cons, if_neg hq]
      by_cases hown : q.isFrom PROTO_BGP source = true
      · rw [ownOffers_cons_own hown, ownOffers_cons_own hown, ih]
      · rw [ownOffers_cons_other hown, ownOffers_cons_other hown, ih]

theorem ownOffers_foreign {source : Nat} {op : Rib.RibOp} (h : Foreign source op)
    (offers : Rib.GlobalRib.Offers) (key : Family) (p : Prefix) :
    ownOffers source (Rib.stepOffers offers op key p) = ownOffers source (offers key p) := by
  cases op with
  | offer r safi =>
    simp only [Rib.stepOffers]
    split
    · exact ownOffers_put_foreign h _
    · rfl
  | retract q protocol other safi =>
    simp only [Rib.stepOffers]
    split
    · exact ownOffers_drop_foreign h _
    · rfl
  | retractAll protocol other => exact ownOffers_drop_foreign h _
  | ensureTable _ => rfl
  | selectStep _ => rfl
  | select _ => rfl

theorem Carries.single {p : Prefix} {held : Option Route} {own : List Rib.Route}
    (h : Carries p held own) : own = [] ∨ ∃ old, own = [old] := by
  cases held with
  | none => exact Or.inl h
  | some r =>
    obtain ⟨old, hold, _⟩ := h
    exact Or.inr ⟨old, hold⟩

/-- Whatever others do, the core's RIB carries for an origin what its calls say. -/
theorem Relays.carries {safi source : Nat} {calls : List RibCall} {ops : List Rib.RibOp}
    (h : Relays safi source calls ops) (key : Family) (p : Prefix) :
    Carries p (if key = (p.afi, safi) then coreRoutes calls p else none)
      (ownOffers source (Rib.offersAt ops key p)) := by
  have hsnoc : ∀ (ops : List Rib.RibOp) (op : Rib.RibOp),
      Rib.offersAt (ops ++ [op]) = Rib.stepOffers (Rib.offersAt ops) op := by
    intro ops op
    rw [Rib.offersAt, List.foldl_append]
    rfl
  induction h with
  | nil => split <;> rfl
  | @call calls ops call oid now _ ih =>
    rw [hsnoc]
    cases call with
    | offer r =>
      simp only [RibCall.toCore, Rib.stepOffers]
      by_cases hhere : key = (r.pfx.afi, safi) ∧ p = r.pfx
      · obtain ⟨rfl, rfl⟩ := hhere
        have hself : (r.pfx.afi, safi) = (r.pfx.afi, safi) ∧ r.pfx = r.pfx := ⟨rfl, rfl⟩
        rw [if_pos hself, if_pos rfl, coreRoutes_offer, if_pos rfl]
        have hput := ownOffers_put (r := ⟨oid, r.pfx, PROTO_BGP,
          r.adminDistance, r.metric, r.nexthop, source, r.recvTime.getD now⟩) rfl rfl
          ih.single
        rcases hput with hnew | ⟨old, hkept, hold, hsame⟩
        · exact ⟨_, hnew, rfl, rfl, rfl, rfl⟩
        · simp only [Rib.sameContent, Bool.and_eq_true, beq_iff_eq] at hsame
          refine ⟨old, hkept, ?_, hsame.1.1, hsame.1.2, hsame.2⟩
          rw [hold] at ih
          split at ih
          · cases hcore : coreRoutes calls r.pfx with
            | none => rw [hcore] at ih; exact absurd ih (by simp [Carries])
            | some was =>
              rw [hcore] at ih
              obtain ⟨held, hheld, hpfx, _⟩ := ih
              rw [(List.cons.inj hheld).1]
              exact hpfx
          · exact absurd ih (by simp [Carries])
      · rw [if_neg hhere]
        by_cases hkey : key = (p.afi, safi)
        · have hp : p ≠ r.pfx := fun heq => hhere ⟨by rw [hkey, heq], heq⟩
          rw [if_pos hkey, coreRoutes_offer, if_neg hp]
          rw [if_pos hkey] at ih
          exact ih
        · rw [if_neg hkey]
          rw [if_neg hkey] at ih
          exact ih
    | retract q =>
      simp only [RibCall.toCore, Rib.stepOffers]
      by_cases hhere : key = (q.afi, safi) ∧ p = q
      · obtain ⟨rfl, rfl⟩ := hhere
        have hself : (p.afi, safi) = (p.afi, safi) ∧ p = p := ⟨rfl, rfl⟩
        rw [if_pos hself, if_pos rfl, coreRoutes_retract, if_pos rfl, ownOffers_drop]
        rcases ih.single with hnone | ⟨old, hold⟩
        · rw [hnone]
          rfl
        · rw [hold]
          rfl
      · rw [if_neg hhere]
        by_cases hkey : key = (p.afi, safi)
        · have hp : p ≠ q := fun heq => hhere ⟨by rw [hkey, heq], heq⟩
          rw [if_pos hkey, coreRoutes_retract, if_neg hp]
          rw [if_pos hkey] at ih
          exact ih
        · rw [if_neg hkey]
          rw [if_neg hkey] at ih
          exact ih
  | @other calls ops op hforeign _ ih =>
    rw [hsnoc, ownOffers_foreign hforeign]
    exact ih

namespace LocRib

/-- After any run that ends with the change queue drained, and after a shutdown, the core's RIB
holds of this Loc-RIB exactly the routes of the learned best paths with a next hop a route can
carry, and these are the prefixes it believes it has offered. -/
theorem run_offersExactly (afi safi source : Nat) (attrTable : AttrTable)
    (config : BestpathConfig) (unused : BgpDest) (ops : List Op) {s : LocRib}
    (hs : s = (new afi safi attrTable config unused).run ops) (hdrained : s.pending = 0)
    {history : List Rib.RibOp} (hhistory : Relays safi source s.published history) :
    (∀ p, Carries p (s.winnerRoute p (s.bestFor p))
      (ownOffers source (Rib.offersAt history (p.afi, safi) p))) ∧
    (∀ key p, key ≠ (p.afi, safi) → ownOffers source (Rib.offersAt history key p) = []) ∧
    (∀ p, p ∈ s.offered ↔ (s.winnerRoute p (s.bestFor p)).isSome = true) ∧
    (∀ p, s.clear.offered = [] ∧ coreRoutes s.clear.published p = none) := by
  have hnew := new_indexed afi safi attrTable config unused
  have hsound : s.Sound := by
    rw [hs]
    exact run_sound hnew (new_sound afi safi attrTable config unused) ops
  have hcore := hsound.core_of_drained (List.length_eq_zero_iff.mp hdrained)
  refine ⟨?_, ?_, ?_, fun p => ⟨rfl, clear_core hsound.1.accounted p⟩⟩
  · intro p
    have hcarries := hhistory.carries (p.afi, safi) p
    rw [if_pos rfl, hcore p] at hcarries
    exact hcarries
  · intro key p hkey
    have hcarries := hhistory.carries key p
    rw [if_neg hkey] at hcarries
    exact hcarries
  · intro p
    rw [hsound.1.accounted p, hcore p]

/-- A Loc-RIB of IPv4 unicast in which one path arrived and the queue was drained. -/
def afterArrival (a : Arrival) : LocRib :=
  (new AFI_IP SAFI_UNICAST AttrTable.empty plainConfig (BgpDest.new netTen)).run
    [.addPath (externalPeer 1) netTen a, .reselect 0]

theorem run_offersExactly_one : (afterArrival (arrivalVia true)).pending = 0 ∧
    ∃ history, Relays SAFI_UNICAST 7 (afterArrival (arrivalVia true)).published history ∧
      ∃ held, ownOffers 7 (Rib.offersAt history IPV4_UNICAST netTen) = [held] ∧
        held.nexthop = [192, 0, 2, 1] ∧ held.adminDistance = 20 := by
  have hdrained : (afterArrival (arrivalVia true)).pending = 0 := by decide +kernel
  have hcalls : (afterArrival (arrivalVia true)).published =
      [] ++ [.offer ⟨netTen, 20, 0, [192, 0, 2, 1], some 1⟩] := by decide +kernel
  have hhistory : Relays SAFI_UNICAST 7 (afterArrival (arrivalVia true)).published
      ([] ++ [RibCall.toCore SAFI_UNICAST 7 0 0
        (.offer ⟨netTen, 20, 0, [192, 0, 2, 1], some 1⟩)]) := by
    rw [hcalls]
    exact Relays.nil.call _ 0 0
  have hroute : (afterArrival (arrivalVia true)).winnerRoute netTen
      ((afterArrival (arrivalVia true)).bestFor netTen) =
      some ⟨netTen, 20, 0, [192, 0, 2, 1], some 1⟩ := by decide +kernel
  have hcarries := (run_offersExactly AFI_IP SAFI_UNICAST 7 AttrTable.empty plainConfig
    (BgpDest.new netTen) [.addPath (externalPeer 1) netTen (arrivalVia true), .reselect 0]
    rfl hdrained hhistory).1 netTen
  refine ⟨hdrained, _, hhistory, ?_⟩
  have hcarries' : Carries netTen (some ⟨netTen, 20, 0, [192, 0, 2, 1], some 1⟩) _ :=
    hroute ▸ hcarries
  obtain ⟨held, hheld, _, hdistance, _, hnexthop⟩ := hcarries'
  exact ⟨held, hheld, hnexthop, hdistance⟩

/-- A path from a peer with an empty next hop is offered. -/
theorem not_offered_nexthop :
    ¬ ∀ p ∈ (afterArrival { arrivalVia true with attrs := default }).offered,
      ∃ b, (afterArrival { arrivalVia true with attrs := default }).bestFor p = some b ∧
        (b.attrs.nexthop.length = 4 ∨ b.attrs.nexthop.length = 16) := by
  intro h
  have hoffered : netTen ∈
      (afterArrival { arrivalVia true with attrs := default }).offered := by decide +kernel
  have hempty : ((afterArrival { arrivalVia true with attrs := default }).bestFor
      netTen).map (fun b => b.attrs.nexthop.length) = some 0 := by decide +kernel
  obtain ⟨b, hb, hlength⟩ := h netTen hoffered
  rw [hb, Option.map_some, Option.some.injEq] at hempty
  omega

end LocRib

end Packets
