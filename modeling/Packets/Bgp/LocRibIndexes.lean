/-
Exactness of the Loc-RIB's tables and reverse indexes.

The next-hop index is only pruned where a path leaves, so inside an operation one destination
may be filed under next hops it has stopped using (`stale`).
-/
import Packets.Bgp.LocRibPaths

namespace Packets

namespace LocRib

/-- A destination in the table has a path through a next hop. -/
def Uses (s : LocRib) (nexthop : Bytes) (pfx : Prefix) (d : DestId) : Prop :=
  s.dests.get? pfx = some d ∧ ∃ p ∈ (s.cell d).paths, p.attrs.nexthop = nexthop

theorem usesNexthop_iff {dest : BgpDest} {nexthop : Bytes} :
    usesNexthop dest nexthop = true ↔ ∃ p ∈ dest.paths, p.attrs.nexthop = nexthop := by
  simp [usesNexthop]

/-- Inside an operation on `d`: every filed destination is in use, but for `d` under
the next hops still to be cleaned up. -/
structure FiledBut (d : DestId) (stale : Bytes → Prop) (s : LocRib) : Prop where
  named : s.nhDests.get? [] = none
  used : ∀ {nh q x}, s.Files nh q x → s.Uses nh q x ∨ (x = d ∧ q = (s.cell d).pfx ∧ stale nh)

/-- Between operations: destinations in the table have paths, and only destinations
with a path through it are filed under a next hop. -/
structure Exact (s : LocRib) : Prop where
  nonempty : ∀ {q d}, s.dests.get? q = some d → (s.cell d).paths ≠ []
  used : ∀ {nh q d}, s.Files nh q d → s.Uses nh q d

theorem SameTable.uses {s s' : LocRib} (h : SameTable s s') {nh : Bytes} {q : Prefix}
    {d : DestId} : s'.Uses nh q d ↔ s.Uses nh q d := by
  rw [Uses, Uses, h.dests, h.cell]

/-- Unfiling leaves a destination under the next hop only while it uses it. -/
theorem uses_of_files_unindexNexthop {s : LocRib} {nexthop : Bytes} {d : DestId}
    (hnh : nexthop ≠ []) (h : (s.unindexNexthop nexthop d).Files nexthop (s.cell d).pfx d) :
    s.Uses nexthop (s.cell d).pfx d := by
  rw [unindexNexthop, if_neg hnh] at h
  cases hdests : s.nhDests.get? nexthop with
  | none =>
    rw [hdests] at h
    obtain ⟨dests, hget, _⟩ := h
    rw [hdests] at hget
    exact absurd hget (by simp)
  | some dests =>
    rw [hdests] at h
    dsimp only at h
    by_cases hfiled : dests.get? (s.cell d).pfx ≠ some d
    · rw [if_pos hfiled] at h
      obtain ⟨found, hfound, hd⟩ := h
      rw [hdests, Option.some.injEq] at hfound
      subst hfound
      exact absurd hd hfiled
    · rw [if_neg hfiled] at h
      by_cases hused : s.dests.get? (s.cell d).pfx = some d ∧ usesNexthop (s.cell d) nexthop = true
      · exact ⟨hused.1, usesNexthop_iff.mp hused.2⟩
      · rw [if_neg hused, files_fileNexthop, if_pos rfl, Dict.get?_erase, if_pos rfl] at h
        exact absurd h (by simp)

theorem FiledBut.unindexNexthop {s : LocRib} {d : DestId} {stale : Bytes → Prop}
    (h : FiledBut d stale s) (nexthop : Bytes) :
    FiledBut d (fun nh => stale nh ∧ nh ≠ nexthop) (s.unindexNexthop nexthop d) where
  named := unindexNexthop_named h.named nexthop d
  used {nh q x} hfiles := by
    have ht := unindexNexthop_sameTable s nexthop d
    rw [ht.uses, ht.cell]
    rcases h.used (files_of_unindexNexthop hfiles) with huses | ⟨hx, hq, hstale⟩
    · exact Or.inl huses
    · by_cases hnh : nh = nexthop
      · left
        subst hx hq hnh
        apply uses_of_files_unindexNexthop _ hfiles
        rintro rfl
        obtain ⟨dests, hget, _⟩ := files_of_unindexNexthop hfiles
        rw [h.named] at hget
        exact absurd hget (by simp)
      · exact Or.inr ⟨hx, hq, hstale, hnh⟩

/-- Unfiling a destination from the next hop of every path it lost. -/
theorem FiledBut.foldl_unindexNexthop (gone : List BgpPath) {s : LocRib} {d : DestId}
    {stale : Bytes → Prop} (h : FiledBut d stale s) :
    FiledBut d (fun nh => stale nh ∧ ∀ p ∈ gone, nh ≠ p.attrs.nexthop)
      (gone.foldl (fun s p => s.unindexNexthop p.attrs.nexthop d) s) := by
  induction gone generalizing s stale with
  | nil =>
    refine ⟨h.named, fun hfiles => (h.used hfiles).imp_right ?_⟩
    rintro ⟨hx, hq, hstale⟩
    exact ⟨hx, hq, hstale, by simp⟩
  | cons p gone ih =>
    have hrest := ih (h.unindexNexthop p.attrs.nexthop)
    refine ⟨hrest.named, fun hfiles => (hrest.used hfiles).imp_right ?_⟩
    rintro ⟨hx, hq, ⟨hstale, hne⟩, hgone⟩
    exact ⟨hx, hq, hstale, List.forall_mem_cons.mpr ⟨hne, hgone⟩⟩

/-- A destination that lost the paths `gone`, and was let go of if none is left, is
filed under no next hop it does not use but those of `gone`. -/
theorem removed_filedBut {s s₁ : LocRib} (hw : s.Wf) (he : s.Exact) {pfx : Prefix} {d : DestId}
    (hd : s.dests.get? pfx = some d) (dest : BgpDest) (gone : List BgpPath)
    (hpfx : dest.pfx = (s.cell d).pfx) (hgone : ∀ p ∈ (s.cell d).paths, p ∈ dest.paths ∨ p ∈ gone)
    (ht : SameTable (s.setDest d dest) s₁) (hn : SameNexthops (s.setDest d dest) s₁) :
    FiledBut d (fun nh => ∃ p ∈ gone, p.attrs.nexthop = nh) ((s₁.enqueue d).dropEmpty d) ∧
      ∀ {q x}, ((s₁.enqueue d).dropEmpty d).dests.get? q = some x →
        (((s₁.enqueue d).dropEmpty d).cell x).paths ≠ [] := by
  have hn₁ : SameNexthops s s₁ := ⟨hn.nhDests, hn.nhState⟩
  have hn₂ : SameNexthops s ((s₁.enqueue d).dropEmpty d) :=
    hn₁.trans ((enqueue_sameNexthops s₁ d).trans (dropEmpty_sameNexthops _ d))
  have hcell : ∀ x, ((s₁.enqueue d).dropEmpty d).cell x =
      if x = d then { dest with queued := true } else s.cell x := by
    intro x
    rw [dropEmpty_cell, enqueue_cell, ht.cell, ht.cell, cell_setDest, cell_setDest, if_pos rfl]
    by_cases hx : x = d
    · rw [if_pos hx, if_pos hx]
    · rw [if_neg hx, if_neg hx, if_neg hx]
  have hcelld : (s₁.enqueue d).cell d = { dest with queued := true } := by
    rw [← dropEmpty_cell (s₁.enqueue d) d, hcell, if_pos rfl]
  have hdpfx : dest.pfx = pfx := hpfx.trans (hw.pfx_eq hd)
  have hdests : ∀ q, ((s₁.enqueue d).dropEmpty d).dests.get? q =
      if q = pfx ∧ dest.paths = [] then none else s.dests.get? q := by
    intro q
    have hlive : (s₁.enqueue d).dests = s.dests := by
      rw [enqueue_dests, ht.dests]
      rfl
    rw [dropEmpty, hcelld, hlive]
    by_cases hempty : dest.paths = []
    · rw [if_pos ⟨by simp [hempty], by rw [hdpfx]; exact hd⟩, hdpfx, Dict.get?_erase]
      simp [hempty]
    · rw [if_neg (by simp [hempty]), if_neg (by simp [hempty]), hlive]
  have hold : ∀ {q x}, s.dests.get? q = some x → x = d → q = pfx := by
    rintro q x hx rfl
    exact (hw.pfx_eq hx).symm.trans (hw.pfx_eq hd)
  refine ⟨⟨by rw [hn₂.nhDests]; exact hw.named, ?_⟩, ?_⟩
  · intro nh q x hfiles
    obtain ⟨hx, p, hp, hnh⟩ := he.used (hn₂.files.mp hfiles)
    by_cases hxd : x = d
    · have hq := hold hx hxd
      subst hxd
      rcases hgone p hp with hstay | hleft
      · left
        refine ⟨?_, p, ?_, hnh⟩
        · rw [hdests, if_neg fun hno => ?_]
          · exact hx
          · rw [hno.2] at hstay
            exact absurd hstay (by simp)
        · rw [hcell, if_pos rfl]
          exact hstay
      · right
        refine ⟨rfl, ?_, p, hleft, hnh⟩
        rw [hcell, if_pos rfl, hq]
        exact hdpfx.symm
    · left
      refine ⟨?_, p, ?_, hnh⟩
      · rw [hdests, if_neg fun hno => ?_]
        · exact hx
        · rw [hno.1, hd] at hx
          exact hxd (Option.some.inj hx).symm
      · rw [hcell, if_neg hxd]
        exact hp
  · intro q x hx
    rw [hdests] at hx
    rw [hcell]
    by_cases hxd : x = d
    · rw [if_pos hxd]
      intro hempty
      by_cases hq : q = pfx
      · rw [if_pos ⟨hq, hempty⟩] at hx
        exact absurd hx (by simp)
      · rw [if_neg fun h => hq h.1] at hx
        exact hq (hold hx hxd)
    · rw [if_neg hxd]
      by_cases hno : q = pfx ∧ dest.paths = []
      · rw [if_pos hno] at hx
        exact absurd hx (by simp)
      · rw [if_neg hno] at hx
        exact he.nonempty hx

/-- Unfiling the next hops of the paths that left makes the indexes exact again. -/
theorem remove_exact {s s₁ : LocRib} (hw : s.Wf) (he : s.Exact) {pfx : Prefix} {d : DestId}
    (hd : s.dests.get? pfx = some d) (dest : BgpDest) (gone : List BgpPath)
    (hpfx : dest.pfx = (s.cell d).pfx) (hgone : ∀ p ∈ (s.cell d).paths, p ∈ dest.paths ∨ p ∈ gone)
    (ht : SameTable (s.setDest d dest) s₁) (hn : SameNexthops (s.setDest d dest) s₁) :
    (gone.foldl (fun s p => s.unindexNexthop p.attrs.nexthop d)
      ((s₁.enqueue d).dropEmpty d)).Exact := by
  obtain ⟨hbut, hnonempty⟩ := removed_filedBut hw he hd dest gone hpfx hgone ht hn
  have hfiled := hbut.foldl_unindexNexthop gone
  have hsame := foldl_unindexNexthop_sameTable gone d ((s₁.enqueue d).dropEmpty d)
  constructor
  · intro q x hx
    rw [hsame.dests] at hx
    rw [hsame.cell]
    exact hnonempty hx
  · intro nh q x hfiles
    rcases hfiled.used hfiles with huses | ⟨_, _, ⟨p, hp, hnh⟩, hno⟩
    · exact huses
    · exact absurd hnh.symm (hno p hp)

theorem mem_or_eq_of_eraseP {paths : List BgpPath} {peer : PeerRef} {pathId : Nat}
    {path : BgpPath} (hfind : paths.find? (fun p => p.isFrom peer pathId) = some path)
    {p : BgpPath} (hp : p ∈ paths) :
    p ∈ paths.eraseP (fun p => p.isFrom peer pathId) ∨ p = path := by
  induction paths with
  | nil => exact absurd hp (by simp)
  | cons q rest ih =>
    by_cases hq : q.isFrom peer pathId = true
    · simp only [List.find?_cons, hq, Option.some.injEq] at hfind
      simp only [List.eraseP_cons, hq, cond_true]
      rcases List.mem_cons.mp hp with rfl | hrest
      · exact Or.inr hfind
      · exact Or.inl hrest
    · simp only [List.find?_cons, hq] at hfind
      simp only [List.eraseP_cons, hq, cond_false]
      rcases List.mem_cons.mp hp with rfl | hrest
      · exact Or.inl List.mem_cons_self
      · exact (ih hfind hrest).imp_left (List.mem_cons_of_mem q)

theorem removePath_exact {s : LocRib} (hw : s.Wf) (he : s.Exact) (peer : PeerRef)
    (pfx : Prefix) (pathId : Nat) : (s.removePath peer pfx pathId).Exact := by
  unfold removePath
  split
  · exact he
  · rename_i d hd
    split
    · exact he
    · rename_i path hpath
      let s₁ := { s.setDest d ((s.cell d).remove peer pathId) with
        pathCount := s.pathCount - 1
        attrTable := s.attrTable.release path.attrs path.interned }
      let s₂ := if s₁.peerHas peer d then s₁ else s₁.indexRemove peer pfx
      have hsame : SameTable s₁ s₂ ∧ SameNexthops s₁ s₂ := by
        dsimp only [s₂]
        by_cases hhas : s₁.peerHas peer d = true
        · rw [if_pos hhas]
          exact ⟨SameTable.refl s₁, SameNexthops.refl s₁⟩
        · rw [if_neg hhas]
          exact ⟨indexRemove_sameTable s₁ peer pfx, indexRemove_sameNexthops s₁ peer pfx⟩
      have ht₁ : SameTable (s.setDest d ((s.cell d).remove peer pathId)) s₁ := ⟨rfl, rfl, rfl, rfl⟩
      have hn₁ : SameNexthops (s.setDest d ((s.cell d).remove peer pathId)) s₁ := ⟨rfl, rfl⟩
      have ht := ht₁.trans hsame.1
      have hn := hn₁.trans hsame.2
      refine remove_exact hw he hd ((s.cell d).remove peer pathId) [path] rfl ?_ ht hn
      intro p hp
      exact (mem_or_eq_of_eraseP hpath hp).imp_right List.mem_singleton.mpr

theorem removePeerFrom_exact {s : LocRib} (hw : s.Wf) (he : s.Exact) (peer : PeerRef)
    {pfx : Prefix} {d : DestId} (hd : s.dests.get? pfx = some d) :
    (removePeerFrom peer s d).Exact := by
  let gone := (s.cell d).paths.filter fun p => p.peer.oid == peer.oid
  let s₁ := { s with
    attrTable := gone.foldl (fun t (p : BgpPath) => t.release p.attrs p.interned) s.attrTable }
  have hw₁ : s₁.Wf := hw.of_same ⟨rfl, rfl, rfl, rfl⟩ ⟨rfl, rfl⟩
  have he₁ : s₁.Exact := ⟨he.nonempty, he.used⟩
  unfold removePeerFrom
  dsimp only
  split
  · exact he₁
  · refine remove_exact hw₁ he₁ hd ((s₁.cell d).removePeer peer) gone rfl ?_
      ⟨rfl, rfl, rfl, rfl⟩ ⟨rfl, rfl⟩
    intro p hp
    by_cases hfrom : p.peer.oid = peer.oid
    · exact Or.inr (List.mem_filter.mpr ⟨hp, by simpa using hfrom⟩)
    · exact Or.inl (List.mem_filter.mpr ⟨hp, by simpa using hfrom⟩)

theorem foldl_removePeerFrom_exact (peer : PeerRef) (entries : List (Prefix × DestId))
    (hnodup : (entries.map Prod.fst).Nodup) {s : LocRib} (hw : s.Wf) (he : s.Exact)
    (hlive : ∀ e ∈ entries, s.dests.get? e.1 = some e.2) :
    ((entries.map Prod.snd).foldl (removePeerFrom peer) s).Exact := by
  induction entries generalizing s with
  | nil => exact he
  | cons entry entries ih =>
    simp only [List.map_cons, List.nodup_cons] at hnodup
    have hd := hlive entry List.mem_cons_self
    have hother := (removePeerFrom_paths hw peer hd).2.2.1
    apply ih hnodup.2 (removePeerFrom_spec hw peer entry.2).1 (removePeerFrom_exact hw he peer hd)
    intro e hmem
    rw [hother e.1 fun heq => hnodup.1 (heq ▸ List.mem_map.mpr ⟨e, hmem, rfl⟩)]
    exact hlive e (List.mem_cons_of_mem entry hmem)

theorem removePeer_exact {s : LocRib} (h : s.Indexed) (he : s.Exact) (peer : PeerRef) :
    (s.removePeer peer).Exact := by
  unfold removePeer
  split
  · exact he
  · rename_i contributed hpeer
    have hw₁ : ({ s with byPeer := s.byPeer.erase peer.oid } : LocRib).Wf :=
      h.wf.of_same ⟨rfl, rfl, rfl, rfl⟩ ⟨rfl, rfl⟩
    refine foldl_removePeerFrom_exact peer contributed.entries contributed.nodup hw₁
      ⟨he.nonempty, he.used⟩ ?_
    intro e hmem
    have hget := Dict.mem_entries_iff.mp hmem
    exact ((h.exact peer.oid e.1 e.2).mp ⟨contributed, hpeer, hget⟩).1

/-- The destination of a prefix is the one in the table, or a new empty one. -/
theorem dest_cases {s s' : LocRib} {pfx : Prefix} {d : DestId} (h : s.dest pfx = some (s', d)) :
    (s.dests.get? pfx = some d ∧ s' = s) ∨
      (s.dests.get? pfx = none ∧ d = s.heap.next ∧
        s' = { s with
          heap := s.heap.alloc (BgpDest.new pfx)
          dests := s.dests.set pfx s.heap.next }) := by
  rw [dest] at h
  by_cases hafi : pfx.afi ≠ s.afi
  · rw [if_pos hafi] at h
    exact absurd h (by simp)
  · rw [if_neg hafi] at h
    cases hget : s.dests.get? pfx with
    | some x =>
      rw [hget] at h
      simp only [Option.some.injEq, Prod.mk.injEq] at h
      exact Or.inl ⟨congrArg some h.2, h.1.symm⟩
    | none =>
      rw [hget] at h
      simp only [Option.some.injEq, Prod.mk.injEq] at h
      exact Or.inr ⟨rfl, h.2.symm, h.1.symm⟩

/-- A path is still there after an arrival unless the arrival replaced it. -/
theorem mem_putPath_or_replaced (path : BgpPath) {p : BgpPath} {paths : List BgpPath}
    (hp : p ∈ paths) : p ∈ putPath path paths ∨
      paths.find? (fun p => p.isFrom path.peer path.pathId) = some p := by
  induction paths with
  | nil => exact absurd hp (by simp)
  | cons old rest ih =>
    by_cases hold : old.isFrom path.peer path.pathId = true
    · simp only [putPath, hold, if_true, List.find?_cons]
      rcases List.mem_cons.mp hp with rfl | hrest
      · exact Or.inr rfl
      · exact Or.inl (List.mem_cons_of_mem path hrest)
    · simp only [putPath, hold, List.find?_cons]
      rcases List.mem_cons.mp hp with rfl | hrest
      · exact Or.inl List.mem_cons_self
      · exact (ih hrest).imp_left (List.mem_cons_of_mem old)

theorem files_of_indexNexthop {s : LocRib} {nexthop nh : Bytes} {d x : DestId}
    {resolved : Bool} {igpMetric : Nat} {q : Prefix}
    (h : (s.indexNexthop nexthop d resolved igpMetric).Files nh q x) :
    s.Files nh q x ∨ (nh = nexthop ∧ q = (s.cell d).pfx ∧ x = d) := by
  by_cases hempty : nexthop = []
  · rw [indexNexthop, if_pos hempty] at h
    exact Or.inl h
  · rw [indexNexthop, if_neg hempty] at h
    obtain ⟨dests, hdests, hx⟩ := h
    by_cases hnh : nh = nexthop
    · simp only [Dict.get?_set, hnh, if_true, Option.some.injEq] at hdests
      subst hdests
      rw [Dict.get?_set] at hx
      by_cases hq : q = (s.cell d).pfx
      · rw [if_pos hq, Option.some.injEq] at hx
        exact Or.inr ⟨hnh, hq, hx.symm⟩
      · rw [if_neg hq] at hx
        cases hfound : s.nhDests.get? nexthop with
        | none => rw [hfound] at hx; exact absurd hx (by simp)
        | some found =>
          rw [hfound] at hx
          exact Or.inl ⟨found, hnh ▸ hfound, hx⟩
    · simp only [Dict.get?_set, hnh, if_false] at hdests
      exact Or.inl ⟨dests, hdests, hx⟩

/-- What is filed once an arrival is in the table: what was in use, and the
destination under the next hop of the path that was replaced. -/
theorem arrived_filedBut {s s₁ : LocRib} (hw : s.Wf) (he : s.Exact) {pfx : Prefix}
    {d : DestId} (hdest : s.dest pfx = some (s₁, d)) (path : BgpPath) :
    FiledBut d (fun nh => ∃ old, (s₁.cell d).find path.peer path.pathId = some old ∧
        old.attrs.nexthop = nh) (s₁.setDest d ((s₁.cell d).add path)) ∧
      ∀ {q x}, (s₁.setDest d ((s₁.cell d).add path)).dests.get? q = some x →
        ((s₁.setDest d ((s₁.cell d).add path)).cell x).paths ≠ [] := by
  have hput : (putPath path (s₁.cell d).paths) ≠ [] := List.ne_nil_of_mem (mem_putPath_self path _)
  have hlive : s₁.dests.get? pfx = some d := (dest_spec hw hdest).2.1
  have hnexthops : SameNexthops s s₁ := (dest_spec hw hdest).2.2.1
  have hw₁ : s₁.Wf := (dest_spec hw hdest).1
  have hother : ∀ {q x}, s.dests.get? q = some x →
      s₁.dests.get? q = some x ∧ s₁.cell x = s.cell x := by
    intro q x hx
    rcases dest_cases hdest with ⟨_, rfl⟩ | ⟨hnone, _, rfl⟩
    · exact ⟨hx, rfl⟩
    · have hne : x ≠ s.heap.next := Nat.ne_of_lt (hw.allocated hx)
      have hq : q ≠ pfx := by
        rintro rfl
        rw [hnone] at hx
        exact absurd hx (by simp)
      exact ⟨by simp [hq, hx], by simp [cell, hne]⟩
  have hback : ∀ {q x}, s₁.dests.get? q = some x → x ≠ d → s.dests.get? q = some x := by
    intro q x hx hxd
    rcases dest_cases hdest with ⟨_, rfl⟩ | ⟨_, rfl, rfl⟩
    · exact hx
    · simp only [Dict.get?_set] at hx
      by_cases hq : q = pfx
      · rw [if_pos hq, Option.some.injEq] at hx
        exact absurd hx.symm hxd
      · rwa [if_neg hq] at hx
  refine ⟨⟨?_, ?_⟩, ?_⟩
  · have hnamed := hw.named
    rw [← hnexthops.nhDests] at hnamed
    exact hnamed
  · intro nh q x hfiles
    obtain ⟨hx, p, hp, hnh⟩ := he.used (hnexthops.files.mp hfiles)
    obtain ⟨hx₁, hcell⟩ := hother hx
    by_cases hxd : x = d
    · subst hxd
      rw [← hcell] at hp
      rcases mem_putPath_or_replaced path hp with hstay | hgone
      · exact Or.inl ⟨hx₁, p, by simpa [BgpDest.add] using hstay, hnh⟩
      · refine Or.inr ⟨rfl, ?_, p, hgone, hnh⟩
        rw [cell_setDest, if_pos rfl]
        exact (hw₁.pfx_eq hx₁).symm
    · refine Or.inl ⟨hx₁, p, ?_, hnh⟩
      rw [cell_setDest, if_neg hxd, hcell]
      exact hp
  · intro q x hx
    rw [cell_setDest]
    by_cases hxd : x = d
    · rw [if_pos hxd]
      exact hput
    · have hxs := hback hx hxd
      rw [if_neg hxd, (hother hxs).2]
      exact he.nonempty hxs

/-- Releasing the path an arrival replaced unfiles its next hop. -/
theorem FiledBut.settleReplaced {s : LocRib} {d : DestId} {pfx : Prefix}
    (hd : s.dests.get? pfx = some d) (hpfx : (s.cell d).pfx = pfx) {nexthop : Bytes}
    (hused : ∃ p ∈ (s.cell d).paths, p.attrs.nexthop = nexthop) {replaced : Option BgpPath}
    (h : FiledBut d (fun nh => ∃ old, replaced = some old ∧ old.attrs.nexthop = nh) s) :
    FiledBut d (fun _ => False) (s.settleReplaced d nexthop replaced) := by
  cases replaced with
  | none =>
    refine ⟨h.named, fun hfiles => (h.used hfiles).imp_right ?_⟩
    rintro ⟨_, _, old, hold, _⟩
    exact absurd hold (by simp)
  | some old =>
    have hreleased : FiledBut d (fun nh => ∃ old', some old = some old' ∧ old'.attrs.nexthop = nh)
        { s with attrTable := s.attrTable.release old.attrs old.interned } :=
      ⟨h.named, fun hfiles => h.used hfiles⟩
    rw [LocRib.settleReplaced]
    by_cases hne : old.attrs.nexthop ≠ nexthop
    · rw [if_pos hne]
      have hunfiled := hreleased.unindexNexthop old.attrs.nexthop
      refine ⟨hunfiled.named, fun hfiles => (hunfiled.used hfiles).imp_right ?_⟩
      rintro ⟨_, _, ⟨old', hold, hnh⟩, hno⟩
      rw [Option.some.injEq] at hold
      subst hold
      exact absurd hnh.symm hno
    · rw [if_neg hne]
      refine ⟨hreleased.named, fun hfiles => Or.inl ?_⟩
      rcases hreleased.used hfiles with huses | ⟨hx, hq, old', hold, hnh⟩
      · exact huses
      · rw [Option.some.injEq] at hold
        subst hold hx
        rw [not_not] at hne
        refine ⟨?_, ?_⟩
        · rw [hq]
          change s.dests.get? (s.cell _).pfx = some _
          rw [hpfx]
          exact hd
        · rw [← hnh, hne]
          exact hused

theorem addPath_exact {s s' : LocRib} {peer : PeerRef} {pfx : Prefix} {a : Arrival}
    (hw : s.Wf) (he : s.Exact) (hadd : s.addPath peer pfx a = some s') : s'.Exact := by
  unfold addPath at hadd
  split at hadd
  · simp at hadd
  rename_i s₁ d hdest
  simp only [Option.some.injEq] at hadd
  let path := a.path s₁.nextPath (s₁.attrTable.intern a.attrs).2 peer (s₁.cell d)
  let s₂ := { s₁ with
    attrTable := (s₁.attrTable.intern a.attrs).1
    nextPath := s₁.nextPath + 1 }
  let s₃ := s₂.setDest d ((s₂.cell d).add path)
  let s₄ := s₃.settleReplaced d a.attrs.nexthop ((s₁.cell d).find peer a.pathId)
  let s₅ := s₄.indexAdd peer d
  let s₆ := s₅.indexNexthop a.attrs.nexthop d a.resolved a.igpMetric
  change s₆.enqueue d = s' at hadd
  obtain ⟨hw₁, hd, -, -, -, -⟩ := dest_spec hw hdest
  obtain ⟨hbut, hnonempty⟩ := arrived_filedBut hw he hdest path
  have hpfx₃ : (s₃.cell d).pfx = pfx := by
    rw [cell_setDest, if_pos rfl]
    exact hw₁.pfx_eq hd
  have huses₃ : ∃ p ∈ (s₃.cell d).paths, p.attrs.nexthop = a.attrs.nexthop := by
    refine ⟨path, ?_, rfl⟩
    rw [cell_setDest, if_pos rfl]
    exact mem_putPath_self path _
  have hbut₃ : FiledBut d (fun nh => ∃ old,
      (s₁.cell d).find peer a.pathId = some old ∧ old.attrs.nexthop = nh) s₃ :=
    ⟨hbut.named, fun hfiles => hbut.used hfiles⟩
  have hd₃ : s₃.dests.get? pfx = some d := hd
  have hbut₄ : FiledBut d (fun _ => False) s₄ := hbut₃.settleReplaced hd₃ hpfx₃ huses₃
  have ht₅ : SameTable s₃ s₅ :=
    (settleReplaced_sameTable s₃ d _ _).trans (indexAdd_sameTable s₄ peer d)
  have ht₆ : SameTable s₃ s₆ := ht₅.trans (indexNexthop_sameTable s₅ _ d _ _)
  have huses : ∀ {nh q x}, s'.Uses nh q x ↔ s₃.Uses nh q x := by
    intro nh q x
    rw [← ht₆.uses, ← hadd, Uses, Uses, enqueue_dests, enqueue_cell]
    by_cases hx : x = d
    · rw [if_pos hx, hx]
    · rw [if_neg hx]
  constructor
  · intro q x hx hempty
    rw [← hadd, enqueue_dests, ht₆.dests] at hx
    apply hnonempty (q := q) hx
    rw [← hadd, enqueue_cell, ht₆.cell, ht₆.cell] at hempty
    by_cases hxd : x = d
    · rw [if_pos hxd] at hempty
      rw [hxd]
      exact hempty
    · rwa [if_neg hxd] at hempty
  · intro nh q x hfiles
    rw [huses]
    rw [← hadd, (enqueue_sameNexthops s₆ d).files] at hfiles
    rcases files_of_indexNexthop hfiles with hold | ⟨rfl, hq, rfl⟩
    · have hfiles₄ : s₄.Files nh q x := hold
      rcases hbut₄.used hfiles₄ with huse | ⟨_, _, hfalse⟩
      · exact (settleReplaced_sameTable s₃ d _ _).uses.mp huse
      · exact hfalse.elim
    · rw [ht₅.cell, hpfx₃] at hq
      exact ⟨hq ▸ hd, huses₃⟩

/-- A step that keeps the table and the next hops of its paths, and files no more. -/
theorem Exact.of_kept {s s' : LocRib} (he : s.Exact)
    (hdests : ∀ {q x}, s'.dests.get? q = some x → s.dests.get? q = some x)
    (hkept : ∀ {q x}, s.dests.get? q = some x → (s.cell x).paths ≠ [] →
      s'.dests.get? q = some x ∧ (s'.cell x).paths.map (fun p => p.attrs.nexthop) =
        (s.cell x).paths.map fun p => p.attrs.nexthop)
    (hfiles : ∀ {nh q x}, s'.Files nh q x → s.Files nh q x) : s'.Exact where
  nonempty {q x} hx hempty := by
    have hxs := hdests hx
    have hmap := (hkept hxs (he.nonempty hxs)).2
    rw [hempty, List.map_nil, eq_comm, List.map_eq_nil_iff] at hmap
    exact he.nonempty hxs hmap
  used {nh q x} hx := by
    obtain ⟨hlive, p, hp, hnh⟩ := he.used (hfiles hx)
    obtain ⟨hlive', hmap⟩ := hkept hlive (List.ne_nil_of_mem hp)
    have hmem : nh ∈ (s'.cell x).paths.map fun p => p.attrs.nexthop := by
      rw [hmap]
      exact List.mem_map.mpr ⟨p, hp, hnh⟩
    obtain ⟨p', hp', hnh'⟩ := List.mem_map.mp hmem
    exact ⟨hlive', p', hp', hnh'⟩

theorem reselectDest_exact {s : LocRib} (he : s.Exact) (d : DestId) : (s.reselectDest d).Exact := by
  let dest := ({ s.cell d with queued := false }).reselect s.config
  let s₁ := (s.setDest d dest).publish (s.cell d).best dest
  obtain ⟨ht, hn⟩ := publish_same (s.setDest d dest) (s.cell d).best dest
  have hcell : ∀ x, (s₁.cell x).paths = (s.cell x).paths := by
    intro x
    rw [ht.cell, cell_setDest]
    by_cases hx : x = d
    · rw [if_pos hx, hx]
      rfl
    · rw [if_neg hx]
  have he₁ : s₁.Exact := by
    apply he.of_kept
    · intro q x hx
      rw [ht.dests] at hx
      exact hx
    · intro q x hx _
      refine ⟨?_, by rw [hcell]⟩
      rw [ht.dests]
      exact hx
    · intro nh q x hx
      exact hn.files.mp hx
  rw [reselectDest_eq]
  change (if dest.best.isNone then s₁.dropEmpty d else s₁).Exact
  by_cases hnone : dest.best.isNone = true
  · rw [if_pos hnone]
    apply he₁.of_kept dests_of_dropEmpty
    · intro q x hx hne
      refine ⟨?_, by rw [dropEmpty_cell]⟩
      -- The destination let go of has no path, so it is not in the table.
      rw [dropEmpty, if_neg]
      · exact hx
      · rintro ⟨hempty, hd⟩
        exact he₁.nonempty hd (List.isEmpty_iff.mp hempty)
    · exact (dropEmpty_sameNexthops s₁ d).files.mp
  · rw [if_neg hnone]
    exact he₁

theorem foldl_reselectDest_exact (todo : List DestId) {s : LocRib} (he : s.Exact) :
    (todo.foldl reselectDest s).Exact := by
  induction todo generalizing s with
  | nil => exact he
  | cons d todo ih => exact ih (reselectDest_exact he d)

theorem reselect_exact {s : LocRib} (he : s.Exact) (limit : Int) : (s.reselect limit).Exact := by
  unfold reselect
  apply foldl_reselectDest_exact
  exact ⟨he.nonempty, he.used⟩

theorem enqueue_exact {s : LocRib} (he : s.Exact) (d : DestId) : (s.enqueue d).Exact := by
  apply he.of_kept
  · intro q x hx
    rwa [enqueue_dests] at hx
  · intro q x hx _
    refine ⟨by rwa [enqueue_dests], ?_⟩
    rw [enqueue_cell]
    by_cases hxd : x = d
    · rw [if_pos hxd, hxd]
    · rw [if_neg hxd]
  · exact (enqueue_sameNexthops s d).files.mp

theorem setConfig_exact {s : LocRib} (he : s.Exact) (config : BestpathConfig) :
    (s.setConfig config).Exact := by
  unfold setConfig
  split
  · exact he
  · have hstart : ({ s with config := config } : LocRib).Exact := ⟨he.nonempty, he.used⟩
    generalize s.dests.values = held
    generalize ({ s with config := config } : LocRib) = start at hstart
    induction held generalizing start with
    | nil => exact hstart
    | cons d held ih => exact ih _ (enqueue_exact hstart d)

theorem revalidateDest_exact {s : LocRib} (he : s.Exact) (nexthop : Bytes) (answer : Bool × Nat)
    (entry : Prefix × DestId) : (revalidateDest nexthop answer s entry).Exact := by
  unfold revalidateDest
  split
  · exact he
  · split
    · apply enqueue_exact
      apply he.of_kept
      · exact fun hx => hx
      · intro q x hx _
        refine ⟨hx, ?_⟩
        rw [cell_setDest]
        by_cases hxd : x = entry.2
        · rw [if_pos hxd, hxd, setAnswers_paths, List.map_map]
          apply List.map_congr_left
          intro p _
          by_cases hp : p.attrs.nexthop = nexthop <;>
            simp [reanswer, hp, BgpPath.setAnswer]
        · rw [if_neg hxd]
      · exact fun hx => hx
    · exact he

theorem foldl_revalidateDest_exact (nexthop : Bytes) (answer : Bool × Nat)
    (entries : List (Prefix × DestId)) {s : LocRib} (he : s.Exact) :
    (entries.foldl (revalidateDest nexthop answer) s).Exact := by
  induction entries generalizing s with
  | nil => exact he
  | cons entry entries ih => exact ih (revalidateDest_exact he nexthop answer entry)

theorem revalidateDest_nhDests (nexthop : Bytes) (answer : Bool × Nat) (s : LocRib)
    (entry : Prefix × DestId) : (revalidateDest nexthop answer s entry).nhDests = s.nhDests := by
  unfold revalidateDest
  split
  · rfl
  · split
    · rw [(enqueue_sameNexthops _ _).nhDests]
      rfl
    · rfl

theorem foldl_revalidateDest_nhDests (nexthop : Bytes) (answer : Bool × Nat)
    (entries : List (Prefix × DestId)) (s : LocRib) :
    (entries.foldl (revalidateDest nexthop answer) s).nhDests = s.nhDests := by
  induction entries generalizing s with
  | nil => rfl
  | cons entry entries ih => exact (ih _).trans (revalidateDest_nhDests nexthop answer s entry)

theorem pruneNexthop_exact {s : LocRib} (he : s.Exact) {nexthop : Bytes}
    {dests : Dict Prefix DestId} (hget : s.nhDests.get? nexthop = some dests) :
    (s.pruneNexthop nexthop dests).Exact := by
  have ht := pruneNexthop_sameTable s nexthop dests
  apply he.of_kept
  · intro q x hx
    rwa [ht.dests] at hx
  · intro q x hx _
    exact ⟨by rwa [ht.dests], by rw [ht.cell]⟩
  · intro nh q x hx
    exact ((files_pruneNexthop hget).mp hx).1

theorem revalidateNexthop_exact (check : Check) {s : LocRib} (he : s.Exact)
    (nexthop : Bytes) : (revalidateNexthop check s nexthop).Exact := by
  unfold revalidateNexthop
  cases hget : s.nhDests.get? nexthop with
  | none => exact he
  | some dests =>
    dsimp only
    split
    · exact pruneNexthop_exact he hget
    · refine pruneNexthop_exact (foldl_revalidateDest_exact _ _ _ ?_) ?_
      · exact ⟨he.nonempty, he.used⟩
      · rw [foldl_revalidateDest_nhDests]
        exact hget

theorem revalidate_exact {s : LocRib} (he : s.Exact) (check : Check) :
    (s.revalidate check).Exact := by
  unfold revalidate
  generalize s.nhDests.keys = nexthops
  induction nexthops generalizing s with
  | nil => exact he
  | cons nexthop nexthops ih => exact ih (revalidateNexthop_exact check he nexthop)

theorem exact_of_empty {s : LocRib} (hd : s.dests = Dict.empty)
    (hn : s.nhDests = Dict.empty) : s.Exact where
  nonempty hx := by simp [hd] at hx
  used hx := by
    obtain ⟨dests, hget, _⟩ := hx
    simp [hn] at hget

theorem step_indexed {s : LocRib} (h : s.Indexed) (op : Op) : (s.step op).Indexed := by
  cases op with
  | addPath peer pfx arrival =>
    simp only [step]
    cases hadd : s.addPath peer pfx arrival with
    | none => exact h
    | some s' => exact (addPath_indexed h hadd).1
  | removePath peer pfx pathId => exact (removePath_indexed h peer pfx pathId).1
  | removePeer peer => exact (removePeer_indexed h peer).1
  | revalidate check => exact (revalidate_indexed h check).1
  | reselect limit => exact (reselect_indexed h limit).1
  | setConfig config => exact (setConfig_indexed h config).1
  | clear => exact clear_indexed s

theorem step_exact {s : LocRib} (h : s.Indexed) (he : s.Exact) (op : Op) : (s.step op).Exact := by
  cases op with
  | addPath peer pfx arrival =>
    simp only [step]
    cases hadd : s.addPath peer pfx arrival with
    | none => exact he
    | some s' => exact addPath_exact h.wf he hadd
  | removePath peer pfx pathId => exact removePath_exact h.wf he peer pfx pathId
  | removePeer peer => exact removePeer_exact h he peer
  | revalidate check => exact revalidate_exact he check
  | reselect limit => exact reselect_exact he limit
  | setConfig config => exact setConfig_exact he config
  | clear => exact exact_of_empty rfl rfl

theorem run_indexed {s : LocRib} (h : s.Indexed) (ops : List Op) : (s.run ops).Indexed := by
  induction ops generalizing s with
  | nil => exact h
  | cons op ops ih => exact ih (step_indexed h op)

theorem run_exact {s : LocRib} (h : s.Indexed) (he : s.Exact) (ops : List Op) :
    (s.run ops).Exact := by
  induction ops generalizing s with
  | nil => exact he
  | cons op ops ih => exact ih (step_indexed h op) (step_exact h he op)

/-- What the containers of a Loc-RIB hold between operations. -/
structure IndexesExact (s : LocRib) : Prop where
  dests : ∀ q, (∃ d, s.dests.get? q = some d) ↔ s.pathsFor q ≠ []
  byPeer : ∀ oid q d, s.Contributes oid q d ↔
    s.dests.get? q = some d ∧ ∃ p ∈ (s.cell d).paths, p.peer.oid = oid
  nhDests : ∀ nh q d, s.Files nh q d ↔ nh ≠ [] ∧ s.Uses nh q d
  removePeer : ∀ (peer : PeerRef) q, ∀ p ∈ (s.removePeer peer).pathsFor q, p.peer.oid ≠ peer.oid

theorem indexesExact {s : LocRib} (h : s.Indexed) (he : s.Exact) : s.IndexesExact where
  dests q := by
    constructor
    · rintro ⟨d, hd⟩
      rw [pathsFor_of_dests hd]
      exact he.nonempty hd
    · intro hne
      cases hget : s.dests.get? q with
      | none => exact absurd (by rw [pathsFor, hget]) hne
      | some d => exact ⟨d, rfl⟩
  byPeer oid q d := by
    rw [h.exact, HasFrom]
    apply and_congr_right
    intro hd
    rw [pathsFor_of_dests hd]
  nhDests nh q d := by
    constructor
    · intro hfiles
      refine ⟨?_, he.used hfiles⟩
      rintro rfl
      obtain ⟨dests, hget, _⟩ := hfiles
      rw [h.wf.named] at hget
      exact absurd hget (by simp)
    · rintro ⟨hnh, hd, p, hp, rfl⟩
      exact h.wf.files hd hp hnh
  removePeer peer q p hp := by
    rw [(removePeer_indexed h peer).2 q] at hp
    simpa using (List.mem_filter.mp hp).2

/-- Whatever calls a Loc-RIB receives, its indexes are exact after each of them. -/
theorem run_indexesExact (afi safi : Nat) (attrTable : AttrTable) (config : BestpathConfig)
    (unused : BgpDest) (ops : List Op) :
    ((new afi safi attrTable config unused).run ops).IndexesExact := by
  have hnew := new_indexed afi safi attrTable config unused
  exact indexesExact (run_indexed hnew ops) (run_exact hnew (exact_of_empty rfl rfl) ops)

end LocRib

end Packets
