/-
The invariant of the Loc-RIB's containers.

Destinations in the table are allocated objects of their own prefix, dirty ones in the change
queue, and their paths filed in the next-hop index.
-/
import Packets.Bgp.LocRib

namespace Packets

namespace LocRib

/-- Two states that differ at most in their indexes, counters and offers. -/
structure SameTable (s s' : LocRib) : Prop where
  heap : s'.heap = s.heap
  dests : s'.dests = s.dests
  queue : s'.queue = s.queue
  afi : s'.afi = s.afi

theorem SameTable.refl (s : LocRib) : SameTable s s := ⟨rfl, rfl, rfl, rfl⟩

theorem SameTable.trans {s s' s'' : LocRib} (h : SameTable s s')
    (h' : SameTable s' s'') : SameTable s s'' :=
  ⟨h'.heap.trans h.heap, h'.dests.trans h.dests, h'.queue.trans h.queue, h'.afi.trans h.afi⟩

theorem SameTable.cell {s s' : LocRib} (h : SameTable s s') (d : DestId) :
    s'.cell d = s.cell d := by
  rw [LocRib.cell, LocRib.cell, h.heap]

theorem fileNexthop_sameTable (s : LocRib) (nexthop : Bytes)
    (dests : Dict Prefix DestId) : SameTable s (s.fileNexthop nexthop dests) := by
  unfold fileNexthop
  split <;> exact ⟨rfl, rfl, rfl, rfl⟩

theorem unindexNexthop_sameTable (s : LocRib) (nexthop : Bytes) (d : DestId) :
    SameTable s (s.unindexNexthop nexthop d) := by
  unfold unindexNexthop
  split
  · exact SameTable.refl s
  · split
    · exact SameTable.refl s
    · split
      · exact SameTable.refl s
      · split
        · exact SameTable.refl s
        · exact fileNexthop_sameTable s nexthop _

theorem indexNexthop_sameTable (s : LocRib) (nexthop : Bytes) (d : DestId) (resolved : Bool)
    (igpMetric : Nat) : SameTable s (s.indexNexthop nexthop d resolved igpMetric) := by
  unfold indexNexthop
  split <;> exact ⟨rfl, rfl, rfl, rfl⟩

theorem indexAdd_sameTable (s : LocRib) (peer : PeerRef) (d : DestId) :
    SameTable s (s.indexAdd peer d) :=
  ⟨rfl, rfl, rfl, rfl⟩

theorem indexRemove_sameTable (s : LocRib) (peer : PeerRef) (pfx : Prefix) :
    SameTable s (s.indexRemove peer pfx) := by
  unfold indexRemove
  split
  · exact SameTable.refl s
  · dsimp only
    split <;> exact ⟨rfl, rfl, rfl, rfl⟩

theorem settleReplaced_sameTable (s : LocRib) (d : DestId) (nexthop : Bytes)
    (replaced : Option BgpPath) : SameTable s (s.settleReplaced d nexthop replaced) := by
  cases replaced with
  | none => exact ⟨rfl, rfl, rfl, rfl⟩
  | some old =>
    simp only [settleReplaced]
    split
    · have hreleased : SameTable s { s with
          attrTable := s.attrTable.release old.attrs old.interned } := ⟨rfl, rfl, rfl, rfl⟩
      exact hreleased.trans (unindexNexthop_sameTable _ _ d)
    · exact ⟨rfl, rfl, rfl, rfl⟩

/-- Two states with the same next-hop index. -/
structure SameNexthops (s s' : LocRib) : Prop where
  nhDests : s'.nhDests = s.nhDests
  nhState : s'.nhState = s.nhState

theorem SameNexthops.refl (s : LocRib) : SameNexthops s s := ⟨rfl, rfl⟩

theorem SameNexthops.trans {s s' s'' : LocRib} (h : SameNexthops s s')
    (h' : SameNexthops s' s'') : SameNexthops s s'' :=
  ⟨h'.nhDests.trans h.nhDests, h'.nhState.trans h.nhState⟩

theorem indexRemove_sameNexthops (s : LocRib) (peer : PeerRef) (pfx : Prefix) :
    SameNexthops s (s.indexRemove peer pfx) := by
  unfold indexRemove
  split
  · exact SameNexthops.refl s
  · dsimp only
    split <;> exact ⟨rfl, rfl⟩

theorem enqueue_sameNexthops (s : LocRib) (d : DestId) : SameNexthops s (s.enqueue d) := by
  unfold enqueue
  split <;> exact ⟨rfl, rfl⟩

theorem dropEmpty_sameNexthops (s : LocRib) (d : DestId) : SameNexthops s (s.dropEmpty d) := by
  unfold dropEmpty
  split <;> exact ⟨rfl, rfl⟩

@[simp] theorem cell_setDest (s : LocRib) (d x : DestId) (dest : BgpDest) :
    (s.setDest d dest).cell x = if x = d then dest else s.cell x := rfl

@[simp] theorem enqueue_cell (s : LocRib) (d x : DestId) :
    (s.enqueue d).cell x =
      if x = d then { s.cell d with queued := true } else s.cell x := by
  by_cases hq : (s.cell d).queued = true
  · simp only [enqueue, hq, ↓reduceIte]
    by_cases hx : x = d
    · subst hx
      simp only [↓reduceIte]
      rw [← hq]
    · simp [hx]
  · simp only [enqueue, hq]
    rfl

@[simp] theorem enqueue_dests (s : LocRib) (d : DestId) : (s.enqueue d).dests = s.dests := by
  unfold enqueue
  split <;> rfl

@[simp] theorem enqueue_next (s : LocRib) (d : DestId) : (s.enqueue d).heap.next = s.heap.next := by
  unfold enqueue
  split <;> rfl

@[simp] theorem enqueue_afi (s : LocRib) (d : DestId) : (s.enqueue d).afi = s.afi := by
  unfold enqueue
  split <;> rfl

theorem mem_queue_enqueue_of_mem {s : LocRib} {d x : DestId} (h : x ∈ s.queue) :
    x ∈ (s.enqueue d).queue := by
  unfold enqueue
  split
  · exact h
  · exact List.mem_append.mpr (Or.inl h)

theorem mem_queue_enqueue_self {s : LocRib} {d : DestId}
    (h : (s.cell d).queued = true → d ∈ s.queue) : d ∈ (s.enqueue d).queue := by
  by_cases hq : (s.cell d).queued = true
  · exact mem_queue_enqueue_of_mem (h hq)
  · simp [enqueue, hq]

@[simp] theorem dropEmpty_heap (s : LocRib) (d : DestId) : (s.dropEmpty d).heap = s.heap := by
  unfold dropEmpty
  split <;> rfl

@[simp] theorem dropEmpty_cell (s : LocRib) (d x : DestId) : (s.dropEmpty d).cell x = s.cell x := by
  simp [cell]

@[simp] theorem dropEmpty_queue (s : LocRib) (d : DestId) : (s.dropEmpty d).queue = s.queue := by
  unfold dropEmpty
  split <;> rfl

@[simp] theorem dropEmpty_afi (s : LocRib) (d : DestId) : (s.dropEmpty d).afi = s.afi := by
  unfold dropEmpty
  split <;> rfl

theorem dests_of_dropEmpty {s : LocRib} {d x : DestId} {pfx : Prefix}
    (h : (s.dropEmpty d).dests.get? pfx = some x) : s.dests.get? pfx = some x := by
  unfold dropEmpty at h
  split at h
  · simp only [Dict.get?_erase] at h
    split at h
    · simp at h
    · exact h
  · exact h

/-- The index files a destination under a next hop. -/
def Files (s : LocRib) (nexthop : Bytes) (pfx : Prefix) (d : DestId) : Prop :=
  ∃ dests, s.nhDests.get? nexthop = some dests ∧ dests.get? pfx = some d

theorem SameNexthops.files {s s' : LocRib} (h : SameNexthops s s') {nexthop : Bytes}
    {pfx : Prefix} {d : DestId} : s'.Files nexthop pfx d ↔ s.Files nexthop pfx d := by
  rw [Files, Files, h.nhDests]

theorem files_fileNexthop {s : LocRib} {nexthop nh : Bytes}
    {dests : Dict Prefix DestId} {pfx : Prefix} {d : DestId} :
    (s.fileNexthop nexthop dests).Files nh pfx d ↔
      if nh = nexthop then dests.get? pfx = some d else s.Files nh pfx d := by
  unfold fileNexthop Files
  by_cases hempty : dests.isEmpty = true
  · by_cases hnh : nh = nexthop
    · have hnone := Dict.isEmpty_iff.mp hempty pfx
      simp [hempty, hnh, hnone]
    · simp [hempty, hnh]
  · by_cases hnh : nh = nexthop <;> simp [hempty, hnh]

/-- A next hop that still files a destination keeps its cached answer. -/
theorem nhState_fileNexthop {s : LocRib} {nexthop nh : Bytes} {dests : Dict Prefix DestId}
    {pfx : Prefix} {d : DestId} (h : (s.fileNexthop nexthop dests).Files nh pfx d) :
    (s.fileNexthop nexthop dests).nhState.get? nh = s.nhState.get? nh := by
  rw [files_fileNexthop] at h
  unfold fileNexthop
  by_cases hempty : dests.isEmpty = true
  · by_cases hnh : nh = nexthop
    · have hnone := Dict.isEmpty_iff.mp hempty pfx
      simp [hnh, hnone] at h
    · simp [hempty, hnh]
  · simp [hempty]

/-- Unfiling a destination that no longer uses a next hop leaves every other
entry, and that entry too while a live path needs it. -/
theorem files_unindexNexthop {s : LocRib} {nexthop nh : Bytes} {d x : DestId}
    {pfx : Prefix} (h : s.Files nh pfx x)
    (hkeep : nh = nexthop → x = d → pfx = (s.cell d).pfx →
      s.dests.get? (s.cell d).pfx = some d ∧ usesNexthop (s.cell d) nexthop = true) :
    (s.unindexNexthop nexthop d).Files nh pfx x := by
  unfold unindexNexthop
  split
  · exact h
  · split
    · exact h
    · rename_i dests hdests
      split
      · exact h
      · rename_i hfiled
        split
        · exact h
        · rename_i hunused
          rw [files_fileNexthop]
          split
          · rename_i hnh
            obtain ⟨found, hfound, hx⟩ := h
            rw [hnh, hdests, Option.some.injEq] at hfound
            subst hfound
            rw [Dict.get?_erase]
            split
            · rename_i hpfx
              have hxd : x = d := by
                rw [not_not, ← hpfx, hx] at hfiled
                exact Option.some.inj hfiled
              exact absurd (hkeep hnh hxd hpfx) hunused
            · exact hx
          · exact h

theorem nhState_unindexNexthop {s : LocRib} {nexthop nh : Bytes} {d x : DestId}
    {pfx : Prefix} (h : (s.unindexNexthop nexthop d).Files nh pfx x) :
    (s.unindexNexthop nexthop d).nhState.get? nh = s.nhState.get? nh := by
  revert h
  unfold unindexNexthop
  split
  · exact fun _ => rfl
  · split
    · exact fun _ => rfl
    · split
      · exact fun _ => rfl
      · split
        · exact fun _ => rfl
        · exact nhState_fileNexthop

theorem files_indexNexthop {s : LocRib} {nexthop nh : Bytes} {d x : DestId}
    {resolved : Bool} {igpMetric : Nat} {pfx : Prefix} (h : s.Files nh pfx x)
    (hkeep : nh = nexthop → pfx = (s.cell d).pfx → x = d) :
    (s.indexNexthop nexthop d resolved igpMetric).Files nh pfx x := by
  unfold indexNexthop
  split
  · exact h
  · obtain ⟨found, hfound, hx⟩ := h
    by_cases hnh : nh = nexthop
    · refine ⟨found.set (s.cell d).pfx d, ?_, ?_⟩
      · rw [hnh] at hfound
        simp [hnh, hfound]
      · rw [Dict.get?_set]
        split
        · rename_i hpfx
          rw [hkeep hnh hpfx]
        · exact hx
    · exact ⟨found, by simp [hnh, hfound], hx⟩

theorem files_indexNexthop_self (s : LocRib) {nexthop : Bytes} (d : DestId)
    (resolved : Bool) (igpMetric : Nat) (hnh : nexthop ≠ []) :
    (s.indexNexthop nexthop d resolved igpMetric).Files nexthop (s.cell d).pfx d := by
  unfold indexNexthop
  rw [if_neg hnh]
  exact ⟨((s.nhDests.get? nexthop).getD Dict.empty).set (s.cell d).pfx d, by simp, by simp⟩

theorem nhState_indexNexthop (s : LocRib) (nexthop nh : Bytes) (d : DestId)
    (resolved : Bool) (igpMetric : Nat) (hnh : nexthop ≠ []) :
    (s.indexNexthop nexthop d resolved igpMetric).nhState.get? nh =
      if nh = nexthop then some (resolved, igpMetric) else s.nhState.get? nh := by
  simp [indexNexthop, hnh]

/-- The invariant inside an operation: `unfiled` are the next hops a destination
is still to be filed under, `todo` the dirty destinations already taken off the
queue. -/
structure WfBut (unfiled : DestId → Bytes → Prop) (todo : List DestId)
    (s : LocRib) : Prop where
  allocated : ∀ {pfx d}, s.dests.get? pfx = some d → d < s.heap.next
  pfx_eq : ∀ {pfx d}, s.dests.get? pfx = some d → (s.cell d).pfx = pfx
  queued : ∀ {pfx d}, s.dests.get? pfx = some d → (s.cell d).queued = true → d ∈ s.queue ∨ d ∈ todo
  filed : ∀ {pfx d}, s.dests.get? pfx = some d → ∀ p ∈ (s.cell d).paths,
    p.attrs.nexthop ≠ [] → unfiled d p.attrs.nexthop ∨ s.Files p.attrs.nexthop pfx d
  named : s.nhDests.get? [] = none

/-- The invariant between operations. -/
abbrev Wf (s : LocRib) : Prop := WfBut (fun _ _ => False) [] s

section Steps

variable {unfiled : DestId → Bytes → Prop} {todo : List DestId} {s : LocRib}

theorem Wf.files (hw : s.Wf) {pfx : Prefix} {d : DestId}
    (hd : s.dests.get? pfx = some d) {p : BgpPath} (hp : p ∈ (s.cell d).paths)
    (hnh : p.attrs.nexthop ≠ []) : s.Files p.attrs.nexthop pfx d := by
  rcases hw.filed hd p hp hnh with hfalse | hfiles
  · exact hfalse.elim
  · exact hfiles

theorem Wf.mem_queue (hw : s.Wf) {pfx : Prefix} {d : DestId} (hd : s.dests.get? pfx = some d)
    (hq : (s.cell d).queued = true) : d ∈ s.queue := by
  rcases hw.queued hd hq with hmem | hmem
  · exact hmem
  · exact absurd hmem (by simp)

theorem WfBut.of_same {s' : LocRib} (hw : WfBut unfiled todo s)
    (ht : SameTable s s') (hn : SameNexthops s s') : WfBut unfiled todo s' where
  allocated hd := by
    rw [ht.dests] at hd
    rw [ht.heap]
    exact hw.allocated hd
  pfx_eq hd := by
    rw [ht.dests] at hd
    rw [ht.cell]
    exact hw.pfx_eq hd
  queued hd hq := by
    rw [ht.dests] at hd
    rw [ht.cell] at hq
    rw [ht.queue]
    exact hw.queued hd hq
  filed hd p hp hnh := by
    rw [ht.dests] at hd
    rw [ht.cell] at hp
    rw [hn.files]
    exact hw.filed hd p hp hnh
  named := by
    rw [hn.nhDests]
    exact hw.named

theorem unindexNexthop_named (h : s.nhDests.get? [] = none) (nexthop : Bytes)
    (d : DestId) : (s.unindexNexthop nexthop d).nhDests.get? [] = none := by
  unfold LocRib.unindexNexthop fileNexthop
  split
  · exact h
  · rename_i hne
    have hnil : ([] : Bytes) ≠ nexthop := fun heq => hne heq.symm
    split
    · exact h
    · split
      · exact h
      · split
        · exact h
        · split <;> simp [hnil, h]

theorem WfBut.unindexNexthop (hw : WfBut unfiled todo s) (nexthop : Bytes)
    (d : DestId) : WfBut unfiled todo (s.unindexNexthop nexthop d) := by
  have ht := unindexNexthop_sameTable s nexthop d
  constructor
  · intro pfx x hx
    rw [ht.dests] at hx
    rw [ht.heap]
    exact hw.allocated hx
  · intro pfx x hx
    rw [ht.dests] at hx
    rw [ht.cell]
    exact hw.pfx_eq hx
  · intro pfx x hx hq
    rw [ht.dests] at hx
    rw [ht.cell] at hq
    rw [ht.queue]
    exact hw.queued hx hq
  · intro pfx x hx p hp hnh
    rw [ht.dests] at hx
    rw [ht.cell] at hp
    rcases hw.filed hx p hp hnh with hun | hfiles
    · exact Or.inl hun
    · refine Or.inr (files_unindexNexthop hfiles ?_)
      intro heq hxd hpfx
      subst hxd
      rw [← hpfx]
      refine ⟨hx, ?_⟩
      exact List.any_eq_true.mpr ⟨p, hp, by simp [heq]⟩
  · exact unindexNexthop_named hw.named nexthop d

theorem WfBut.enqueue (hw : WfBut unfiled todo s) (d : DestId) :
    WfBut unfiled todo (s.enqueue d) := by
  constructor
  · intro pfx x hx
    rw [enqueue_dests] at hx
    rw [enqueue_next]
    exact hw.allocated hx
  · intro pfx x hx
    rw [enqueue_dests] at hx
    rw [enqueue_cell]
    split
    · rename_i hxd
      subst hxd
      exact hw.pfx_eq hx
    · exact hw.pfx_eq hx
  · intro pfx x hx hq
    rw [enqueue_dests] at hx
    rw [enqueue_cell] at hq
    split at hq
    · rename_i hxd
      subst hxd
      by_cases hold : (s.cell x).queued = true
      · exact (hw.queued hx hold).imp_left mem_queue_enqueue_of_mem
      · exact Or.inl (mem_queue_enqueue_self fun h => absurd h hold)
    · exact (hw.queued hx hq).imp_left mem_queue_enqueue_of_mem
  · intro pfx x hx p hp hnh
    rw [enqueue_dests] at hx
    rw [(enqueue_sameNexthops s d).files]
    apply hw.filed hx p _ hnh
    rw [enqueue_cell] at hp
    split at hp
    · rename_i hxd
      subst hxd
      exact hp
    · exact hp
  · rw [(enqueue_sameNexthops s d).nhDests]
    exact hw.named

theorem WfBut.dropEmpty (hw : WfBut unfiled todo s) (d : DestId) :
    WfBut unfiled todo (s.dropEmpty d) where
  allocated hd := by
    rw [dropEmpty_heap]
    exact hw.allocated (dests_of_dropEmpty hd)
  pfx_eq hd := by
    rw [dropEmpty_cell]
    exact hw.pfx_eq (dests_of_dropEmpty hd)
  queued hd hq := by
    rw [dropEmpty_cell] at hq
    rw [dropEmpty_queue]
    exact hw.queued (dests_of_dropEmpty hd) hq
  filed hd p hp hnh := by
    rw [dropEmpty_cell] at hp
    rw [(dropEmpty_sameNexthops s d).files]
    exact hw.filed (dests_of_dropEmpty hd) p hp hnh
  named := by
    rw [(dropEmpty_sameNexthops s d).nhDests]
    exact hw.named

/-- Rewriting one destination in place, keeping its prefix and dirty mark, asks
only that its new paths are accounted for. -/
theorem WfBut.setDest (hw : WfBut unfiled todo s) (d : DestId) (dest : BgpDest)
    (unfiled' : DestId → Bytes → Prop)
    (hmono : ∀ x nh, unfiled x nh → unfiled' x nh)
    (hpfx : dest.pfx = (s.cell d).pfx)
    (hqueued : dest.queued = true → (s.cell d).queued = true ∨ d ∈ todo)
    (hpaths : ∀ pfx, s.dests.get? pfx = some d → ∀ p ∈ dest.paths,
      p.attrs.nexthop ≠ [] → unfiled' d p.attrs.nexthop ∨ s.Files p.attrs.nexthop pfx d) :
    WfBut unfiled' todo (s.setDest d dest) where
  allocated hd := hw.allocated hd
  pfx_eq {pfx x} hx := by
    rw [cell_setDest]
    split
    · rename_i hxd
      subst hxd
      rw [hpfx]
      exact hw.pfx_eq hx
    · exact hw.pfx_eq hx
  queued {pfx x} hx hq := by
    rw [cell_setDest] at hq
    split at hq
    · rename_i hxd
      subst hxd
      rcases hqueued hq with hold | hmem
      · exact hw.queued hx hold
      · exact Or.inr hmem
    · exact hw.queued hx hq
  filed {pfx x} hx p hp hnh := by
    rw [cell_setDest] at hp
    split at hp
    · rename_i hxd
      subst hxd
      exact hpaths pfx hx p hp hnh
    · exact (hw.filed hx p hp hnh).imp_left (hmono x _)
  named := hw.named

theorem WfBut.foldl_unindexNexthop (gone : List BgpPath) (d : DestId) (hw : WfBut unfiled todo s) :
    WfBut unfiled todo (gone.foldl (fun s p => s.unindexNexthop p.attrs.nexthop d) s) := by
  induction gone generalizing s with
  | nil => exact hw
  | cons p gone ih => exact ih (hw.unindexNexthop p.attrs.nexthop d)

end Steps

theorem mem_pathsFor {s : LocRib} {pfx : Prefix} {p : BgpPath} :
    p ∈ s.pathsFor pfx ↔ ∃ d, s.dests.get? pfx = some d ∧ p ∈ (s.cell d).paths := by
  unfold pathsFor
  split
  · rename_i hnone
    simp [hnone]
  · rename_i d hd
    simp [hd]

theorem pathsFor_of_dests {s : LocRib} {pfx : Prefix} {d : DestId}
    (hd : s.dests.get? pfx = some d) : s.pathsFor pfx = (s.cell d).paths := by
  simp [pathsFor, hd]

theorem SameTable.pathsFor {s s' : LocRib} (h : SameTable s s') (pfx : Prefix) :
    s'.pathsFor pfx = s.pathsFor pfx := by
  simp only [LocRib.pathsFor, h.dests, h.cell]

@[simp] theorem pathsFor_enqueue (s : LocRib) (d : DestId) (pfx : Prefix) :
    (s.enqueue d).pathsFor pfx = s.pathsFor pfx := by
  simp only [pathsFor, enqueue_dests]
  split
  · rfl
  · rw [enqueue_cell]
    split
    · rename_i hx
      rw [hx]
    · rfl

@[simp] theorem pathsFor_dropEmpty (s : LocRib) (d : DestId) (pfx : Prefix) :
    (s.dropEmpty d).pathsFor pfx = s.pathsFor pfx := by
  by_cases hgone : (s.cell d).paths.isEmpty = true ∧ s.dests.get? (s.cell d).pfx = some d
  · have hdests : (s.dropEmpty d).dests = s.dests.erase (s.cell d).pfx := by
      unfold dropEmpty
      rw [if_pos hgone]
    by_cases hpfx : pfx = (s.cell d).pfx
    · have hempty : (s.cell d).paths = [] := List.isEmpty_iff.mp hgone.1
      rw [pathsFor, pathsFor, hdests, hpfx, Dict.get?_erase, hgone.2]
      simp [hempty]
    · rw [pathsFor, pathsFor, hdests, Dict.get?_erase, if_neg hpfx]
      simp only [dropEmpty_cell]
  · unfold dropEmpty
    rw [if_neg hgone]

theorem Wf.pathsFor_setDest {unfiled : DestId → Bytes → Prop}
    {todo : List DestId} {s : LocRib} (hw : WfBut unfiled todo s) {pfx : Prefix}
    {d : DestId} (hd : s.dests.get? pfx = some d) (dest : BgpDest) (q : Prefix) :
    (s.setDest d dest).pathsFor q = if q = pfx then dest.paths else s.pathsFor q := by
  have hdests : (s.setDest d dest).dests = s.dests := rfl
  simp only [pathsFor, hdests, cell_setDest]
  by_cases hq : q = pfx
  · subst hq
    simp [hd]
  · rw [if_neg hq]
    split
    · rfl
    · rename_i x hx
      have hxd : x ≠ d := by
        rintro rfl
        exact hq ((hw.pfx_eq hx).symm.trans (hw.pfx_eq hd))
      rw [if_neg hxd]

theorem dest_spec {s s' : LocRib} {pfx : Prefix} {d : DestId} (hw : s.Wf)
    (h : s.dest pfx = some (s', d)) :
    s'.Wf ∧ s'.dests.get? pfx = some d ∧ SameNexthops s s' ∧
      s'.nextPath = s.nextPath ∧ s'.afi = s.afi ∧
      ∀ q, s'.pathsFor q = s.pathsFor q := by
  unfold dest at h
  split at h
  · simp at h
  · split at h
    · rename_i x hx
      simp only [Option.some.injEq, Prod.mk.injEq] at h
      obtain ⟨rfl, rfl⟩ := h
      exact ⟨hw, hx, SameNexthops.refl s, rfl, rfl, fun _ => rfl⟩
    · rename_i hnone
      simp only [Option.some.injEq, Prod.mk.injEq] at h
      obtain ⟨rfl, rfl⟩ := h
      have hold : ∀ {q x}, s.dests.get? q = some x → x ≠ s.heap.next := by
        intro q x hx heq
        rw [heq] at hx
        exact absurd (hw.allocated hx) (Nat.lt_irrefl _)
      refine ⟨⟨?_, ?_, ?_, ?_, hw.named⟩, by simp, ⟨rfl, rfl⟩, rfl, rfl, ?_⟩
      · intro q x hx
        simp only [Dict.get?_set] at hx
        split at hx
        · simp only [Option.some.injEq] at hx
          subst hx
          simp
        · exact Nat.lt_succ_of_lt (hw.allocated hx)
      · intro q x hx
        simp only [Dict.get?_set] at hx
        simp only [cell, Heap.cell_alloc]
        split at hx
        · rename_i hq
          simp only [Option.some.injEq] at hx
          subst hx
          simp [BgpDest.new, hq]
        · rw [if_neg (hold hx)]
          exact hw.pfx_eq hx
      · intro q x hx hq
        simp only [Dict.get?_set] at hx
        simp only [cell, Heap.cell_alloc] at hq
        split at hx
        · simp only [Option.some.injEq] at hx
          subst hx
          simp [BgpDest.new] at hq
        · rw [if_neg (hold hx)] at hq
          exact hw.queued hx hq
      · intro q x hx p hp hnh
        simp only [Dict.get?_set] at hx
        simp only [cell, Heap.cell_alloc] at hp
        split at hx
        · simp only [Option.some.injEq] at hx
          subst hx
          simp [BgpDest.new] at hp
        · rw [if_neg (hold hx)] at hp
          exact hw.filed hx p hp hnh
      · intro q
        simp only [pathsFor, Dict.get?_set, cell, Heap.cell_alloc]
        by_cases hq : q = pfx
        · subst hq
          simp [hnone, BgpDest.new]
        · rw [if_neg hq]
          split
          · rfl
          · rename_i x hx
            rw [if_neg (hold hx)]

theorem mem_putPath {path p : BgpPath} {paths : List BgpPath}
    (h : p ∈ putPath path paths) : p = path ∨ p ∈ paths := by
  induction paths with
  | nil => simpa [putPath] using h
  | cons old rest ih =>
    simp only [putPath] at h
    split at h
    · rcases List.mem_cons.mp h with rfl | hrest
      · exact Or.inl rfl
      · exact Or.inr (List.mem_cons_of_mem old hrest)
    · rcases List.mem_cons.mp h with rfl | hrest
      · exact Or.inr List.mem_cons_self
      · exact (ih hrest).imp_right (List.mem_cons_of_mem old)

theorem settleReplaced_wf {unfiled : DestId → Bytes → Prop} {todo : List DestId} {s : LocRib}
    (hw : WfBut unfiled todo s) (d : DestId) (nexthop : Bytes) (replaced : Option BgpPath) :
    WfBut unfiled todo (s.settleReplaced d nexthop replaced) := by
  cases replaced with
  | none => exact hw.of_same ⟨rfl, rfl, rfl, rfl⟩ ⟨rfl, rfl⟩
  | some old =>
    have hreleased : WfBut unfiled todo
        { s with attrTable := s.attrTable.release old.attrs old.interned } :=
      hw.of_same ⟨rfl, rfl, rfl, rfl⟩ ⟨rfl, rfl⟩
    simp only [settleReplaced]
    split
    · exact hreleased.unindexNexthop _ d
    · exact hreleased

theorem nhState_settleReplaced {s : LocRib} {d x : DestId} {nexthop nh : Bytes}
    {replaced : Option BgpPath} {pfx : Prefix}
    (h : (s.settleReplaced d nexthop replaced).Files nh pfx x) :
    (s.settleReplaced d nexthop replaced).nhState.get? nh = s.nhState.get? nh := by
  cases replaced with
  | none => rfl
  | some old =>
    simp only [settleReplaced] at h ⊢
    split
    · rename_i hne
      rw [if_pos hne] at h
      exact nhState_unindexNexthop h
    · rfl

theorem files_indexNexthop_of_ne {s : LocRib} {nexthop nh : Bytes} {d x : DestId}
    {resolved : Bool} {igpMetric : Nat} {pfx : Prefix} (hne : nh ≠ nexthop) :
    (s.indexNexthop nexthop d resolved igpMetric).Files nh pfx x ↔ s.Files nh pfx x := by
  unfold indexNexthop
  split
  · rfl
  · simp [Files, hne]

/-- The last step of an arrival: filing it under its next hop completes the
invariant. -/
theorem indexNexthop_wf {nexthop : Bytes} {s : LocRib} {pfx : Prefix} {d : DestId}
    {todo : List DestId} (hd : s.dests.get? pfx = some d)
    (hw : WfBut (fun x nh => x = d ∧ nh = nexthop) todo s) (resolved : Bool) (igpMetric : Nat) :
    WfBut (fun _ _ => False) todo (s.indexNexthop nexthop d resolved igpMetric) := by
  have ht := indexNexthop_sameTable s nexthop d resolved igpMetric
  have hpfx := hw.pfx_eq hd
  constructor
  · intro q x hx
    rw [ht.dests] at hx
    rw [ht.heap]
    exact hw.allocated hx
  · intro q x hx
    rw [ht.dests] at hx
    rw [ht.cell]
    exact hw.pfx_eq hx
  · intro q x hx hq
    rw [ht.dests] at hx
    rw [ht.cell] at hq
    rw [ht.queue]
    exact hw.queued hx hq
  · intro q x hx p hp hnh
    rw [ht.dests] at hx
    rw [ht.cell] at hp
    right
    rcases hw.filed hx p hp hnh with ⟨rfl, heq⟩ | hfiles
    · have hq : q = (s.cell x).pfx := (hw.pfx_eq hx).symm
      rw [heq, hq]
      exact files_indexNexthop_self s x resolved igpMetric (heq ▸ hnh)
    · refine files_indexNexthop hfiles ?_
      intro _ hq
      rw [hpfx] at hq
      rw [hq, hd] at hx
      exact (Option.some.inj hx).symm
  · unfold indexNexthop
    split
    · exact hw.named
    · rename_i hne
      have hnil : ([] : Bytes) ≠ nexthop := fun heq => hne heq.symm
      simp [hnil, hw.named]

/-- Everything an arrival does that selection and next-hop tracking can see. -/
theorem addPath_spec {s s' : LocRib} {peer : PeerRef} {pfx : Prefix} {a : Arrival}
    (hw : s.Wf) (h : s.addPath peer pfx a = some s') :
    s'.Wf ∧ s'.afi = s.afi ∧
      (∃ path : BgpPath, path.attrs = a.attrs ∧ path.peer = peer ∧
        path.pathId = a.pathId ∧ path.answer = (a.resolved, a.igpMetric) ∧
        path.source = a.source ∧
        ∀ q, s'.pathsFor q =
          if q = pfx then putPath path (s.pathsFor q) else s.pathsFor q) ∧
      ∀ nh q x, nh ≠ [] → s'.Files nh q x →
        s'.nhState.get? nh =
          if nh = a.attrs.nexthop then some (a.resolved, a.igpMetric)
          else s.nhState.get? nh := by
  unfold addPath at h
  split at h
  · simp at h
  rename_i s₁ d hdest
  obtain ⟨hw₁, hd, hnh₁, hpath₁, hafi₁, hfor₁⟩ := dest_spec hw hdest
  simp only [Option.some.injEq] at h
  let path := a.path s₁.nextPath (s₁.attrTable.intern a.attrs).2 peer (s₁.cell d)
  let s₂ := { s₁ with
    attrTable := (s₁.attrTable.intern a.attrs).1
    nextPath := s₁.nextPath + 1 }
  let s₃ := s₂.setDest d ((s₂.cell d).add path)
  let s₄ := s₃.settleReplaced d a.attrs.nexthop ((s₁.cell d).find peer a.pathId)
  let s₅ := s₄.indexAdd peer d
  let s₆ := s₅.indexNexthop a.attrs.nexthop d a.resolved a.igpMetric
  change s₆.enqueue d = s' at h
  have hw₂ : s₂.Wf := hw₁.of_same ⟨rfl, rfl, rfl, rfl⟩ ⟨rfl, rfl⟩
  have hw₃ : WfBut (fun x nh => x = d ∧ nh = a.attrs.nexthop) [] s₃ := by
    refine hw₂.setDest d _ _ (fun _ _ hfalse => hfalse.elim) rfl Or.inl ?_
    intro q hx p hp hnh
    rcases mem_putPath hp with rfl | hold
    · exact Or.inl ⟨rfl, rfl⟩
    · exact Or.inr (hw₂.files hx hold hnh)
  have hw₄ : WfBut (fun x nh => x = d ∧ nh = a.attrs.nexthop) [] s₄ := settleReplaced_wf hw₃ d _ _
  have ht₄ : SameTable s₃ s₄ := settleReplaced_sameTable s₃ d _ _
  have hd₅ : s₅.dests.get? pfx = some d := by
    rw [(ht₄.trans (indexAdd_sameTable s₄ peer d)).dests]
    exact hd
  have hw₅ : WfBut (fun x nh => x = d ∧ nh = a.attrs.nexthop) [] s₅ :=
    hw₄.of_same (indexAdd_sameTable s₄ peer d) ⟨rfl, rfl⟩
  have hw₆ : s₆.Wf := indexNexthop_wf hd₅ hw₅ a.resolved a.igpMetric
  have ht₆ : SameTable s₃ s₆ :=
    (ht₄.trans (indexAdd_sameTable s₄ peer d)).trans (indexNexthop_sameTable s₅ _ d _ _)
  subst h
  refine ⟨hw₆.enqueue d, ?_, ⟨path, rfl, rfl, rfl, rfl, rfl, ?_⟩, ?_⟩
  · rw [enqueue_afi, ht₆.afi]
    exact hafi₁
  · intro q
    rw [pathsFor_enqueue, ht₆.pathsFor, Wf.pathsFor_setDest hw₂ hd]
    split
    · rename_i hq
      rw [hq, ← hfor₁, pathsFor_of_dests hd]
      rfl
    · exact hfor₁ q
  · intro nh q x hnh hfiles
    rw [(enqueue_sameNexthops s₆ d).files] at hfiles
    rw [(enqueue_sameNexthops s₆ d).nhState]
    split
    · rename_i heq
      have hself := nhState_indexNexthop s₅ a.attrs.nexthop nh d a.resolved a.igpMetric (heq ▸ hnh)
      rw [if_pos heq] at hself
      exact hself
    · rename_i hne
      have hfiles₅ : s₅.Files nh q x := (files_indexNexthop_of_ne hne).mp hfiles
      have hfiles₄ : s₄.Files nh q x := hfiles₅
      have hstate : s₆.nhState.get? nh = s₄.nhState.get? nh := by
        by_cases hempty : a.attrs.nexthop = []
        · simp [s₆, s₅, indexNexthop, hempty, indexAdd]
        · rw [nhState_indexNexthop s₅ _ nh d _ _ hempty, if_neg hne]
          rfl
      have hsettled : s₄.nhState.get? nh = s₃.nhState.get? nh := nhState_settleReplaced hfiles₄
      rw [hstate, hsettled, ← hnh₁.nhState]
      rfl

/-- A step that only takes paths and index entries away. -/
structure Shrinks (s s' : LocRib) : Prop where
  afi : s'.afi = s.afi
  paths : ∀ q, ∀ p ∈ s'.pathsFor q, p ∈ s.pathsFor q
  files : ∀ {nh q x}, s'.Files nh q x → s.Files nh q x
  nhState : ∀ {nh q x}, s'.Files nh q x → s'.nhState.get? nh = s.nhState.get? nh

theorem Shrinks.trans {s s' s'' : LocRib} (h : Shrinks s s')
    (h' : Shrinks s' s'') : Shrinks s s'' where
  afi := h'.afi.trans h.afi
  paths q p hp := h.paths q p (h'.paths q p hp)
  files hx := h.files (h'.files hx)
  nhState hx := (h'.nhState hx).trans (h.nhState (h'.files hx))

theorem Shrinks.of_same {s s' : LocRib} (ht : SameTable s s')
    (hn : SameNexthops s s') : Shrinks s s' where
  afi := ht.afi
  paths q p hp := by rwa [ht.pathsFor] at hp
  files hx := hn.files.mp hx
  nhState _ := by rw [hn.nhState]

theorem Shrinks.refl (s : LocRib) : Shrinks s s :=
  Shrinks.of_same (SameTable.refl s) (SameNexthops.refl s)

theorem files_of_unindexNexthop {s : LocRib} {nexthop nh : Bytes} {d x : DestId} {pfx : Prefix}
    (h : (s.unindexNexthop nexthop d).Files nh pfx x) : s.Files nh pfx x := by
  revert h
  unfold unindexNexthop
  split
  · exact id
  · split
    · exact id
    · rename_i dests hdests
      split
      · exact id
      · split
        · exact id
        · rw [files_fileNexthop]
          split
          · rename_i hnh
            intro hget
            rw [Dict.get?_erase] at hget
            split at hget
            · simp at hget
            · exact ⟨dests, by rw [hnh, hdests], hget⟩
          · exact id

theorem unindexNexthop_shrinks (s : LocRib) (nexthop : Bytes) (d : DestId) :
    Shrinks s (s.unindexNexthop nexthop d) where
  afi := (unindexNexthop_sameTable s nexthop d).afi
  paths q p hp := by rwa [(unindexNexthop_sameTable s nexthop d).pathsFor] at hp
  files := files_of_unindexNexthop
  nhState := nhState_unindexNexthop

theorem foldl_unindexNexthop_shrinks (gone : List BgpPath) (d : DestId) (s : LocRib) :
    Shrinks s (gone.foldl (fun s p => s.unindexNexthop p.attrs.nexthop d) s) := by
  induction gone generalizing s with
  | nil => exact Shrinks.refl s
  | cons p gone ih => exact (unindexNexthop_shrinks s p.attrs.nexthop d).trans (ih _)

theorem enqueue_shrinks (s : LocRib) (d : DestId) : Shrinks s (s.enqueue d) where
  afi := enqueue_afi s d
  paths q p hp := by rwa [pathsFor_enqueue] at hp
  files := (enqueue_sameNexthops s d).files.mp
  nhState _ := by rw [(enqueue_sameNexthops s d).nhState]

theorem dropEmpty_shrinks (s : LocRib) (d : DestId) : Shrinks s (s.dropEmpty d) where
  afi := dropEmpty_afi s d
  paths q p hp := by rwa [pathsFor_dropEmpty] at hp
  files := (dropEmpty_sameNexthops s d).files.mp
  nhState _ := by rw [(dropEmpty_sameNexthops s d).nhState]

theorem setDest_shrinks (s : LocRib) (d : DestId) (dest : BgpDest)
    (hsub : ∀ p ∈ dest.paths, p ∈ (s.cell d).paths) : Shrinks s (s.setDest d dest) where
  afi := rfl
  paths q p hp := by
    obtain ⟨x, hx, hpx⟩ := mem_pathsFor.mp hp
    refine mem_pathsFor.mpr ⟨x, hx, ?_⟩
    rw [cell_setDest] at hpx
    split at hpx
    · rename_i hxd
      rw [hxd]
      exact hsub p hpx
    · exact hpx
  files := id
  nhState _ := rfl

/-- Taking paths away from one destination and letting go of it. -/
theorem remove_spec {unfiled : DestId → Bytes → Prop} {todo : List DestId} {s s₁ : LocRib}
    (hw : WfBut unfiled todo s) (d : DestId) (dest : BgpDest) (gone : List BgpPath)
    (hpfx : dest.pfx = (s.cell d).pfx) (hqueued : dest.queued = (s.cell d).queued)
    (hsub : ∀ p ∈ dest.paths, p ∈ (s.cell d).paths) (ht : SameTable (s.setDest d dest) s₁)
    (hn : SameNexthops (s.setDest d dest) s₁) :
    WfBut unfiled todo (gone.foldl (fun s p => s.unindexNexthop p.attrs.nexthop d)
      ((s₁.enqueue d).dropEmpty d)) ∧
    Shrinks s (gone.foldl (fun s p => s.unindexNexthop p.attrs.nexthop d)
      ((s₁.enqueue d).dropEmpty d)) := by
  have hset : WfBut unfiled todo (s.setDest d dest) :=
    hw.setDest d dest unfiled (fun _ _ h => h) hpfx (fun h => Or.inl (hqueued ▸ h))
      (fun _ hx p hp hnh => hw.filed hx p (hsub p hp) hnh)
  have hw₁ : WfBut unfiled todo s₁ := hset.of_same ht hn
  constructor
  · exact WfBut.foldl_unindexNexthop gone d ((hw₁.enqueue d).dropEmpty d)
  · refine ((setDest_shrinks s d dest hsub).trans (Shrinks.of_same ht hn)).trans ?_
    exact ((enqueue_shrinks s₁ d).trans (dropEmpty_shrinks _ d)).trans
      (foldl_unindexNexthop_shrinks gone d _)

theorem removePath_spec {s : LocRib} (hw : s.Wf) (peer : PeerRef) (pfx : Prefix) (pathId : Nat) :
    (s.removePath peer pfx pathId).Wf ∧ Shrinks s (s.removePath peer pfx pathId) := by
  unfold removePath
  split
  · exact ⟨hw, Shrinks.refl s⟩
  · rename_i d hd
    split
    · exact ⟨hw, Shrinks.refl s⟩
    · rename_i path hpath
      let s₁ := { s.setDest d ((s.cell d).remove peer pathId) with
        pathCount := s.pathCount - 1
        attrTable := s.attrTable.release path.attrs path.interned }
      let s₂ := if s₁.peerHas peer d then s₁ else s₁.indexRemove peer pfx
      change ((((s₂.enqueue d).dropEmpty d).unindexNexthop path.attrs.nexthop d)).Wf ∧
        Shrinks s (((s₂.enqueue d).dropEmpty d).unindexNexthop path.attrs.nexthop d)
      have hcount : SameTable (s.setDest d ((s.cell d).remove peer pathId)) s₁ ∧
          SameNexthops (s.setDest d ((s.cell d).remove peer pathId)) s₁ :=
        ⟨⟨rfl, rfl, rfl, rfl⟩, ⟨rfl, rfl⟩⟩
      have ht : SameTable (s.setDest d ((s.cell d).remove peer pathId)) s₂ := by
        dsimp only [s₂]
        split
        · exact ⟨rfl, rfl, rfl, rfl⟩
        · exact hcount.1.trans (indexRemove_sameTable s₁ peer pfx)
      have hn : SameNexthops (s.setDest d ((s.cell d).remove peer pathId)) s₂ := by
        dsimp only [s₂]
        split
        · exact ⟨rfl, rfl⟩
        · exact hcount.2.trans (indexRemove_sameNexthops s₁ peer pfx)
      exact remove_spec hw d ((s.cell d).remove peer pathId) [path] rfl rfl
        (fun p hp => List.mem_of_mem_eraseP hp) ht hn

theorem removePeerFrom_spec {s : LocRib} (hw : s.Wf) (peer : PeerRef) (d : DestId) :
    (removePeerFrom peer s d).Wf ∧ Shrinks s (removePeerFrom peer s d) := by
  let gone := (s.cell d).paths.filter fun p => p.peer.oid == peer.oid
  let s₁ := { s with
    attrTable := gone.foldl (fun t (p : BgpPath) => t.release p.attrs p.interned) s.attrTable }
  have ht₁ : SameTable s s₁ := ⟨rfl, rfl, rfl, rfl⟩
  have hw₁ : s₁.Wf := hw.of_same ht₁ ⟨rfl, rfl⟩
  have hs₁ : Shrinks s s₁ := Shrinks.of_same ht₁ ⟨rfl, rfl⟩
  unfold removePeerFrom
  dsimp only
  split
  · exact ⟨hw₁, hs₁⟩
  · let s₂ := { s₁.setDest d ((s₁.cell d).removePeer peer) with
      pathCount := s₁.pathCount - gone.length }
    have ht₂ : SameTable (s₁.setDest d ((s₁.cell d).removePeer peer)) s₂ := ⟨rfl, rfl, rfl, rfl⟩
    obtain ⟨hwf, hshrinks⟩ := remove_spec hw₁ d ((s₁.cell d).removePeer peer)
      gone rfl rfl (fun p hp => (List.mem_filter.mp hp).1) ht₂ ⟨rfl, rfl⟩
    exact ⟨hwf, hs₁.trans hshrinks⟩

theorem foldl_removePeerFrom_spec (peer : PeerRef) (held : List DestId) {s : LocRib} (hw : s.Wf) :
    (held.foldl (removePeerFrom peer) s).Wf ∧ Shrinks s (held.foldl (removePeerFrom peer) s) := by
  induction held generalizing s with
  | nil => exact ⟨hw, Shrinks.refl s⟩
  | cons d held ih =>
    obtain ⟨hw₁, hs₁⟩ := removePeerFrom_spec hw peer d
    obtain ⟨hw₂, hs₂⟩ := ih hw₁
    exact ⟨hw₂, hs₁.trans hs₂⟩

theorem removePeer_spec {s : LocRib} (hw : s.Wf) (peer : PeerRef) :
    (s.removePeer peer).Wf ∧ Shrinks s (s.removePeer peer) := by
  unfold removePeer
  split
  · exact ⟨hw, Shrinks.refl s⟩
  · rename_i contributed _
    have ht : SameTable s { s with byPeer := s.byPeer.erase peer.oid } := ⟨rfl, rfl, rfl, rfl⟩
    obtain ⟨hw₁, hs₁⟩ := foldl_removePeerFrom_spec peer contributed.values
      (hw.of_same ht ⟨rfl, rfl⟩)
    exact ⟨hw₁, (Shrinks.of_same ht ⟨rfl, rfl⟩).trans hs₁⟩

theorem retract_sameTable (s : LocRib) (pfx : Prefix) : SameTable s (s.retract pfx) := by
  unfold retract
  split <;> exact ⟨rfl, rfl, rfl, rfl⟩

theorem retract_sameNexthops (s : LocRib) (pfx : Prefix) : SameNexthops s (s.retract pfx) := by
  unfold retract
  split <;> exact ⟨rfl, rfl⟩

theorem offer_sameTable (s : LocRib) (pfx : Prefix) (path : BgpPath) :
    SameTable s (s.offer pfx path) := by
  unfold offer
  split
  · exact retract_sameTable s pfx
  · split
    · exact retract_sameTable s pfx
    · exact ⟨rfl, rfl, rfl, rfl⟩

theorem offer_sameNexthops (s : LocRib) (pfx : Prefix) (path : BgpPath) :
    SameNexthops s (s.offer pfx path) := by
  unfold offer
  split
  · exact retract_sameNexthops s pfx
  · split
    · exact retract_sameNexthops s pfx
    · exact ⟨rfl, rfl⟩

/-- Publication of the winner of one destination, nothing when it is the old one. -/
def publish (s : LocRib) (previous : Option BgpPath) (dest : BgpDest) : LocRib :=
  if dest.best.map BgpPath.oid = previous.map BgpPath.oid then s
  else
    match dest.best with
    | none => s.retract dest.pfx
    | some winner => if !winner.resolved then s.retract dest.pfx else s.offer dest.pfx winner

theorem publish_same (s : LocRib) (previous : Option BgpPath) (dest : BgpDest) :
    SameTable s (s.publish previous dest) ∧ SameNexthops s (s.publish previous dest) := by
  unfold publish
  split
  · exact ⟨SameTable.refl s, SameNexthops.refl s⟩
  · split
    · exact ⟨retract_sameTable s _, retract_sameNexthops s _⟩
    · split
      · exact ⟨retract_sameTable s _, retract_sameNexthops s _⟩
      · exact ⟨offer_sameTable s _ _, offer_sameNexthops s _ _⟩

theorem reselectDest_eq (s : LocRib) (d : DestId) :
    s.reselectDest d =
      let dest := ({ s.cell d with queued := false }).reselect s.config
      let s' := (s.setDest d dest).publish (s.cell d).best dest
      if dest.best.isNone then s'.dropEmpty d else s' := rfl

/-- Selecting one destination changes no path and no next hop. -/
theorem reselectDest_spec {s : LocRib} {todo : List DestId} (d : DestId)
    (hw : WfBut (fun _ _ => False) (d :: todo) s) :
    WfBut (fun _ _ => False) todo (s.reselectDest d) ∧ Shrinks s (s.reselectDest d) ∧
      ∀ q, (s.reselectDest d).pathsFor q = s.pathsFor q := by
  let dest := ({ s.cell d with queued := false }).reselect s.config
  obtain ⟨ht, hn⟩ := publish_same (s.setDest d dest) (s.cell d).best dest
  have hset : WfBut (fun _ _ => False) todo (s.setDest d dest) := by
    constructor
    · exact hw.allocated
    · intro q x hx
      rw [cell_setDest]
      split
      · rename_i hxd
        subst hxd
        exact hw.pfx_eq hx
      · exact hw.pfx_eq hx
    · intro q x hx hq
      rw [cell_setDest] at hq
      split at hq
      · simp [dest, BgpDest.reselect] at hq
      · rename_i hxd
        rcases hw.queued hx hq with hmem | hmem
        · exact Or.inl hmem
        · rcases List.mem_cons.mp hmem with rfl | hrest
          · exact absurd rfl hxd
          · exact Or.inr hrest
    · intro q x hx p hp hnh
      rw [cell_setDest] at hp
      split at hp
      · rename_i hxd
        subst hxd
        exact hw.filed hx p hp hnh
      · exact hw.filed hx p hp hnh
    · exact hw.named
  have hw' := hset.of_same ht hn
  have hs' : Shrinks s ((s.setDest d dest).publish (s.cell d).best dest) :=
    (setDest_shrinks s d dest fun _ hp => hp).trans (Shrinks.of_same ht hn)
  have hfor : ∀ q, ((s.setDest d dest).publish (s.cell d).best dest).pathsFor q = s.pathsFor q := by
    intro q
    rw [ht.pathsFor]
    have hdests : (s.setDest d dest).dests = s.dests := rfl
    simp only [pathsFor, hdests, cell_setDest]
    split
    · rfl
    · split
      · rename_i hxd
        rw [hxd]
        rfl
      · rfl
  rw [reselectDest_eq]
  dsimp only
  split
  · exact ⟨hw'.dropEmpty d, hs'.trans (dropEmpty_shrinks _ d), fun q => by
      rw [pathsFor_dropEmpty]
      exact hfor q⟩
  · exact ⟨hw', hs', hfor⟩

theorem foldl_reselectDest_spec (todo : List DestId) {s : LocRib}
    (hw : WfBut (fun _ _ => False) todo s) :
    (todo.foldl reselectDest s).Wf ∧ Shrinks s (todo.foldl reselectDest s) ∧
      ∀ q, (todo.foldl reselectDest s).pathsFor q = s.pathsFor q := by
  induction todo generalizing s with
  | nil => exact ⟨hw, Shrinks.refl s, fun _ => rfl⟩
  | cons d todo ih =>
    obtain ⟨hw₁, hs₁, hfor₁⟩ := reselectDest_spec d hw
    obtain ⟨hw₂, hs₂, hfor₂⟩ := ih hw₁
    exact ⟨hw₂, hs₁.trans hs₂, fun q => (hfor₂ q).trans (hfor₁ q)⟩

theorem reselect_spec {s : LocRib} (hw : s.Wf) (limit : Int) :
    (s.reselect limit).Wf ∧ Shrinks s (s.reselect limit) ∧
      ∀ q, (s.reselect limit).pathsFor q = s.pathsFor q := by
  unfold reselect
  dsimp only
  generalize (if limit ≤ 0 then s.queue.length else min limit.toNat s.queue.length) = count
  have hs₁ : Shrinks s { s with queue := s.queue.drop count } :=
    ⟨rfl, fun _ _ hp => hp, id, fun _ => rfl⟩
  have hw₁ : WfBut (fun _ _ => False) (s.queue.take count)
      { s with queue := s.queue.drop count } := by
    refine ⟨hw.allocated, hw.pfx_eq, ?_, hw.filed, hw.named⟩
    intro q x hx hq
    have hmem := hw.mem_queue hx hq
    rw [← List.take_append_drop count s.queue, List.mem_append] at hmem
    exact hmem.symm
  obtain ⟨hw₂, hs₂, hfor₂⟩ := foldl_reselectDest_spec (s.queue.take count) hw₁
  exact ⟨hw₂, hs₁.trans hs₂, fun q => hfor₂ q⟩

theorem foldl_enqueue_spec (held : List DestId) {s : LocRib} (hw : s.Wf) :
    (held.foldl enqueue s).Wf ∧ Shrinks s (held.foldl enqueue s) ∧
      ∀ q, (held.foldl enqueue s).pathsFor q = s.pathsFor q := by
  induction held generalizing s with
  | nil => exact ⟨hw, Shrinks.refl s, fun _ => rfl⟩
  | cons d held ih =>
    obtain ⟨hw₂, hs₂, hfor₂⟩ := ih (hw.enqueue d)
    exact ⟨hw₂, (enqueue_shrinks s d).trans hs₂, fun q => (hfor₂ q).trans (pathsFor_enqueue s d q)⟩

theorem setConfig_spec {s : LocRib} (hw : s.Wf) (config : BestpathConfig) :
    (s.setConfig config).Wf ∧ Shrinks s (s.setConfig config) ∧
      ∀ q, (s.setConfig config).pathsFor q = s.pathsFor q := by
  unfold setConfig
  split
  · exact ⟨hw, Shrinks.refl s, fun _ => rfl⟩
  · have ht : SameTable s { s with config := config } := ⟨rfl, rfl, rfl, rfl⟩
    obtain ⟨hw₁, hs₁, hfor₁⟩ := foldl_enqueue_spec s.dests.values (hw.of_same ht ⟨rfl, rfl⟩)
    exact ⟨hw₁, (Shrinks.of_same ht ⟨rfl, rfl⟩).trans hs₁, fun q => (hfor₁ q).trans (ht.pathsFor q)⟩

theorem foldl_retract_afi (pfxs : List Prefix) (s : LocRib) :
    (pfxs.foldl retract s).afi = s.afi := by
  induction pfxs generalizing s with
  | nil => rfl
  | cons pfx pfxs ih => exact (ih (s.retract pfx)).trans (retract_sameTable s pfx).afi

theorem foldl_unqueue_afi (held : List DestId) (s : LocRib) :
    (held.foldl (fun s d => s.setDest d { s.cell d with queued := false }) s).afi =
      s.afi := by
  induction held generalizing s with
  | nil => rfl
  | cons d held ih => exact ih _

theorem clear_afi (s : LocRib) : s.clear.afi = s.afi := by
  unfold clear
  dsimp only
  rw [foldl_retract_afi, foldl_unqueue_afi]

theorem wf_of_dests_empty {s : LocRib} (h : s.dests = Dict.empty)
    (hn : s.nhDests = Dict.empty) : s.Wf where
  allocated hx := by simp [h] at hx
  pfx_eq hx := by simp [h] at hx
  queued hx := by simp [h] at hx
  filed hx := by simp [h] at hx
  named := by rw [hn, Dict.get?_empty]

theorem clear_wf (s : LocRib) : s.clear.Wf := wf_of_dests_empty rfl rfl

theorem pathsFor_clear (s : LocRib) (q : Prefix) : s.clear.pathsFor q = [] := rfl

theorem new_wf (afi safi : Nat) (attrTable : AttrTable) (config : BestpathConfig)
    (unused : BgpDest) : (new afi safi attrTable config unused).Wf :=
  wf_of_dests_empty rfl rfl

end LocRib

end Packets
