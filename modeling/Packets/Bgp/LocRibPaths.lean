/-
The Loc-RIB as a map.

A path is named by its session and its path identifier, and each operation is described by what
it does to the map from a prefix and a name to a path.
-/
import Packets.Bgp.NexthopTracking

namespace Packets

/-- What a path is held under in the destination of its prefix. -/
def BgpPath.name (p : BgpPath) : Nat × Nat := (p.peer.oid, p.pathId)

theorem BgpPath.isFrom_iff {p : BgpPath} {peer : PeerRef} {pathId : Nat} :
    p.isFrom peer pathId = true ↔ p.name = (peer.oid, pathId) := by
  simp [isFrom, name]

/-- What a peer and its policy made of a path; next-hop tracking does not touch it. -/
structure PathContent where
  peer : PeerRef
  pathId : Nat
  attrs : AttrSet
  weight : Nat
deriving DecidableEq

def BgpPath.content (p : BgpPath) : PathContent := ⟨p.peer, p.pathId, p.attrs, p.weight⟩

def findNamed (name : Nat × Nat) (paths : List BgpPath) : Option BgpPath :=
  paths.find? fun p => p.name = name

theorem findNamed_cons (name : Nat × Nat) (p : BgpPath) (rest : List BgpPath) :
    findNamed name (p :: rest) = if p.name = name then some p else findNamed name rest := by
  unfold findNamed
  rw [List.find?_cons]
  split <;> simp_all

theorem findNamed_eq_none_iff {name : Nat × Nat} {paths : List BgpPath} :
    findNamed name paths = none ↔ name ∉ paths.map BgpPath.name := by
  simp [findNamed]

theorem findNamed_some {name : Nat × Nat} {paths : List BgpPath} {p : BgpPath}
    (h : findNamed name paths = some p) : p ∈ paths ∧ p.name = name :=
  ⟨List.mem_of_find?_eq_some h, by simpa using List.find?_some h⟩

theorem findNamed_of_mem {paths : List BgpPath} {p : BgpPath}
    (hnodup : (paths.map BgpPath.name).Nodup) (hp : p ∈ paths) :
    findNamed p.name paths = some p := by
  induction paths with
  | nil => simp at hp
  | cons q rest ih =>
    simp only [List.map_cons, List.nodup_cons] at hnodup
    rw [findNamed_cons]
    rcases List.mem_cons.mp hp with rfl | hrest
    · rw [if_pos rfl]
    · have hne : q.name ≠ p.name := fun heq =>
        hnodup.1 (heq ▸ List.mem_map.mpr ⟨p, hrest, rfl⟩)
      rw [if_neg hne, ih hnodup.2 hrest]

theorem findNamed_putPath (path : BgpPath) (paths : List BgpPath) (name : Nat × Nat) :
    findNamed name (putPath path paths) =
      if path.name = name then some path else findNamed name paths := by
  induction paths with
  | nil => simp [putPath, findNamed]
  | cons old rest ih =>
    by_cases hsame : old.isFrom path.peer path.pathId = true
    · have hname : old.name = path.name := BgpPath.isFrom_iff.mp hsame
      simp only [putPath, hsame, ↓reduceIte, findNamed_cons, hname]
      split <;> rfl
    · have hname : old.name ≠ path.name := fun heq =>
        hsame (BgpPath.isFrom_iff.mpr heq)
      simp only [putPath, hsame, Bool.false_eq_true, ↓reduceIte, findNamed_cons, ih]
      by_cases hpath : path.name = name
      · have hold : old.name ≠ name := fun heq => hname (heq.trans hpath.symm)
        simp only [hpath, hold, ↓reduceIte]
      · simp only [hpath, ↓reduceIte]

theorem map_name_putPath (path : BgpPath) (paths : List BgpPath) :
    (putPath path paths).map BgpPath.name =
      if path.name ∈ paths.map BgpPath.name then paths.map BgpPath.name
      else paths.map BgpPath.name ++ [path.name] := by
  induction paths with
  | nil => simp [putPath]
  | cons old rest ih =>
    by_cases hsame : old.isFrom path.peer path.pathId = true
    · have hname : old.name = path.name := BgpPath.isFrom_iff.mp hsame
      simp [putPath, hsame, hname]
    · have hname : path.name ≠ old.name := fun heq =>
        hsame (BgpPath.isFrom_iff.mpr heq.symm)
      simp only [putPath, hsame, Bool.false_eq_true, ↓reduceIte, List.map_cons, ih,
        List.mem_cons, hname, false_or]
      split <;> simp

theorem nodup_putPath {path : BgpPath} {paths : List BgpPath} (h : (paths.map BgpPath.name).Nodup) :
    ((putPath path paths).map BgpPath.name).Nodup := by
  rw [map_name_putPath]
  split
  · exact h
  · rename_i hnew
    refine List.nodup_append.mpr ⟨h, List.nodup_singleton _, ?_⟩
    intro x hx y hy heq
    rw [List.mem_singleton.mp hy] at heq
    exact hnew (heq ▸ hx)

theorem findNamed_eraseP {paths : List BgpPath} (peer : PeerRef) (pathId : Nat)
    (hnodup : (paths.map BgpPath.name).Nodup) (name : Nat × Nat) :
    findNamed name (paths.eraseP fun p => p.isFrom peer pathId) =
      if name = (peer.oid, pathId) then none else findNamed name paths := by
  induction paths with
  | nil => simp [findNamed]
  | cons old rest ih =>
    simp only [List.map_cons, List.nodup_cons] at hnodup
    by_cases hsame : old.isFrom peer pathId = true
    · have hname : old.name = (peer.oid, pathId) := BgpPath.isFrom_iff.mp hsame
      have hgone : (old :: rest).eraseP (fun p => p.isFrom peer pathId) = rest := by simp [hsame]
      rw [hgone, findNamed_cons]
      split
      · rename_i heq
        rw [findNamed_eq_none_iff, heq, ← hname]
        exact hnodup.1
      · rename_i hne
        rw [if_neg fun heq => hne (heq.symm.trans hname)]
    · have hname : old.name ≠ (peer.oid, pathId) := fun heq =>
        hsame (BgpPath.isFrom_iff.mpr heq)
      have hstay : (old :: rest).eraseP (fun p => p.isFrom peer pathId) =
          old :: rest.eraseP fun p => p.isFrom peer pathId := by
        simp [hsame]
      rw [hstay, findNamed_cons, findNamed_cons, ih hnodup.2]
      by_cases heq : name = (peer.oid, pathId)
      · have hold : old.name ≠ name := heq ▸ hname
        simp only [heq, ↓reduceIte, hname]
      · simp only [heq, ↓reduceIte]

theorem findNamed_removePeer (oid : Nat) (paths : List BgpPath) (name : Nat × Nat) :
    findNamed name (paths.filter fun p => p.peer.oid ≠ oid) =
      if name.1 = oid then none else findNamed name paths := by
  induction paths with
  | nil => simp [findNamed]
  | cons old rest ih =>
    by_cases hsame : old.peer.oid = oid
    · have hgone : (old :: rest).filter (fun p => p.peer.oid ≠ oid) =
          rest.filter fun p => p.peer.oid ≠ oid := by simp [hsame]
      rw [hgone, ih, findNamed_cons]
      by_cases hname : name.1 = oid
      · rw [if_pos hname, if_pos hname]
      · rw [if_neg hname, if_neg hname, if_neg]
        rintro rfl
        exact hname hsame
    · have hstay : (old :: rest).filter (fun p => p.peer.oid ≠ oid) =
          old :: rest.filter fun p => p.peer.oid ≠ oid := by simp [hsame]
      rw [hstay, findNamed_cons, ih, findNamed_cons]
      by_cases hname : name.1 = oid
      · rw [if_pos hname, if_pos hname, if_neg]
        rintro rfl
        exact hsame hname
      · rw [if_neg hname, if_neg hname]

namespace LocRib

/-- The path of a prefix held under a name. -/
def held (s : LocRib) (pfx : Prefix) (name : Nat × Nat) : Option BgpPath :=
  findNamed name (s.pathsFor pfx)

/-- The per-peer index says a session contributes to a destination. -/
def Contributes (s : LocRib) (oid : Nat) (pfx : Prefix) (d : DestId) : Prop :=
  ∃ contributed, s.byPeer.get? oid = some contributed ∧ contributed.get? pfx = some d

/-- A session has a path for a prefix. -/
def HasFrom (s : LocRib) (oid : Nat) (pfx : Prefix) : Prop := ∃ p ∈ s.pathsFor pfx, p.peer.oid = oid

/-- The table between operations: paths have distinct names, and the per-peer index
lists exactly the destinations a session has paths in. -/
structure Indexed (s : LocRib) : Prop where
  wf : s.Wf
  nodup : ∀ q, ((s.pathsFor q).map BgpPath.name).Nodup
  exact : ∀ oid q d, s.Contributes oid q d ↔ s.dests.get? q = some d ∧ s.HasFrom oid q

theorem HasFrom.exists_dest {s : LocRib} {oid : Nat} {q : Prefix}
    (h : s.HasFrom oid q) : ∃ d, s.dests.get? q = some d := by
  obtain ⟨p, hp, _⟩ := h
  obtain ⟨d, hd, _⟩ := mem_pathsFor.mp hp
  exact ⟨d, hd⟩

theorem Indexed.mem_iff {s : LocRib} (h : s.Indexed) {q : Prefix} {p : BgpPath} :
    p ∈ s.pathsFor q ↔ s.held q p.name = some p :=
  ⟨findNamed_of_mem (h.nodup q), fun hp => (findNamed_some hp).1⟩

/-- Changes that leave the index exact: no destination is added, names only go, and
the index keeps the entries of the sessions that still have a path. -/
theorem Indexed.of_shrink {s s' : LocRib} (h : s.Indexed) (hw : s'.Wf)
    (hdests : ∀ q d, s'.dests.get? q = some d → s.dests.get? q = some d)
    (hnames : ∀ q, ((s'.pathsFor q).map BgpPath.name).Sublist ((s.pathsFor q).map BgpPath.name))
    (hindex : ∀ oid q d, s'.Contributes oid q d ↔ s.Contributes oid q d ∧ s'.HasFrom oid q) :
    s'.Indexed where
  wf := hw
  nodup q := (h.nodup q).sublist (hnames q)
  exact oid q d := by
    rw [hindex, h.exact]
    constructor
    · rintro ⟨⟨hd, _⟩, hhas⟩
      obtain ⟨d', hd'⟩ := hhas.exists_dest
      have heq := hdests q d' hd'
      rw [hd, Option.some.injEq] at heq
      exact ⟨heq ▸ hd', hhas⟩
    · rintro ⟨hd, hhas⟩
      refine ⟨⟨hdests q d hd, ?_⟩, hhas⟩
      obtain ⟨p, hp, hoid⟩ := hhas
      have hname := (hnames q).subset (List.mem_map.mpr ⟨p, hp, rfl⟩)
      obtain ⟨old, hold, heq⟩ := List.mem_map.mp hname
      exact ⟨old, hold, (congrArg Prod.fst heq).trans hoid⟩

/-- Changes that keep every path's name and leave the per-peer index alone. -/
theorem Indexed.of_same_names {s s' : LocRib} (h : s.Indexed) (hw : s'.Wf)
    (hdests : ∀ q d, s'.dests.get? q = some d → s.dests.get? q = some d)
    (hnames : ∀ q, (s'.pathsFor q).map BgpPath.name = (s.pathsFor q).map BgpPath.name)
    (hbyPeer : s'.byPeer = s.byPeer) : s'.Indexed := by
  refine h.of_shrink hw hdests (fun q => (hnames q).symm ▸ List.Sublist.refl _) ?_
  intro oid q d
  have hindex : s'.Contributes oid q d ↔ s.Contributes oid q d := by
    simp only [Contributes, hbyPeer]
  rw [hindex]
  refine ⟨fun hc => ⟨hc, ?_⟩, And.left⟩
  obtain ⟨_, p, hp, hoid⟩ := (h.exact oid q d).mp hc
  have hname : p.name ∈ (s'.pathsFor q).map BgpPath.name := by
    rw [hnames q]
    exact List.mem_map.mpr ⟨p, hp, rfl⟩
  obtain ⟨p', hp', heq⟩ := List.mem_map.mp hname
  exact ⟨p', hp', (congrArg Prod.fst heq).trans hoid⟩

@[simp] theorem enqueue_byPeer (s : LocRib) (d : DestId) : (s.enqueue d).byPeer = s.byPeer := by
  unfold enqueue
  split <;> rfl

@[simp] theorem dropEmpty_byPeer (s : LocRib) (d : DestId) : (s.dropEmpty d).byPeer = s.byPeer := by
  unfold dropEmpty
  split <;> rfl

@[simp] theorem fileNexthop_byPeer (s : LocRib) (nexthop : Bytes)
    (dests : Dict Prefix DestId) : (s.fileNexthop nexthop dests).byPeer = s.byPeer := by
  unfold fileNexthop
  split <;> rfl

@[simp] theorem unindexNexthop_byPeer (s : LocRib) (nexthop : Bytes) (d : DestId) :
    (s.unindexNexthop nexthop d).byPeer = s.byPeer := by
  unfold unindexNexthop
  split
  · rfl
  · split
    · rfl
    · split
      · rfl
      · split
        · rfl
        · exact fileNexthop_byPeer s nexthop _

@[simp] theorem indexNexthop_byPeer (s : LocRib) (nexthop : Bytes) (d : DestId) (resolved : Bool)
    (igpMetric : Nat) : (s.indexNexthop nexthop d resolved igpMetric).byPeer = s.byPeer := by
  unfold indexNexthop
  split <;> rfl

@[simp] theorem settleReplaced_byPeer (s : LocRib) (d : DestId) (nexthop : Bytes)
    (replaced : Option BgpPath) : (s.settleReplaced d nexthop replaced).byPeer = s.byPeer := by
  cases replaced with
  | none => rfl
  | some old =>
    simp only [settleReplaced]
    split
    · exact unindexNexthop_byPeer _ _ _
    · rfl

@[simp] theorem retract_byPeer (s : LocRib) (pfx : Prefix) : (s.retract pfx).byPeer = s.byPeer := by
  unfold retract
  split <;> rfl

@[simp] theorem offer_byPeer (s : LocRib) (pfx : Prefix) (path : BgpPath) :
    (s.offer pfx path).byPeer = s.byPeer := by
  unfold offer
  split
  · exact retract_byPeer s pfx
  · split
    · exact retract_byPeer s pfx
    · rfl

@[simp] theorem publish_byPeer (s : LocRib) (previous : Option BgpPath)
    (dest : BgpDest) : (s.publish previous dest).byPeer = s.byPeer := by
  unfold publish
  split
  · rfl
  · split
    · exact retract_byPeer s _
    · split
      · exact retract_byPeer s _
      · exact offer_byPeer s _ _

theorem foldl_unindexNexthop_byPeer (gone : List BgpPath) (d : DestId) (s : LocRib) :
    (gone.foldl (fun s p => s.unindexNexthop p.attrs.nexthop d) s).byPeer = s.byPeer := by
  induction gone generalizing s with
  | nil => rfl
  | cons p gone ih => exact (ih _).trans (unindexNexthop_byPeer s _ d)

theorem foldl_unindexNexthop_sameTable (gone : List BgpPath) (d : DestId) (s : LocRib) :
    SameTable s (gone.foldl (fun s p => s.unindexNexthop p.attrs.nexthop d) s) := by
  induction gone generalizing s with
  | nil => exact SameTable.refl s
  | cons p gone ih => exact (unindexNexthop_sameTable s p.attrs.nexthop d).trans (ih _)

theorem contributes_indexAdd (s : LocRib) (peer : PeerRef) (d : DestId) (oid : Nat)
    (q : Prefix) (x : DestId) :
    (s.indexAdd peer d).Contributes oid q x ↔
      if oid = peer.oid ∧ q = (s.cell d).pfx then x = d else s.Contributes oid q x := by
  unfold Contributes indexAdd
  by_cases hoid : oid = peer.oid
  · subst hoid
    simp only [Dict.get?_set, ↓reduceIte, Option.some.injEq, exists_eq_left', true_and]
    by_cases hq : q = (s.cell d).pfx
    · simp [hq, eq_comm]
    · simp only [hq, ↓reduceIte]
      cases hget : s.byPeer.get? peer.oid with
      | none => simp
      | some contributed => simp
  · simp [hoid]

theorem contributes_indexRemove (s : LocRib) (peer : PeerRef) (pfx : Prefix) (oid : Nat)
    (q : Prefix) (x : DestId) :
    (s.indexRemove peer pfx).Contributes oid q x ↔
      s.Contributes oid q x ∧ ¬ (oid = peer.oid ∧ q = pfx) := by
  unfold indexRemove
  split
  · rename_i hnone
    refine ⟨fun h => ⟨h, ?_⟩, And.left⟩
    rintro ⟨rfl, _⟩
    obtain ⟨contributed, hget, _⟩ := h
    rw [hnone] at hget
    exact absurd hget (by simp)
  · rename_i contributed hget
    by_cases hoid : oid = peer.oid
    · subst hoid
      by_cases hempty : (contributed.erase pfx).isEmpty = true
      · have hgone : ∀ p, (contributed.erase pfx).get? p = none :=
          Dict.isEmpty_iff.mp hempty
        have hold := hgone q
        rw [Dict.get?_erase] at hold
        simp only [Contributes, hempty, ↓reduceIte, Dict.get?_erase, hget,
          Option.some.injEq, exists_eq_left', true_and]
        by_cases hq : q = pfx
        · simp [hq]
        · rw [if_neg hq] at hold
          simp [hold]
      · simp only [Contributes, hempty, Bool.false_eq_true, ↓reduceIte, Dict.get?_set,
          Option.some.injEq, exists_eq_left', Dict.get?_erase, hget, true_and]
        by_cases hq : q = pfx
        · simp [hq]
        · simp [hq]
    · simp only [Contributes, hoid, false_and, not_false_eq_true, and_true]
      split <;> simp [hoid]

theorem dest_byPeer {s s' : LocRib} {pfx : Prefix} {d : DestId}
    (h : s.dest pfx = some (s', d)) : s'.byPeer = s.byPeer := by
  unfold dest at h
  split at h
  · simp at h
  · split at h <;> (cases h; rfl)

theorem dest_dests {s s' : LocRib} {pfx : Prefix} {d : DestId} (h : s.dest pfx = some (s', d))
    (q : Prefix) : s'.dests.get? q = if q = pfx then some d else s.dests.get? q := by
  unfold dest at h
  split at h
  · simp at h
  · split at h
    · rename_i x hx
      cases h
      split
      · rename_i hq
        rw [hq, hx]
      · rfl
    · cases h
      exact Dict.get?_set _ _ _ _

theorem dest_eq {s s' : LocRib} {pfx : Prefix} {d x : DestId}
    (hx : s.dests.get? pfx = some x) (h : s.dest pfx = some (s', d)) : x = d := by
  unfold dest at h
  split at h
  · simp at h
  · rw [hx] at h
    cases h
    rfl

/-- The path an arrival puts in the table. -/
structure PutBy (peer : PeerRef) (a : Arrival) (path : BgpPath) : Prop where
  peer : path.peer = peer
  pathId : path.pathId = a.pathId
  attrs : path.attrs = a.attrs
  weight : path.weight = a.weight

/-- An arrival puts one path under its name and touches no other. -/
theorem addPath_indexed {s s' : LocRib} {peer : PeerRef} {pfx : Prefix} {a : Arrival}
    (h : s.Indexed) (hadd : s.addPath peer pfx a = some s') :
    s'.Indexed ∧ ∃ path, PutBy peer a path ∧ ∀ q, s'.pathsFor q =
      if q = pfx then putPath path (s.pathsFor q) else s.pathsFor q := by
  obtain ⟨hw', -⟩ := addPath_spec h.wf hadd
  unfold addPath at hadd
  split at hadd
  · simp at hadd
  rename_i s₁ d hdest
  obtain ⟨hw₁, hd, -, -, -, hfor₁⟩ := dest_spec h.wf hdest
  simp only [Option.some.injEq] at hadd
  let path := a.path s₁.nextPath (s₁.attrTable.intern a.attrs).2 peer (s₁.cell d)
  let s₂ := { s₁ with
    attrTable := (s₁.attrTable.intern a.attrs).1
    nextPath := s₁.nextPath + 1 }
  let s₃ := s₂.setDest d ((s₂.cell d).add path)
  let s₄ := s₃.settleReplaced d a.attrs.nexthop ((s₁.cell d).find peer a.pathId)
  let s₅ := s₄.indexAdd peer d
  let s₆ := s₅.indexNexthop a.attrs.nexthop d a.resolved a.igpMetric
  change s₆.enqueue d = s' at hadd
  have hw₂ : s₂.Wf := hw₁.of_same ⟨rfl, rfl, rfl, rfl⟩ ⟨rfl, rfl⟩
  have ht₄ : SameTable s₃ s₄ := settleReplaced_sameTable s₃ d _ _
  have ht₆ : SameTable s₃ s₆ :=
    (ht₄.trans (indexAdd_sameTable s₄ peer d)).trans (indexNexthop_sameTable s₅ _ d _ _)
  have hfor : ∀ q, s'.pathsFor q =
      if q = pfx then putPath path (s.pathsFor q) else s.pathsFor q := by
    intro q
    rw [← hadd, pathsFor_enqueue, ht₆.pathsFor, Wf.pathsFor_setDest hw₂ hd]
    split
    · rename_i hq
      rw [hq, ← hfor₁, pathsFor_of_dests hd]
      rfl
    · exact hfor₁ q
  have hdests : ∀ q, s'.dests.get? q = if q = pfx then some d else s.dests.get? q := by
    intro q
    rw [← hadd, enqueue_dests, ht₆.dests]
    exact dest_dests hdest q
  have hcell : (s₄.cell d).pfx = pfx := by
    rw [ht₄.cell, cell_setDest, if_pos rfl]
    exact hw₁.pfx_eq hd
  have hbyPeer₁ : s₁.byPeer = s.byPeer := dest_byPeer hdest
  have hcontrib : ∀ oid q x, s'.Contributes oid q x ↔
      if oid = peer.oid ∧ q = pfx then x = d else s.Contributes oid q x := by
    intro oid q x
    have hindex : s'.Contributes oid q x ↔ s₅.Contributes oid q x := by
      simp only [Contributes, ← hadd, enqueue_byPeer, s₆, indexNexthop_byPeer]
    have hbefore : s₄.Contributes oid q x ↔ s.Contributes oid q x := by
      have hbyPeer : s₄.byPeer = s.byPeer := (settleReplaced_byPeer s₃ d _ _).trans hbyPeer₁
      simp only [Contributes, hbyPeer]
    rw [hindex, contributes_indexAdd, hcell, hbefore]
  have hput : PutBy peer a path := ⟨rfl, rfl, rfl, rfl⟩
  have hmem : ∀ p, p ∈ s'.pathsFor pfx ↔
      p = path ∨ p ∈ (s.pathsFor pfx).eraseP fun p => p.isFrom peer a.pathId := by
    intro p
    rw [hfor pfx, if_pos rfl]
    constructor
    · exact mem_putPath_eraseP
    · rintro (rfl | hstay)
      · exact mem_putPath_self path _
      · exact mem_putPath_of_mem_eraseP hstay
  refine ⟨⟨hw', ?_, ?_⟩, path, hput, hfor⟩
  · intro q
    rw [hfor q]
    split
    · exact nodup_putPath (h.nodup q)
    · exact h.nodup q
  · intro oid q x
    rw [hcontrib, hdests]
    by_cases hq : q = pfx
    · subst hq
      simp only [and_true, ↓reduceIte, Option.some.injEq]
      split
      · rename_i hoid
        constructor
        · rintro rfl
          exact ⟨rfl, path, (hmem path).mpr (Or.inl rfl), hoid.symm⟩
        · exact fun hx => hx.1.symm
      · rename_i hoid
        rw [h.exact]
        have hhas : s'.HasFrom oid q ↔ s.HasFrom oid q := by
          constructor
          · rintro ⟨p, hp, hfrom⟩
            rcases (hmem p).mp hp with rfl | hstay
            · exact absurd hfrom.symm hoid
            · exact ⟨p, List.mem_of_mem_eraseP hstay, hfrom⟩
          · rintro ⟨p, hp, hfrom⟩
            refine ⟨p, (hmem p).mpr (Or.inr ?_), hfrom⟩
            refine (List.mem_eraseP_of_neg ?_).mpr hp
            simp only [BgpPath.isFrom, hfrom, Bool.and_eq_true, beq_iff_eq, not_and]
            exact fun heq => absurd heq hoid
        rw [hhas]
        constructor
        · rintro ⟨hx, hfrom⟩
          exact ⟨(dest_eq hx hdest).symm, hfrom⟩
        · rintro ⟨rfl, hfrom⟩
          obtain ⟨y, hy⟩ := hfrom.exists_dest
          exact ⟨(dest_eq hy hdest) ▸ hy, hfrom⟩
    · simp only [hq, and_false, ↓reduceIte]
      rw [h.exact]
      have hhas : s'.HasFrom oid q ↔ s.HasFrom oid q := by
        simp only [HasFrom, hfor q, hq, ↓reduceIte]
      rw [hhas]

theorem eraseP_eq_self_of_find {paths : List BgpPath} {peer : PeerRef} {pathId : Nat}
    (h : (paths.find? fun p => p.isFrom peer pathId) = none) :
    paths.eraseP (fun p => p.isFrom peer pathId) = paths :=
  List.eraseP_of_forall_not fun p hp => by
    simpa using List.find?_eq_none.mp h p hp

theorem peerHas_iff (s : LocRib) (peer : PeerRef) (d : DestId) :
    s.peerHas peer d = true ↔ ∃ p ∈ (s.cell d).paths, p.peer.oid = peer.oid := by
  simp [peerHas]

/-- A removal takes the path of that name out of its prefix. -/
theorem removePath_indexed {s : LocRib} (h : s.Indexed) (peer : PeerRef) (pfx : Prefix)
    (pathId : Nat) :
    (s.removePath peer pfx pathId).Indexed ∧
      ∀ q, (s.removePath peer pfx pathId).pathsFor q =
        if q = pfx then (s.pathsFor q).eraseP fun p => p.isFrom peer pathId
        else s.pathsFor q := by
  have hw' := (removePath_spec h.wf peer pfx pathId).1
  unfold removePath at hw' ⊢
  split at hw' <;> rename_i hdest
  · refine ⟨h, fun q => ?_⟩
    split
    · rename_i hq
      rw [hq, pathsFor, hdest]
      rfl
    · rfl
  · rename_i d
    split at hw' <;> rename_i hfind
    · refine ⟨h, fun q => ?_⟩
      split
      · rename_i hq
        rw [hq, pathsFor_of_dests hdest]
        exact (eraseP_eq_self_of_find hfind).symm
      · rfl
    · rename_i path
      let s₁ := { s.setDest d ((s.cell d).remove peer pathId) with
        pathCount := s.pathCount - 1
        attrTable := s.attrTable.release path.attrs path.interned }
      let s₂ := if s₁.peerHas peer d then s₁ else s₁.indexRemove peer pfx
      let s₃ := ((s₂.enqueue d).dropEmpty d).unindexNexthop path.attrs.nexthop d
      change s₃.Wf at hw'
      change s₃.Indexed ∧ ∀ q, s₃.pathsFor q = _
      have ht₂ : SameTable (s.setDest d ((s.cell d).remove peer pathId)) s₂ := by
        dsimp only [s₂]
        split
        · exact ⟨rfl, rfl, rfl, rfl⟩
        · have ht₁ : SameTable (s.setDest d ((s.cell d).remove peer pathId)) s₁ :=
            ⟨rfl, rfl, rfl, rfl⟩
          exact ht₁.trans (indexRemove_sameTable s₁ peer pfx)
      have ht₃ := unindexNexthop_sameTable ((s₂.enqueue d).dropEmpty d) path.attrs.nexthop d
      have hfor : ∀ q, s₃.pathsFor q =
          if q = pfx then (s.pathsFor q).eraseP fun p => p.isFrom peer pathId
          else s.pathsFor q := by
        intro q
        rw [ht₃.pathsFor, pathsFor_dropEmpty, pathsFor_enqueue, ht₂.pathsFor,
          Wf.pathsFor_setDest h.wf hdest]
        split
        · rename_i hq
          rw [hq, pathsFor_of_dests hdest]
          rfl
        · rfl
      have hdests : ∀ q x, s₃.dests.get? q = some x → s.dests.get? q = some x := by
        intro q x hx
        rw [ht₃.dests] at hx
        have hx₂ := dests_of_dropEmpty hx
        rwa [enqueue_dests, ht₂.dests] at hx₂
      have hindex : ∀ oid q x, s₃.Contributes oid q x ↔ s₂.Contributes oid q x := by
        intro oid q x
        simp only [Contributes, s₃, unindexNexthop_byPeer, dropEmpty_byPeer, enqueue_byPeer]
      have hbyPeer₁ : ∀ oid q x, s₁.Contributes oid q x ↔ s.Contributes oid q x :=
        fun _ _ _ => Iff.rfl
      have hcell : (s₁.cell d).paths = s₃.pathsFor pfx := by
        rw [hfor, if_pos rfl, pathsFor_of_dests hdest]
        exact congrArg BgpDest.paths
          ((cell_setDest s d d ((s.cell d).remove peer pathId)).trans (if_pos rfl))
      -- the entry of the session goes exactly when its last path here has gone
      have hkept : ∀ oid q x, s₃.Contributes oid q x ↔
          s.Contributes oid q x ∧ s₃.HasFrom oid q := by
        intro oid q x
        rw [hindex]
        by_cases hsame : oid = peer.oid ∧ q = pfx
        · obtain ⟨rfl, rfl⟩ := hsame
          by_cases hhas : s₁.peerHas peer d = true
          · have hfrom : s₃.HasFrom peer.oid q := by
              rw [peerHas_iff, hcell] at hhas
              exact hhas
            have hs₂ : s₂ = s₁ := by
              dsimp only [s₂]
              rw [if_pos hhas]
            rw [hs₂, hbyPeer₁, and_iff_left hfrom]
          · have hnone : ¬ s₃.HasFrom peer.oid q := by
              rw [peerHas_iff, hcell] at hhas
              exact hhas
            have hs₂ : s₂ = s₁.indexRemove peer q := by
              dsimp only [s₂]
              rw [if_neg hhas]
            rw [hs₂, contributes_indexRemove]
            simp [hnone]
        · have hsteps : s₂.Contributes oid q x ↔ s.Contributes oid q x := by
            dsimp only [s₂]
            split
            · exact hbyPeer₁ oid q x
            · rw [contributes_indexRemove, hbyPeer₁, and_iff_left hsame]
          rw [hsteps]
          refine ⟨fun hc => ⟨hc, ?_⟩, And.left⟩
          obtain ⟨-, p, hp, hoid⟩ := (h.exact oid q x).mp hc
          refine ⟨p, ?_, hoid⟩
          rw [hfor]
          split
          · rename_i hq
            refine (List.mem_eraseP_of_neg ?_).mpr hp
            rw [BgpPath.isFrom_iff]
            intro hname
            exact hsame ⟨hoid.symm.trans (congrArg Prod.fst hname), hq⟩
          · exact hp
      refine ⟨h.of_shrink hw' hdests (fun q => ?_) hkept, hfor⟩
      rw [hfor q]
      split
      · exact (List.eraseP_sublist).map _
      · exact List.Sublist.refl _

theorem removePeerFrom_paths {s : LocRib} {todo : List DestId}
    {unfiled : DestId → Bytes → Prop} (hw : WfBut unfiled todo s) (peer : PeerRef)
    {pfx : Prefix} {d : DestId} (hd : s.dests.get? pfx = some d) :
    (removePeerFrom peer s d).byPeer = s.byPeer ∧
      (∀ q x, (removePeerFrom peer s d).dests.get? q = some x → s.dests.get? q = some x) ∧
      (∀ q, q ≠ pfx → (removePeerFrom peer s d).dests.get? q = s.dests.get? q) ∧
      ∀ q, (removePeerFrom peer s d).pathsFor q =
        if q = pfx then (s.pathsFor q).filter fun p => p.peer.oid ≠ peer.oid
        else s.pathsFor q := by
  let gone := (s.cell d).paths.filter fun p => p.peer.oid == peer.oid
  let s₁ := { s with
    attrTable := gone.foldl (fun t (p : BgpPath) => t.release p.attrs p.interned) s.attrTable }
  unfold removePeerFrom
  dsimp only
  split
  · rename_i hnone
    refine ⟨rfl, fun _ _ hx => hx, fun _ _ => rfl, fun q => ?_⟩
    split
    · rename_i hq
      have hall : (s.pathsFor q).filter (fun p => p.peer.oid ≠ peer.oid) = s.pathsFor q := by
        rw [List.filter_eq_self, hq, pathsFor_of_dests hd]
        intro p hp
        have hno := List.filter_eq_nil_iff.mp (List.isEmpty_iff.mp hnone) p hp
        simpa using hno
      rw [hall]
      rfl
    · rfl
  · let s₂ := { s₁.setDest d ((s₁.cell d).removePeer peer) with
      pathCount := s₁.pathCount - gone.length }
    let s₃ := (s₂.enqueue d).dropEmpty d
    have ht₂ : SameTable (s₁.setDest d ((s₁.cell d).removePeer peer)) s₂ := ⟨rfl, rfl, rfl, rfl⟩
    have ht₃ := foldl_unindexNexthop_sameTable gone d s₃
    have hd₁ : s₁.dests.get? pfx = some d := hd
    have hw₁ : WfBut unfiled todo s₁ := hw.of_same ⟨rfl, rfl, rfl, rfl⟩ ⟨rfl, rfl⟩
    refine ⟨?_, ?_, ?_, ?_⟩
    · rw [foldl_unindexNexthop_byPeer, dropEmpty_byPeer, enqueue_byPeer]
      rfl
    · intro q x hx
      rw [ht₃.dests] at hx
      have hx₂ := dests_of_dropEmpty hx
      rwa [enqueue_dests] at hx₂
    · intro q hq
      rw [ht₃.dests]
      have hpfx : ((s₂.enqueue d).cell d).pfx = pfx := by
        rw [enqueue_cell, if_pos rfl]
        change (s₂.cell d).pfx = pfx
        rw [ht₂.cell, cell_setDest, if_pos rfl]
        exact hw.pfx_eq hd
      dsimp only [s₃]
      unfold dropEmpty
      split
      · rw [Dict.get?_erase, hpfx, if_neg hq, enqueue_dests]
        rfl
      · rw [enqueue_dests]
        rfl
    · intro q
      rw [ht₃.pathsFor, pathsFor_dropEmpty, pathsFor_enqueue, ht₂.pathsFor,
        Wf.pathsFor_setDest hw₁ hd₁]
      split
      · rename_i hq
        rw [hq, pathsFor_of_dests hd]
        rfl
      · rfl

/-- Taking a session out of destinations that are each in the table under their own
prefix. -/
theorem foldl_removePeerFrom_paths (peer : PeerRef) (entries : List (Prefix × DestId))
    (hnodup : (entries.map Prod.fst).Nodup) {s : LocRib} (hw : s.Wf)
    (hlive : ∀ e ∈ entries, s.dests.get? e.1 = some e.2) :
    ((entries.map Prod.snd).foldl (removePeerFrom peer) s).byPeer = s.byPeer ∧
      (∀ q x, ((entries.map Prod.snd).foldl (removePeerFrom peer) s).dests.get? q =
        some x → s.dests.get? q = some x) ∧
      ∀ q, ((entries.map Prod.snd).foldl (removePeerFrom peer) s).pathsFor q =
        if q ∈ entries.map Prod.fst then
          (s.pathsFor q).filter fun p => p.peer.oid ≠ peer.oid
        else s.pathsFor q := by
  induction entries generalizing s with
  | nil => exact ⟨rfl, fun _ _ hx => hx, fun q => by simp⟩
  | cons entry entries ih =>
    simp only [List.map_cons, List.nodup_cons] at hnodup
    have hd := hlive entry List.mem_cons_self
    obtain ⟨hb₁, hsub₁, hother₁, hfor₁⟩ := removePeerFrom_paths hw peer hd
    have hw₁ := (removePeerFrom_spec hw peer entry.2).1
    have hlive₁ : ∀ e ∈ entries, (removePeerFrom peer s entry.2).dests.get? e.1 = some e.2 := by
      intro e he
      have hne : e.1 ≠ entry.1 := fun heq => hnodup.1 (heq ▸ List.mem_map.mpr ⟨e, he, rfl⟩)
      rw [hother₁ e.1 hne]
      exact hlive e (List.mem_cons_of_mem entry he)
    obtain ⟨hb₂, hsub₂, hfor₂⟩ := ih hnodup.2 hw₁ hlive₁
    refine ⟨hb₂.trans hb₁, fun q x hx => hsub₁ q x (hsub₂ q x hx), ?_⟩
    intro q
    rw [List.map_cons, List.foldl_cons, hfor₂ q, hfor₁ q]
    by_cases hq : q = entry.1
    · have hrest : q ∉ entries.map Prod.fst := hq ▸ hnodup.1
      rw [if_neg hrest, if_pos hq, if_pos]
      exact List.mem_cons.mpr (Or.inl hq)
    · simp only [hq, ↓reduceIte, List.map_cons, List.mem_cons, false_or]

/-- Removing a session takes every path that came through it, and no other. -/
theorem removePeer_indexed {s : LocRib} (h : s.Indexed) (peer : PeerRef) :
    (s.removePeer peer).Indexed ∧
      ∀ q, (s.removePeer peer).pathsFor q =
        (s.pathsFor q).filter fun p => p.peer.oid ≠ peer.oid := by
  have hw' := (removePeer_spec h.wf peer).1
  have hnone : ∀ q, (∀ d, ¬ s.Contributes peer.oid q d) →
      (s.pathsFor q).filter (fun p => p.peer.oid ≠ peer.oid) = s.pathsFor q := by
    intro q hno
    rw [List.filter_eq_self]
    intro p hp
    simp only [ne_eq, decide_not, Bool.not_eq_true', decide_eq_false_iff_not]
    intro hoid
    obtain ⟨d, hd⟩ := HasFrom.exists_dest (s := s) ⟨p, hp, hoid⟩
    exact hno d ((h.exact peer.oid q d).mpr ⟨hd, p, hp, hoid⟩)
  unfold removePeer at hw' ⊢
  split at hw' <;> rename_i hpeer
  · refine ⟨h, fun q => (hnone q fun d hc => ?_).symm⟩
    obtain ⟨contributed, hget, _⟩ := hc
    rw [hpeer] at hget
    exact absurd hget (by simp)
  · rename_i contributed
    let s₁ := { s with byPeer := s.byPeer.erase peer.oid }
    have hcontrib : ∀ q d, s.Contributes peer.oid q d ↔ contributed.get? q = some d := by
      intro q d
      simp [Contributes, hpeer]
    have hlive : ∀ e ∈ contributed.entries, s₁.dests.get? e.1 = some e.2 := by
      intro e he
      have hget := Dict.mem_entries_iff.mp he
      exact ((h.exact peer.oid e.1 e.2).mp ((hcontrib e.1 e.2).mpr hget)).1
    obtain ⟨hb, hsub, hfor⟩ := foldl_removePeerFrom_paths peer contributed.entries
      contributed.nodup (s := s₁) (h.wf.of_same ⟨rfl, rfl, rfl, rfl⟩ ⟨rfl, rfl⟩) hlive
    have hpaths : ∀ q,
        ((contributed.entries.map Prod.snd).foldl (removePeerFrom peer) s₁).pathsFor q =
          (s.pathsFor q).filter fun p => p.peer.oid ≠ peer.oid := by
      intro q
      rw [hfor q]
      split
      · rfl
      · rename_i hq
        refine (hnone q fun d hc => hq ?_).symm
        exact Dict.mem_keys_iff.mpr ⟨d, (hcontrib q d).mp hc⟩
    refine ⟨h.of_shrink hw' hsub (fun q => ?_) (fun oid q d => ?_), hpaths⟩
    · rw [show contributed.values = contributed.entries.map Prod.snd from rfl, hpaths q]
      exact List.filter_sublist.map _
    · have hindex : ((contributed.entries.map Prod.snd).foldl (removePeerFrom peer)
          s₁).Contributes oid q d ↔ s.Contributes oid q d ∧ oid ≠ peer.oid := by
        simp only [Contributes, hb, s₁, Dict.get?_erase]
        by_cases hoid : oid = peer.oid
        · simp [hoid]
        · simp [hoid]
      refine hindex.trans (and_congr_right fun hc => ?_)
      obtain ⟨-, p, hp, hfrom⟩ := (h.exact oid q d).mp hc
      constructor
      · intro hoid
        refine ⟨p, ?_, hfrom⟩
        exact (hpaths q).symm ▸ List.mem_filter.mpr ⟨hp, by simp [hfrom, hoid]⟩
      · rintro ⟨p', hp', hfrom'⟩ hoid
        have hmem := (hpaths q) ▸ hp'
        have hne := (List.mem_filter.mp hmem).2
        simp [hfrom', hoid] at hne

theorem reselectDest_byPeer (s : LocRib) (d : DestId) : (s.reselectDest d).byPeer = s.byPeer := by
  rw [reselectDest_eq]
  dsimp only
  split
  · rw [dropEmpty_byPeer, publish_byPeer]
    rfl
  · rw [publish_byPeer]
    rfl

theorem reselectDest_dests {s : LocRib} {d x : DestId} {q : Prefix}
    (h : (s.reselectDest d).dests.get? q = some x) : s.dests.get? q = some x := by
  rw [reselectDest_eq] at h
  dsimp only at h
  have hpublish : ∀ dest, ((s.setDest d dest).publish (s.cell d).best dest).dests = s.dests :=
    fun dest => (publish_same (s.setDest d dest) (s.cell d).best dest).1.dests
  split at h
  · have hx := dests_of_dropEmpty h
    rwa [hpublish] at hx
  · rwa [hpublish] at h

theorem foldl_reselectDest_byPeer (todo : List DestId) (s : LocRib) :
    (todo.foldl reselectDest s).byPeer = s.byPeer := by
  induction todo generalizing s with
  | nil => rfl
  | cons d todo ih => exact (ih (s.reselectDest d)).trans (reselectDest_byPeer s d)

theorem foldl_reselectDest_dests (todo : List DestId) {s : LocRib} {q : Prefix} {x : DestId}
    (h : (todo.foldl reselectDest s).dests.get? q = some x) : s.dests.get? q = some x := by
  induction todo generalizing s with
  | nil => exact h
  | cons d todo ih => exact reselectDest_dests (ih h)

theorem reselect_indexed {s : LocRib} (h : s.Indexed) (limit : Int) :
    (s.reselect limit).Indexed ∧ ∀ q, (s.reselect limit).pathsFor q = s.pathsFor q := by
  obtain ⟨hw', -, hfor⟩ := reselect_spec h.wf limit
  refine ⟨h.of_same_names hw' (fun q d hd => ?_) (fun q => by rw [hfor q]) ?_, hfor⟩
  · unfold reselect at hd
    have hbefore := foldl_reselectDest_dests _ hd
    exact hbefore
  · exact foldl_reselectDest_byPeer _ _

theorem foldl_enqueue_same (held : List DestId) (s : LocRib) :
    (held.foldl enqueue s).byPeer = s.byPeer ∧ (held.foldl enqueue s).dests = s.dests := by
  induction held generalizing s with
  | nil => exact ⟨rfl, rfl⟩
  | cons d held ih =>
    obtain ⟨hb, hd⟩ := ih (s.enqueue d)
    exact ⟨hb.trans (enqueue_byPeer s d), hd.trans (enqueue_dests s d)⟩

theorem setConfig_indexed {s : LocRib} (h : s.Indexed) (config : BestpathConfig) :
    (s.setConfig config).Indexed ∧ ∀ q, (s.setConfig config).pathsFor q = s.pathsFor q := by
  obtain ⟨hw', -, hfor⟩ := setConfig_spec h.wf config
  have hsame : (s.setConfig config).byPeer = s.byPeer ∧ (s.setConfig config).dests = s.dests := by
    unfold setConfig
    split
    · exact ⟨rfl, rfl⟩
    · exact foldl_enqueue_same _ _
  refine ⟨h.of_same_names hw' (fun q d hd => ?_) (fun q => by rw [hfor q]) hsame.1, hfor⟩
  rwa [hsame.2] at hd

theorem revalidateDest_byPeer (nexthop : Bytes) (answer : Bool × Nat) (s : LocRib)
    (entry : Prefix × DestId) : (revalidateDest nexthop answer s entry).byPeer = s.byPeer := by
  unfold revalidateDest
  split
  · rfl
  · split
    · rw [enqueue_byPeer]
      rfl
    · rfl

theorem foldl_revalidateDest_byPeer (nexthop : Bytes) (answer : Bool × Nat)
    (entries : List (Prefix × DestId)) (s : LocRib) :
    (entries.foldl (revalidateDest nexthop answer) s).byPeer = s.byPeer := by
  induction entries generalizing s with
  | nil => rfl
  | cons entry entries ih => exact (ih _).trans (revalidateDest_byPeer nexthop answer s entry)

theorem revalidateNexthop_byPeer (check : Check) (s : LocRib) (nexthop : Bytes) :
    (revalidateNexthop check s nexthop).byPeer = s.byPeer := by
  unfold revalidateNexthop
  split
  · rfl
  · dsimp only
    split
    · exact fileNexthop_byPeer s nexthop _
    · rw [pruneNexthop, fileNexthop_byPeer, foldl_revalidateDest_byPeer]

theorem foldl_revalidateNexthop_byPeer (check : Check) (nexthops : List Bytes)
    (s : LocRib) : (nexthops.foldl (revalidateNexthop check) s).byPeer = s.byPeer := by
  induction nexthops generalizing s with
  | nil => rfl
  | cons nexthop nexthops ih => exact (ih _).trans (revalidateNexthop_byPeer check s nexthop)

theorem content_refresh (check : Check) (afi : Nat) (cached : Dict Bytes (Bool × Nat))
    (nexthops : List Bytes) (p : BgpPath) :
    (refresh check afi cached nexthops p).content = p.content := by
  unfold refresh
  split <;> rfl

/-- A revalidation leaves what peers and their policies made of every path. -/
theorem revalidate_indexed {s : LocRib} (h : s.Indexed) (check : Check) :
    (s.revalidate check).Indexed ∧
      ∀ q, ((s.revalidate check).pathsFor q).map BgpPath.content =
        (s.pathsFor q).map BgpPath.content := by
  obtain ⟨hw', hr, hfor, -⟩ := revalidate_spec h.wf check
  have hcontent : ∀ q, ((s.revalidate check).pathsFor q).map BgpPath.content =
      (s.pathsFor q).map BgpPath.content := by
    intro q
    rw [hfor q, List.map_map]
    exact List.map_congr_left fun p _ => content_refresh _ _ _ _ p
  refine ⟨h.of_same_names hw' (fun q d hd => ?_) (fun q => ?_)
    (foldl_revalidateNexthop_byPeer check _ s), hcontent⟩
  · rwa [hr.dests] at hd
  · have hname : BgpPath.name = (fun c : PathContent => (c.peer.oid, c.pathId)) ∘
        BgpPath.content := rfl
    rw [hname, ← List.map_map, hcontent q, List.map_map]

theorem indexed_of_empty {s : LocRib} (hd : s.dests = Dict.empty)
    (hb : s.byPeer = Dict.empty) (hn : s.nhDests = Dict.empty) : s.Indexed where
  wf := wf_of_dests_empty hd hn
  nodup q := by simp [pathsFor, hd]
  exact oid q d := by simp [Contributes, hb, hd]

theorem clear_indexed (s : LocRib) : s.clear.Indexed := indexed_of_empty rfl rfl rfl

theorem new_indexed (afi safi : Nat) (attrTable : AttrTable) (config : BestpathConfig)
    (unused : BgpDest) : (new afi safi attrTable config unused).Indexed :=
  indexed_of_empty rfl rfl rfl

/-- What is held under a name, apart from what next-hop tracking keeps there. -/
def heldContent (s : LocRib) (pfx : Prefix) (name : Nat × Nat) : Option PathContent :=
  (s.held pfx name).map BgpPath.content

theorem findNamed_map_content (name : Nat × Nat) {paths paths' : List BgpPath}
    (h : paths'.map BgpPath.content = paths.map BgpPath.content) :
    (findNamed name paths').map BgpPath.content = (findNamed name paths).map BgpPath.content := by
  induction paths generalizing paths' with
  | nil =>
    rw [List.map_nil, List.map_eq_nil_iff] at h
    rw [h]
  | cons p rest ih =>
    cases paths' with
    | nil => simp at h
    | cons p' rest' =>
      simp only [List.map_cons, List.cons.injEq] at h
      have hname : p'.name = p.name := congrArg (fun c : PathContent => (c.peer.oid, c.pathId)) h.1
      rw [findNamed_cons, findNamed_cons, hname]
      split
      · rw [Option.map_some, Option.map_some, h.1]
      · exact ih h.2

theorem heldContent_congr {s s' : LocRib}
    (h : ∀ q, (s'.pathsFor q).map BgpPath.content = (s.pathsFor q).map BgpPath.content)
    (q : Prefix) (name : Nat × Nat) : s'.heldContent q name = s.heldContent q name :=
  findNamed_map_content name (h q)

theorem heldContent_addPath {s s' : LocRib} {peer : PeerRef} {pfx : Prefix} {a : Arrival}
    (h : s.Indexed) (hadd : s.addPath peer pfx a = some s') (q : Prefix) (name : Nat × Nat) :
    s'.heldContent q name =
      if q = pfx ∧ name = (peer.oid, a.pathId) then
        some ⟨peer, a.pathId, a.attrs, a.weight⟩
      else s.heldContent q name := by
  obtain ⟨-, path, hput, hfor⟩ := addPath_indexed h hadd
  have hname : path.name = (peer.oid, a.pathId) := by rw [BgpPath.name, hput.peer, hput.pathId]
  have hcontent : path.content = ⟨peer, a.pathId, a.attrs, a.weight⟩ := by
    rw [BgpPath.content, hput.peer, hput.pathId, hput.attrs, hput.weight]
  unfold heldContent held
  rw [hfor q]
  by_cases hq : q = pfx
  · rw [if_pos hq, findNamed_putPath, hname]
    by_cases hn : name = (peer.oid, a.pathId)
    · simp [hq, hn, hcontent]
    · have hn' : (peer.oid, a.pathId) ≠ name := fun heq => hn heq.symm
      simp [hn, hn']
  · simp [hq]

theorem heldContent_removePath {s : LocRib} (h : s.Indexed) (peer : PeerRef)
    (pfx : Prefix) (pathId : Nat) (q : Prefix) (name : Nat × Nat) :
    (s.removePath peer pfx pathId).heldContent q name =
      if q = pfx ∧ name = (peer.oid, pathId) then none else s.heldContent q name := by
  obtain ⟨-, hfor⟩ := removePath_indexed h peer pfx pathId
  unfold heldContent held
  rw [hfor q]
  by_cases hq : q = pfx
  · rw [if_pos hq, findNamed_eraseP peer pathId (h.nodup q)]
    by_cases hn : name = (peer.oid, pathId)
    · simp [hq, hn]
    · simp [hn]
  · simp [hq]

theorem heldContent_removePeer {s : LocRib} (h : s.Indexed) (peer : PeerRef) (q : Prefix)
    (name : Nat × Nat) :
    (s.removePeer peer).heldContent q name =
      if name.1 = peer.oid then none else s.heldContent q name := by
  obtain ⟨-, hfor⟩ := removePeer_indexed h peer
  unfold heldContent held
  rw [hfor q, findNamed_removePeer]
  split <;> rfl

end LocRib

end Packets
