/-
What insertion and removal do to the shape of a trie.

Interning adds a node, and perhaps a glue node; pruning takes out a node without a value and
with at most one child, which may leave its parent in the same position.
-/
import Mathlib.Data.Finset.Card
import Packets.Rib.TrieShape

namespace Packets

open LinkedTree

variable {V : Type}

namespace Trie

variable {t t' t'' : Trie V} {live live' : Finset NodeId} {addr : Bytes} {plen : Nat}

/-- Nothing but links and the number of nodes differs. -/
structure Relinked (t t' : Trie V) : Prop where
  afi : t'.afi = t.afi
  next : t'.heap.next = t.heap.next
  count : t'.count = t.count
  addr : ∀ n, (t'.cell n).addr = (t.cell n).addr
  plen : ∀ n, (t'.cell n).plen = (t.cell n).plen
  isReal : ∀ n, (t'.cell n).isReal = (t.cell n).isReal
  value : ∀ n, (t'.cell n).value = (t.cell n).value

theorem Relinked.refl (t : Trie V) : Relinked t t :=
  ⟨rfl, rfl, rfl, fun _ => rfl, fun _ => rfl, fun _ => rfl, fun _ => rfl⟩

theorem Relinked.trans (h : Relinked t t') (h' : Relinked t' t'') : Relinked t t'' where
  afi := h'.afi.trans h.afi
  next := h'.next.trans h.next
  count := h'.count.trans h.count
  addr n := (h'.addr n).trans (h.addr n)
  plen n := (h'.plen n).trans (h.plen n)
  isReal n := (h'.isReal n).trans (h.isReal n)
  value n := (h'.value n).trans (h.value n)

theorem cell_setParent (t : Trie V) (n : NodeId) (parent : Option NodeId) (m : NodeId) :
    (t.setParent n parent).cell m =
      if m = n then { t.cell n with parent := parent } else t.cell m := rfl

theorem cell_setChild (t : Trie V) (n : NodeId) (b : Bool) (c : Option NodeId) (m : NodeId) :
    (t.setChild n b c).cell m =
      if m = n then { t.cell n with child := fun d => if d = b then c else (t.cell n).child d }
      else t.cell m := rfl

theorem relinked_setParent (t : Trie V) (n : NodeId) (parent : Option NodeId) :
    Relinked t (t.setParent n parent) := by
  refine ⟨rfl, rfl, rfl, ?_, ?_, ?_, ?_⟩
  all_goals
    intro m
    rw [cell_setParent]
    by_cases hm : m = n
    · rw [if_pos hm, hm]
    · rw [if_neg hm]

theorem relinked_setChild (t : Trie V) (n : NodeId) (b : Bool) (c : Option NodeId) :
    Relinked t (t.setChild n b c) := by
  refine ⟨rfl, rfl, rfl, ?_, ?_, ?_, ?_⟩
  all_goals
    intro m
    rw [cell_setChild]
    by_cases hm : m = n
    · rw [if_pos hm, hm]
    · rw [if_neg hm]

theorem relinked_relink (t : Trie V) (parent : Option NodeId) (addr : Bytes)
    (c : Option NodeId) : Relinked t (t.relink parent addr c) := by
  cases parent with
  | none => exact ⟨rfl, rfl, rfl, fun _ => rfl, fun _ => rfl, fun _ => rfl, fun _ => rfl⟩
  | some p => exact t.relinked_setChild p _ c

namespace Relinked

variable (h : Relinked t t')

include h

theorem edge_eq : t'.edge = t.edge := by
  funext p b n
  simp only [edge, h.addr, h.plen]

theorem slotOf_eq (addr : Bytes) (parent : Option NodeId) :
    Shaped.slotOf t' addr parent = Shaped.slotOf t addr parent := by
  simp only [Shaped.slotOf, h.plen]

theorem valid {n : NodeId} {afi : Nat} (hn : (t.cell n).Valid afi) : (t'.cell n).Valid afi := by
  constructor
  · rw [h.plen]
    exact hn.plen_le
  · rw [h.addr]
    exact hn.length_addr
  · rw [h.addr, h.plen]
    exact hn.masked
  · rw [h.isReal, h.value]
    exact hn.real

theorem shaped (hshape : t.Shaped live) (hsub : live' ⊆ live)
    (htree : Tree t'.links live' t.edge) : t'.Shaped live' where
  tree := by
    rw [h.edge_eq]
    exact htree
  allocated n hn := by
    rw [h.next]
    exact hshape.allocated n (hsub hn)
  valid n hn := by
    rw [h.afi]
    exact h.valid (hshape.valid n (hsub hn))

end Relinked

theorem links_setParent (t : Trie V) (n : NodeId) (parent : Option NodeId) :
    (t.setParent n parent).links = t.links.setParent n parent := by
  refine Links.ext' rfl (fun m => ?_) (fun m b => ?_)
  · simp only [links, cell_setParent, Links.setParent]
    split <;> rfl
  · simp only [links, cell_setParent, Links.setParent]
    by_cases hm : m = n
    · rw [if_pos hm, hm]
    · rw [if_neg hm]

theorem links_setChild (t : Trie V) (n : NodeId) (b : Bool) (c : Option NodeId) :
    (t.setChild n b c).links = t.links.put (some (n, b)) c := by
  refine Links.ext' rfl (fun m => ?_) (fun m d => ?_)
  · simp only [links, cell_setChild, Links.put]
    by_cases hm : m = n
    · rw [if_pos hm, hm]
    · rw [if_neg hm]
  · simp only [links, cell_setChild, Links.put]
    by_cases hm : m = n
    · simp [hm]
    · simp [hm]

theorem links_relink (t : Trie V) (parent : Option NodeId) (addr : Bytes) (c : Option NodeId) :
    (t.relink parent addr c).links = t.links.put (Shaped.slotOf t addr parent) c := by
  cases parent with
  | none => rfl
  | some p => exact t.links_setChild p _ c

theorem cell_alloc (t : Trie V) (addr : Bytes) (plen : Nat) (n : NodeId) :
    (t.alloc addr plen).1.cell n =
      if n = t.heap.next then .blank (pfxMask plen addr) plen else t.cell n := rfl

theorem cell_alloc_of_live (h : t.Shaped live) (addr : Bytes) (plen : Nat) {n : NodeId}
    (hn : n ∈ live) : (t.alloc addr plen).1.cell n = t.cell n := by
  rw [cell_alloc, if_neg (Nat.ne_of_lt (h.allocated n hn))]

theorem cell_alloc_fresh (t : Trie V) (addr : Bytes) (plen : Nat) :
    (t.alloc addr plen).1.cell t.heap.next = .blank (pfxMask plen addr) plen := by
  rw [cell_alloc, if_pos rfl]

theorem fresh_notMem (h : t.Shaped live) : t.heap.next ∉ live :=
  fun hmem => Nat.lt_irrefl _ (h.allocated _ hmem)

theorem alloc_shaped (h : t.Shaped live) (addr : Bytes) (plen : Nat) :
    (t.alloc addr plen).1.Shaped live where
  tree := by
    refine h.tree.congr rfl ?_ ?_ ?_
    · intro n hn
      exact congrArg TrieNode.parent (cell_alloc_of_live h addr plen hn)
    · intro n hn
      exact congrArg TrieNode.child (cell_alloc_of_live h addr plen hn)
    · intro p hp n hn b hedge
      rw [edge, cell_alloc_of_live h addr plen hp, cell_alloc_of_live h addr plen hn]
      exact hedge
  allocated n hn := Nat.lt_succ_of_lt (h.allocated n hn)
  valid n hn := by
    rw [cell_alloc_of_live h addr plen hn]
    exact h.valid n hn

theorem blank_valid {afi : Nat} (haddr : addr.length = pfxAddrLen afi)
    (hplen : plen ≤ pfxAddrBits afi) :
    (TrieNode.blank (pfxMask plen addr) plen : TrieNode V).Valid afi where
  plen_le := hplen
  length_addr := (length_pfxMask plen addr).trans haddr
  masked := pfxMask_idem plen addr
  real := rfl

theorem slotOf_alloc (h : t.Shaped live) (addr' : Bytes) (plen' : Nat)
    {parent : Option NodeId} (hparent : ∀ p, parent = some p → p ∈ live) (addr : Bytes) :
    Shaped.slotOf (t.alloc addr' plen').1 addr parent = Shaped.slotOf t addr parent := by
  cases parent with
  | none => rfl
  | some p =>
    rw [Shaped.slotOf, Shaped.slotOf, Option.map_some, Option.map_some,
      cell_alloc_of_live h addr' plen' (hparent p rfl)]

theorem slotOf_owner (t : Trie V) (addr : Bytes) (parent : Option NodeId) :
    (Shaped.slotOf t addr parent).owner = parent := by
  cases parent <;> rfl

/-- A trie that has gained nodes without values. -/
structure Grown (t t' : Trie V) (live live' : Finset NodeId) : Prop where
  shaped : t'.Shaped live'
  afi : t'.afi = t.afi
  count : t'.count = t.count
  sub : live ⊆ live'
  addr : ∀ n ∈ live, (t'.cell n).addr = (t.cell n).addr
  plen : ∀ n ∈ live, (t'.cell n).plen = (t.cell n).plen
  value : ∀ n ∈ live, (t'.cell n).value = (t.cell n).value
  new : ∀ n ∈ live', n ∉ live → (t'.cell n).value = none

theorem Grown.refl (h : t.Shaped live) : Grown t t live live :=
  ⟨h, rfl, rfl, Finset.Subset.refl _, fun _ _ => rfl, fun _ _ => rfl, fun _ _ => rfl,
    fun _ hn hnot => absurd hn hnot⟩

/-- A node of a prefix. -/
structure NodeOf (t : Trie V) (live : Finset NodeId) (addr : Bytes) (plen : Nat)
    (n : NodeId) : Prop where
  live : n ∈ live
  addr : (t.cell n).addr = addr
  plen : (t.cell n).plen = plen

/-- One trie has the nodes of another, and more cells. -/
structure SameOn (t t' : Trie V) (live : Finset NodeId) : Prop where
  afi : t'.afi = t.afi
  count : t'.count = t.count
  cell : ∀ n ∈ live, t'.cell n = t.cell n

theorem SameOn.trans (h : SameOn t t' live) (h' : SameOn t' t'' live) : SameOn t t'' live where
  afi := h'.afi.trans h.afi
  count := h'.count.trans h.count
  cell n hn := (h'.cell n hn).trans (h.cell n hn)

theorem alloc_sameOn (h : t.Shaped live) (addr : Bytes) (plen : Nat) :
    SameOn t (t.alloc addr plen).1 live :=
  ⟨rfl, rfl, fun _ hn => cell_alloc_of_live h addr plen hn⟩

/-- Linking new nodes into the tree is growth. -/
theorem grown_of_relinked (h' : t'.Shaped live) (hsame : SameOn t t' live)
    (hrel : Relinked t' t'') (htree : Tree t''.links live' t'.edge) (hsub : live ⊆ live')
    (hnew : ∀ n ∈ live', n ∉ live → n < t'.heap.next ∧ (t'.cell n).Valid t'.afi ∧
      (t'.cell n).value = none) : Grown t t'' live live' where
  shaped := by
    refine ⟨hrel.edge_eq ▸ htree, fun n hn => ?_, fun n hn => ?_⟩
    · rw [hrel.next]
      by_cases hlive : n ∈ live
      · exact h'.allocated n hlive
      · exact (hnew n hn hlive).1
    · rw [hrel.afi]
      apply hrel.valid
      by_cases hlive : n ∈ live
      · exact h'.valid n hlive
      · exact (hnew n hn hlive).2.1
  afi := hrel.afi.trans hsame.afi
  count := hrel.count.trans hsame.count
  sub := hsub
  addr n hn := (hrel.addr n).trans (congrArg TrieNode.addr (hsame.cell n hn))
  plen n hn := (hrel.plen n).trans (congrArg TrieNode.plen (hsame.cell n hn))
  value n hn := (hrel.value n).trans (congrArg TrieNode.value (hsame.cell n hn))
  new _ hn hlive := (hrel.value _).trans (hnew _ hn hlive).2.2

/-- A new node fits the slot a descent came by, when its prefix is longer than the
parent's. -/
theorem slotOf_fits {parent n : Option NodeId} (hpos : Shaped.Position t live addr plen parent n)
    (hsame : SameOn t t' live) {x : NodeId} {len : Nat}
    (hcell : t'.cell x = .blank (pfxMask len addr) len)
    (hlen : ∀ p, parent = some p → (t.cell p).plen < len) :
    Slot.Fits t'.edge (Shaped.slotOf t addr parent) x := by
  intro p b hslot
  obtain ⟨p', hparent, heq⟩ := Option.map_eq_some_iff.mp hslot
  simp only [Prod.mk.injEq] at heq
  obtain ⟨rfl, rfl⟩ := heq
  have hlt := hlen p' hparent
  have hmask := agreeTo_pfxMask len addr
  rw [edge, hsame.cell p' (hpos.parent_live hparent), hcell]
  refine ⟨hlt, (hpos.above p' hparent).2.trans (hmask.symm.mono (Nat.le_of_lt hlt)), ?_⟩
  exact hmask _ hlt

/-- A trie that has gained the node of a prefix.  Links to nodes stay links to nodes,
and what is new beside that node has both children. -/
structure Interned (t t' : Trie V) (live live' : Finset NodeId) (addr : Bytes) (plen : Nat)
    (n : NodeId) : Prop where
  grown : Grown t t' live live'
  node : NodeOf t' live' addr plen n
  nodes : t'.nodes + live.card = t.nodes + live'.card
  kept : ∀ m ∈ live, ∀ b, ((t.cell m).child b).isSome = true → ((t'.cell m).child b).isSome = true
  held : ∀ m ∈ live', m ∉ live → m ≠ n → ∀ b, ((t'.cell m).child b).isSome = true

theorem nodes_relink (t : Trie V) (parent : Option NodeId) (addr : Bytes)
    (c : Option NodeId) : (t.relink parent addr c).nodes = t.nodes := by
  cases parent <;> rfl

theorem hangNew_interned (h : t.Shaped live) (haddr : addr.length = t.alen)
    (hbits : plen ≤ t.abits) {parent : Option NodeId}
    (hpos : Shaped.Position t live addr plen parent none) :
    Interned t (t.hangNew addr plen parent).1 live (Insert.insert t.heap.next live)
      (pfxMask plen addr) plen (t.hangNew addr plen parent).2 := by
  let t₁ := (t.alloc addr plen).1
  let t₂ := t₁.setParent t.heap.next parent
  let t₃ := t₂.relink parent addr (some t.heap.next)
  have h₁ : t₁.Shaped live := alloc_shaped h addr plen
  have hsame : SameOn t t₁ live := alloc_sameOn h addr plen
  have hrel₂ : Relinked t₁ t₂ := t₁.relinked_setParent _ _
  have hrel : Relinked t₁ t₃ := hrel₂.trans (t₂.relinked_relink parent addr _)
  have hslot : Shaped.slotOf t₁ addr parent = Shaped.slotOf t addr parent :=
    slotOf_alloc h addr plen (fun p hp => hpos.parent_live hp) addr
  have hcell : t₁.cell t.heap.next = .blank (pfxMask plen addr) plen := t.cell_alloc_fresh addr plen
  have hlinks : t₃.links = t₁.links.hang (Shaped.slotOf t addr parent) t.heap.next := by
    rw [links_relink, links_setParent, hrel₂.slotOf_eq, hslot, Links.hang, slotOf_owner]
  have hempty : t₁.links.target (Shaped.slotOf t addr parent) = none := by
    rw [← hpos.target]
    cases hp : parent with
    | none => rfl
    | some p => exact congrFun (congrArg TrieNode.child (hsame.cell p (hpos.parent_live hp))) _
  have htree := h₁.tree.hang (fresh_notMem h) hpos.inUse hempty
    (fun b => congrFun (congrArg TrieNode.child hcell) b)
    (slotOf_fits hpos hsame hcell fun p hp => (hpos.above p hp).1)
  have hgrown : Grown t t₃ live (Insert.insert t.heap.next live) := by
    refine grown_of_relinked h₁ hsame hrel (hlinks ▸ htree) (Finset.subset_insert _ _) ?_
    intro n hn hlive
    have hfresh : n = t.heap.next := (Finset.mem_insert.mp hn).resolve_right hlive
    rw [hfresh, hcell]
    exact ⟨Nat.lt_succ_self _, blank_valid haddr hbits, rfl⟩
  refine ⟨hgrown, ⟨Finset.mem_insert_self _ _, ?_, ?_⟩, ?_, ?_, ?_⟩
  · exact (hrel.addr _).trans (congrArg TrieNode.addr hcell)
  · exact (hrel.plen _).trans (congrArg TrieNode.plen hcell)
  · have hnodes : t₃.nodes = t.nodes + 1 := nodes_relink ..
    have hcard := Finset.card_insert_of_notMem (fresh_notMem h)
    change t₃.nodes + _ = _
    omega
  · intro m hm b hsome
    have hchild : t₃.links.child m b = ((t₁.links.hang (Shaped.slotOf t addr parent)
        t.heap.next).target (some (m, b))) := by rw [hlinks]; rfl
    change (t₃.links.child m b).isSome = true
    rw [hchild]
    apply Links.isSome_hang
    rw [← hsame.cell m hm] at hsome
    exact hsome
  · intro m hm hnot hne
    exact absurd ((Finset.mem_insert.mp hm).resolve_right hnot) hne

/-- Where the node in the way and the new prefix part. -/
def common (t : Trie V) (addr : Bytes) (plen : Nat) (n : NodeId) : Nat :=
  min (min (pfxCommonBits t.alen (t.cell n).addr addr) (t.cell n).plen) plen

/-- What a node in the way has in common with a prefix: more than the parent's bits,
and less than its own unless the prefix covers it. -/
structure InTheWay (t : Trie V) (addr : Bytes) (plen : Nat) (parent : Option NodeId)
    (n : NodeId) : Prop where
  agree : AgreeTo (t.common addr plen n) (t.cell n).addr addr
  parent : ∀ p, parent = some p → (t.cell p).plen < t.common addr plen n
  above : t.common addr plen n = plen → plen < (t.cell n).plen
  apart : t.common addr plen n ≠ plen → t.common addr plen n < plen ∧
    t.common addr plen n < (t.cell n).plen ∧
      pfxBit (t.cell n).addr (t.common addr plen n) ≠ pfxBit addr (t.common addr plen n)

theorem inTheWay (h : t.Shaped live) (haddr : addr.length = t.alen)
    (hbits : plen ≤ t.abits) {parent : Option NodeId} {n : NodeId}
    (hpos : Shaped.Position t live addr plen parent (some n))
    (hway : ¬t.Covers addr plen n) : InTheWay t addr plen parent n := by
  have hn := hpos.node_live h
  have hvalid := h.valid n hn
  have hlen : (t.cell n).addr.length = addr.length := hvalid.length_addr.trans haddr.symm
  obtain ⟨hagree, hdiffer⟩ := pfxCommonBits_spec hlen
  rw [hlen, haddr] at hagree hdiffer
  have hwidth : t.abits = 8 * t.alen := pfxAddrBits_eq t.afi
  have hle : t.common addr plen n ≤ pfxCommonBits t.alen (t.cell n).addr addr := by
    unfold common
    omega
  have hcommon := hagree.mono hle
  have hnot : (t.cell n).plen ≤ plen → t.common addr plen n ≠ (t.cell n).plen := by
    intro hcov heq
    exact hway ⟨hcov, heq ▸ hcommon⟩
  constructor
  · exact hcommon
  · intro p hp
    have hlive := hpos.parent_live hp
    obtain ⟨hlt, habove⟩ := hpos.above p hp
    have hchild : (t.cell p).child (pfxBit addr (t.cell p).plen) = some n := by
      have htarget := hpos.target
      rw [hp] at htarget
      exact htarget
    obtain ⟨hltn, hbelow, hbit⟩ := (h.tree.child_spec hlive hchild).2.2
    have hshare : (t.cell p).plen < pfxCommonBits t.alen (t.cell n).addr addr := by
      by_contra hge
      have hge' := Nat.le_of_not_lt hge
      apply hdiffer (by omega)
      rcases Nat.lt_or_eq_of_le hge' with hin | heq
      · exact (hbelow _ hin).symm.trans (habove _ hin)
      · rw [heq]
        exact hbit
    unfold common
    omega
  · intro heq
    by_contra hge
    have hge' := Nat.le_of_not_lt hge
    apply hnot hge'
    unfold common at heq ⊢
    omega
  · intro hne
    have hshort : t.common addr plen n < plen ∧ t.common addr plen n < (t.cell n).plen := by
      have hstop := hnot
      unfold common at hne hstop ⊢
      omega
    have hbits' : t.common addr plen n = pfxCommonBits t.alen (t.cell n).addr addr := by
      have hlt := hshort
      unfold common at hlt ⊢
      omega
    refine ⟨hshort.1, hshort.2, ?_⟩
    rw [hbits'] at hshort ⊢
    exact hdiffer (by omega)

theorem target_sameOn (hsame : SameOn t t' live) (hroot : t'.root = t.root)
    {parent n : Option NodeId} (hpos : Shaped.Position t live addr plen parent n) :
    t'.links.target (Shaped.slotOf t addr parent) = n := by
  rw [← hpos.target]
  cases hp : parent with
  | none => exact hroot
  | some p => exact congrFun (congrArg TrieNode.child (hsame.cell p (hpos.parent_live hp))) _

theorem insertAbove_interned (h : t.Shaped live) (haddr : addr.length = t.alen)
    (hbits : plen ≤ t.abits) {parent : Option NodeId} {n : NodeId}
    (hpos : Shaped.Position t live addr plen parent (some n))
    (hway : InTheWay t addr plen parent n) (hcommon : t.common addr plen n = plen) :
    Interned t (t.insertAbove addr plen parent n).1 live (Insert.insert t.heap.next live)
      (pfxMask plen addr) plen (t.insertAbove addr plen parent n).2 := by
  let t₁ := (t.alloc addr plen).1
  let t₂ := t₁.setParent t.heap.next parent
  let t₃ := t₂.setChild t.heap.next (pfxBit (t₂.cell n).addr plen) (some n)
  let t₄ := t₃.relink parent addr (some t.heap.next)
  let t₅ := t₄.setParent n (some t.heap.next)
  have hn := hpos.node_live h
  have h₁ : t₁.Shaped live := alloc_shaped h addr plen
  have hsame : SameOn t t₁ live := alloc_sameOn h addr plen
  have hrel₂ : Relinked t₁ t₂ := t₁.relinked_setParent _ _
  have hrel₃ : Relinked t₁ t₃ := hrel₂.trans (t₂.relinked_setChild _ _ _)
  have hrel₄ : Relinked t₁ t₄ := hrel₃.trans (t₃.relinked_relink parent addr _)
  have hrel : Relinked t₁ t₅ := hrel₄.trans (t₄.relinked_setParent _ _)
  have hslot : Shaped.slotOf t₁ addr parent = Shaped.slotOf t addr parent :=
    slotOf_alloc h addr plen (fun p hp => hpos.parent_live hp) addr
  have hcell : t₁.cell t.heap.next = .blank (pfxMask plen addr) plen := t.cell_alloc_fresh addr plen
  have hbranch : (t₂.cell n).addr = (t.cell n).addr := by rw [hrel₂.addr, hsame.cell n hn]
  have hlinks : t₅.links = t₁.links.interpose (Shaped.slotOf t addr parent) t.heap.next
      (pfxBit (t.cell n).addr plen) n := by
    rw [links_setParent, links_relink, links_setChild, links_setParent, hrel₃.slotOf_eq,
      hslot, hbranch, Links.interpose, slotOf_owner]
  have hedge : t₁.edge t.heap.next (pfxBit (t.cell n).addr plen) n := by
    rw [edge, hcell, hsame.cell n hn]
    have hagree := hway.agree
    rw [hcommon] at hagree
    exact ⟨hway.above hcommon, (agreeTo_pfxMask plen addr).trans hagree.symm, rfl⟩
  have htree := h₁.tree.interpose t₁.edgeRule (fresh_notMem h) hpos.inUse
    (target_sameOn hsame rfl hpos)
    (fun b => congrFun (congrArg TrieNode.child hcell) b)
    (slotOf_fits hpos hsame hcell fun p hp => (hpos.above p hp).1) hedge
  have hgrown : Grown t t₅ live (Insert.insert t.heap.next live) := by
    refine grown_of_relinked h₁ hsame hrel (hlinks ▸ htree) (Finset.subset_insert _ _) ?_
    intro m hm hlive
    have hfresh : m = t.heap.next := (Finset.mem_insert.mp hm).resolve_right hlive
    rw [hfresh, hcell]
    exact ⟨Nat.lt_succ_self _, blank_valid haddr hbits, rfl⟩
  refine ⟨hgrown, ⟨Finset.mem_insert_self _ _, ?_, ?_⟩, ?_, ?_, ?_⟩
  · exact (hrel.addr _).trans (congrArg TrieNode.addr hcell)
  · exact (hrel.plen _).trans (congrArg TrieNode.plen hcell)
  · have hnodes : t₅.nodes = t.nodes + 1 := t₃.nodes_relink ..
    have hcard := Finset.card_insert_of_notMem (fresh_notMem h)
    change t₅.nodes + _ = _
    omega
  · intro m hm b hsome
    have hchild : t₅.links.child m b = ((t₁.links.interpose (Shaped.slotOf t addr parent)
        t.heap.next (pfxBit (t.cell n).addr plen) n).target (some (m, b))) := by
      rw [hlinks]; rfl
    change (t₅.links.child m b).isSome = true
    rw [hchild]
    apply Links.isSome_interpose
    rw [← hsame.cell m hm] at hsome
    exact hsome
  · intro m hm hnot hne
    exact absurd ((Finset.mem_insert.mp hm).resolve_right hnot) hne

theorem splitAt_interned (h : t.Shaped live) (haddr : addr.length = t.alen)
    (hbits : plen ≤ t.abits) {parent : Option NodeId} {n : NodeId}
    (hpos : Shaped.Position t live addr plen parent (some n))
    (hway : InTheWay t addr plen parent n) (hcommon : t.common addr plen n ≠ plen) :
    ∃ live', Interned t (t.splitAt addr plen parent n (t.common addr plen n)).1 live live'
      (pfxMask plen addr) plen (t.splitAt addr plen parent n (t.common addr plen n)).2 := by
  obtain ⟨hlt, hltn, hapart⟩ := hway.apart hcommon
  let len := t.common addr plen n
  let g := t.heap.next
  let t₁ := (t.alloc addr len).1
  let f := t₁.heap.next
  let t₂ := (t₁.alloc addr plen).1
  let t₃ := t₂.setParent g parent
  let t₄ := t₃.setChild g (pfxBit (t₃.cell n).addr len) (some n)
  let t₅ := t₄.setChild g (pfxBit addr len) (some f)
  let t₆ := t₅.setParent n (some g)
  let t₇ := t₆.setParent f (some g)
  let t₈ := t₇.relink parent addr (some g)
  have hn := hpos.node_live h
  have h₁ : t₁.Shaped live := alloc_shaped h addr len
  have h₂ : t₂.Shaped live := alloc_shaped h₁ addr plen
  have hsame : SameOn t t₂ live := (alloc_sameOn h addr len).trans (alloc_sameOn h₁ addr plen)
  have hrel₃ : Relinked t₂ t₃ := t₂.relinked_setParent _ _
  have hrel₇ : Relinked t₂ t₇ :=
    ((((hrel₃.trans (t₃.relinked_setChild _ _ _)).trans (t₄.relinked_setChild _ _ _)).trans
      (t₅.relinked_setParent _ _)).trans (t₆.relinked_setParent _ _))
  have hrel : Relinked t₂ t₈ := hrel₇.trans (t₇.relinked_relink parent addr _)
  have hlive : ∀ p, parent = some p → p ∈ live := fun p hp => hpos.parent_live hp
  have hslot : Shaped.slotOf t₂ addr parent = Shaped.slotOf t addr parent :=
    (slotOf_alloc h₁ addr plen hlive addr).trans (slotOf_alloc h addr len hlive addr)
  have hgf : g ≠ f := Nat.ne_of_lt (Nat.lt_succ_self _)
  have hcellg : t₂.cell g = .blank (pfxMask len addr) len := by
    rw [cell_alloc, if_neg hgf]
    exact t.cell_alloc_fresh addr len
  have hcellf : t₂.cell f = .blank (pfxMask plen addr) plen := t₁.cell_alloc_fresh addr plen
  have hbranch : (t₃.cell n).addr = (t.cell n).addr := by rw [hrel₃.addr, hsame.cell n hn]
  have hg : g ∉ live := fresh_notMem h
  have hf : f ∉ Insert.insert g live := by
    intro hmem
    rcases Finset.mem_insert.mp hmem with heq | hin
    · exact hgf heq.symm
    · exact fresh_notMem h₁ hin
  have hslotg : ∀ b, Shaped.slotOf t addr parent ≠ some (g, b) :=
    fun b heq => hg (hpos.inUse g b heq)
  have hlinks : t₈.links = (t₂.links.interpose (Shaped.slotOf t addr parent) g
      (pfxBit (t.cell n).addr len) n).hang (some (g, pfxBit addr len)) f := by
    rw [links_relink, links_setParent, links_setParent, links_setChild, links_setChild,
      links_setParent, hrel₇.slotOf_eq, hslot, hbranch, Links.interpose, Links.hang,
      slotOf_owner, Slot.owner, Option.map_some]
    simp only [Links.setParent_put]
    rw [Links.put_comm _ (hslotg _).symm]
  have hedge : t₂.edge g (pfxBit (t.cell n).addr len) n := by
    rw [edge, hcellg, hsame.cell n hn]
    exact ⟨hltn, (agreeTo_pfxMask len addr).trans hway.agree.symm, rfl⟩
  have hedgef : t₂.edge g (pfxBit addr len) f := by
    rw [edge, hcellg, hcellf]
    have hmask := agreeTo_pfxMask plen addr
    exact ⟨hlt, (agreeTo_pfxMask len addr).trans (hmask.symm.mono (Nat.le_of_lt hlt)), hmask _ hlt⟩
  have hleaf : ∀ x a l, t₂.cell x = .blank a l → ∀ b, t₂.links.child x b = none :=
    fun x a l hcell b => congrFun (congrArg TrieNode.child hcell) b
  have htree₁ := h₂.tree.interpose t₂.edgeRule hg hpos.inUse (target_sameOn hsame rfl hpos)
    (hleaf g _ _ hcellg) (slotOf_fits hpos hsame hcellg hway.parent) hedge
  have hother : ∀ x b, some (x, b) ≠ Shaped.slotOf t addr parent →
      (some (x, b) : Slot NodeId) ≠ some (g, pfxBit (t.cell n).addr len) →
      t₂.links.child x b = none →
      (t₂.links.interpose (Shaped.slotOf t addr parent) g (pfxBit (t.cell n).addr len)
        n).target (some (x, b)) = none := by
    intro x b hne hne' hnone
    rw [Links.target_interpose_of_ne _ hne hne']
    exact hnone
  have huse : Slot.InUse (Insert.insert g live) (some (g, pfxBit addr len)) := by
    intro p b hplace
    cases hplace
    exact Finset.mem_insert_self _ _
  have hempty := hother g (pfxBit addr len) (hslotg _).symm
    (fun heq => hapart (Prod.ext_iff.mp (Option.some.inj heq)).2.symm)
    (hleaf g _ _ hcellg _)
  have hleaff : ∀ b, (t₂.links.interpose (Shaped.slotOf t addr parent) g
      (pfxBit (t.cell n).addr len) n).child f b = none := by
    intro b
    refine hother f b ?_ ?_ (hleaf f _ _ hcellf b)
    · intro heq
      exact hf (Finset.mem_insert_of_mem (hpos.inUse f b heq.symm))
    · intro heq
      exact hgf (Prod.ext_iff.mp (Option.some.inj heq)).1.symm
  have hfits : Slot.Fits t₂.edge (some (g, pfxBit addr len)) f := by
    intro p b hplace
    cases hplace
    exact hedgef
  have htree := htree₁.hang hf huse hempty hleaff hfits
  have hgrown : Grown t t₈ live (Insert.insert f (Insert.insert g live)) := by
    refine grown_of_relinked h₂ hsame hrel (hlinks ▸ htree)
      ((Finset.subset_insert _ _).trans (Finset.subset_insert _ _)) ?_
    intro m hm hnot
    rcases Finset.mem_insert.mp hm with rfl | hm'
    · rw [hcellf]
      exact ⟨Nat.lt_succ_self _, blank_valid haddr hbits, rfl⟩
    · have hmg : m = g := (Finset.mem_insert.mp hm').resolve_right hnot
      rw [hmg, hcellg]
      refine ⟨Nat.lt_of_lt_of_le (Nat.lt_succ_self _) (Nat.le_succ _), ?_, rfl⟩
      exact blank_valid haddr (Nat.le_trans (Nat.le_of_lt hlt) hbits)
  have hchild : ∀ m b, (t₈.cell m).child b = ((t₂.links.interpose
      (Shaped.slotOf t addr parent) g (pfxBit (t.cell n).addr len) n).hang
        (some (g, pfxBit addr len)) f).target (some (m, b)) := by
    intro m b
    rw [← hlinks]
    rfl
  refine ⟨_, hgrown, ⟨Finset.mem_insert_self _ _, ?_, ?_⟩, ?_, ?_, ?_⟩
  · exact (hrel.addr _).trans (congrArg TrieNode.addr hcellf)
  · exact (hrel.plen _).trans (congrArg TrieNode.plen hcellf)
  · have hnodes : t₈.nodes = t.nodes + 2 := t₇.nodes_relink ..
    have hcard := Finset.card_insert_of_notMem hg
    have hcard' := Finset.card_insert_of_notMem hf
    change t₈.nodes + _ = _
    omega
  · intro m hm b hsome
    change ((t₈.cell m).child b).isSome = true
    rw [hchild]
    apply Links.isSome_hang
    apply Links.isSome_interpose
    rw [← hsame.cell m hm] at hsome
    exact hsome
  · intro m hm hnot hne b
    have hmg : m = g := by
      rcases Finset.mem_insert.mp hm with rfl | hm'
      · exact absurd rfl hne
      · exact (Finset.mem_insert.mp hm').resolve_right hnot
    change ((t₈.cell m).child b).isSome = true
    rw [hchild, hmg]
    -- The glue node branches where the two diverge, so each branch is one of theirs.
    by_cases hb : b = pfxBit addr len
    · rw [hb, Links.hang, Links.target_put_self]
      rfl
    · have hb' : b = pfxBit (t.cell n).addr len :=
        (Bool.eq_not.mpr hb).trans (Bool.eq_not.mpr hapart).symm
      apply Links.isSome_hang
      rw [hb', Links.interpose, Links.target_setParent,
        Links.target_put_of_ne _ (hslotg _).symm, Links.target_put_self]
      rfl

/-- `node_intern` finds or makes the node of a prefix. -/
theorem nodeIntern_interned (h : t.Shaped live) (haddr : addr.length = t.alen)
    (hmasked : pfxMask plen addr = addr) (hbits : plen ≤ t.abits) :
    ∃ live', Interned t (t.nodeIntern addr plen).1 live live' addr plen
      (t.nodeIntern addr plen).2 := by
  have hended := h.descend_ended haddr (t.abits + 1)
    (Shaped.root_position t live addr plen) (fun m _ => by omega)
  rw [nodeIntern]
  cases hdescend : t.descend addr plen (t.abits + 1) none t.root with
  | found n =>
    rw [hdescend] at hended
    cases hended with
    | found hlive hplen hcov =>
      have heq := h.addr_eq_of_covers hlive haddr hmasked hcov hplen
      exact ⟨live, Grown.refl h, ⟨hlive, heq, hplen⟩, rfl, fun _ _ _ hsome => hsome,
        fun m hm hnot => absurd hm hnot⟩
  | stopped parent n =>
    rw [hdescend] at hended
    cases hended with
    | stopped hpos hway =>
      cases n with
      | none =>
        have hnew := hangNew_interned h haddr hbits hpos
        rw [hmasked] at hnew
        exact ⟨_, hnew⟩
      | some n =>
        have hin := inTheWay h haddr hbits hpos (hway n rfl)
        by_cases hcommon : t.common addr plen n = plen
        · have hnew := insertAbove_interned h haddr hbits hpos hin hcommon
          rw [hmasked] at hnew
          simp only [common] at hcommon
          simp only [hcommon, if_pos]
          exact ⟨_, hnew⟩
        · have hnew := splitAt_interned h haddr hbits hpos hin hcommon
          rw [hmasked] at hnew
          simp only [common] at hcommon hnew
          simp only [hcommon, if_false]
          exact hnew

theorem nodeIntern_grown (h : t.Shaped live) (haddr : addr.length = t.alen)
    (hmasked : pfxMask plen addr = addr) (hbits : plen ≤ t.abits) :
    ∃ live', Grown t (t.nodeIntern addr plen).1 live live' ∧
      NodeOf (t.nodeIntern addr plen).1 live' addr plen (t.nodeIntern addr plen).2 := by
  obtain ⟨live', hnew⟩ := nodeIntern_interned h haddr hmasked hbits
  exact ⟨live', hnew.grown, hnew.node⟩

end Trie

variable {V : Type}

namespace Trie

variable {t t' : Trie V} {live live' : Finset NodeId}

theorem relinked_adopt (t : Trie V) (child parent : Option NodeId) :
    Relinked t (t.adopt child parent) := by
  cases child with
  | none => exact Relinked.refl t
  | some c => exact t.relinked_setParent c parent

theorem relinked_replace (t : Trie V) (n : NodeId) (parent child : Option NodeId) :
    Relinked t (t.replace n parent child) := by
  cases parent with
  | none => exact ⟨rfl, rfl, rfl, fun _ => rfl, fun _ => rfl, fun _ => rfl, fun _ => rfl⟩
  | some p => exact t.relinked_setChild p _ child

theorem relinked_unlink (t : Trie V) (n : NodeId) (child : Option NodeId) :
    Relinked t (t.unlink n child) := by
  have hlinks := (t.relinked_adopt child (t.cell n).parent).trans
    (relinked_replace _ n (t.cell n).parent child)
  exact ⟨hlinks.afi, hlinks.next, hlinks.count, hlinks.addr, hlinks.plen, hlinks.isReal,
    hlinks.value⟩

theorem links_adopt (t : Trie V) (child parent : Option NodeId) :
    (t.adopt child parent).links = t.links.adopt child parent := by
  cases child with
  | none => rfl
  | some c => exact t.links_setParent c parent

/-- Unlinking is a cut of the tree. -/
theorem links_unlink (h : t.Shaped live) {n : NodeId} {slot : Slot NodeId}
    (huse : slot.InUse live) (hslot : t.links.target slot = some n)
    (child : Option NodeId) : (t.unlink n child).links = t.links.cut slot child := by
  have hparent : (t.cell n).parent = slot.owner := (h.tree.down slot huse n hslot).2.1
  change ((t.adopt child (t.cell n).parent).replace n (t.cell n).parent child).links = _
  rw [hparent, Links.cut, ← links_adopt]
  cases slot with
  | none => rfl
  | some place =>
    obtain ⟨p, b⟩ := place
    have hchild : ((t.adopt child (some p)).cell p).child = (t.cell p).child := by
      have hfun := congrArg (fun g => Links.child g p) (t.links_adopt child (some p))
      rw [Links.child_adopt] at hfun
      exact hfun
    have hbranch : decide (((t.adopt child (some p)).cell p).child false ≠ some n) = b := by
      rw [hchild]
      have hheld : (t.cell p).child b = some n := hslot
      cases b with
      | false => exact decide_eq_false (not_not_intro hheld)
      | true =>
        apply decide_eq_true
        intro hfalse
        have hother : Slot.InUse live (some (p, false)) := by
          intro q d hplace
          cases hplace
          exact huse p true rfl
        have hsame := h.tree.slot_unique t.edgeRule huse hslot hother hfalse
        exact absurd hsame (by simp)
    change ((t.adopt child (some p)).setChild p
      (decide (((t.adopt child (some p)).cell p).child false ≠ some n)) child).links = _
    rw [hbranch, links_setChild]
    rfl

theorem Shaped.parent_spec (h : t.Shaped live) {n p : NodeId} (hn : n ∈ live)
    (hp : (t.cell n).parent = some p) : p ∈ live.erase n ∧ (t.cell p).plen < (t.cell n).plen := by
  obtain ⟨slot, huse, hslot⟩ := h.tree.up n hn
  obtain ⟨-, hback, hfits⟩ := h.tree.down slot huse n hslot
  have howner : slot.owner = some p := hback.symm.trans hp
  obtain ⟨⟨q, b⟩, hplace, rfl⟩ := Option.map_eq_some_iff.mp howner
  have hlt : (t.cell q).plen < (t.cell n).plen := (hfits q b hplace).1
  refine ⟨Finset.mem_erase.mpr ⟨?_, huse q b hplace⟩, hlt⟩
  rintro rfl
  exact Nat.lt_irrefl _ hlt

/-- A trie that has lost nodes without values. -/
structure Pruned (t t' : Trie V) (live live' : Finset NodeId) : Prop where
  shaped : t'.Shaped live'
  relinked : Relinked t t'
  sub : live' ⊆ live
  gone : ∀ n ∈ live, n ∉ live' → (t.cell n).value = none

theorem unlink_pruned (h : t.Shaped live) {n : NodeId} (hn : n ∈ live)
    (hglue : (t.cell n).isReal = false)
    (hone : ¬(((t.cell n).child false).isSome = true ∧ ((t.cell n).child true).isSome = true)) :
    Pruned t (t.unlink n (((t.cell n).child false).or ((t.cell n).child true))) live
      (live.erase n) := by
  obtain ⟨slot, huse, hslot⟩ := h.tree.up n hn
  have hrel := t.relinked_unlink n (((t.cell n).child false).or ((t.cell n).child true))
  refine ⟨?_, hrel, Finset.erase_subset _ _, ?_⟩
  · apply hrel.shaped h (Finset.erase_subset _ _)
    rw [links_unlink h huse hslot]
    apply h.tree.cut t.edgeRule huse hslot
    · intro b m hm
      have hheld : (t.cell n).child b = some m := hm
      cases b with
      | false => rw [hheld, Option.some_or]
      | true =>
        cases hfalse : (t.cell n).child false with
        | none => rw [Option.none_or, hheld]
        | some other => exact absurd ⟨by rw [hfalse]; rfl, by rw [hheld]; rfl⟩ hone
    · intro m hm
      rcases Option.or_eq_some_iff.mp hm with hfalse | ⟨-, htrue⟩
      · exact ⟨false, hfalse⟩
      · exact ⟨true, htrue⟩
  · intro m hm hnot
    have hmn : m = n := by
      by_contra hne
      exact hnot (Finset.mem_erase.mpr ⟨hne, hm⟩)
    have hreal := (h.valid n hn).real
    rw [hglue] at hreal
    rw [hmn]
    exact Option.isSome_eq_false_iff.mp hreal.symm |> Option.isNone_iff_eq_none.mp

theorem Pruned.trans {t'' : Trie V} {live'' : Finset NodeId} (h : Pruned t t' live live')
    (h' : Pruned t' t'' live' live'') : Pruned t t'' live live'' where
  shaped := h'.shaped
  relinked := h.relinked.trans h'.relinked
  sub := h'.sub.trans h.sub
  gone n hn hnot := by
    by_cases hmid : n ∈ live'
    · exact (h.relinked.value n).symm.trans (h'.gone n hmid hnot)
    · exact h.gone n hn hmid

theorem prune_pruned (h : t.Shaped live) (fuel : Nat) {n : Option NodeId}
    (hn : ∀ m, n = some m → m ∈ live) : ∃ live', Pruned t (prune fuel t n) live live' := by
  have hstay : Pruned t t live live :=
    ⟨h, Relinked.refl t, Finset.Subset.refl _, fun m hm hnot => absurd hm hnot⟩
  induction fuel generalizing t live n with
  | zero => exact ⟨live, hstay⟩
  | succ fuel ih =>
    cases n with
    | none => exact ⟨live, hstay⟩
    | some m =>
      have hm := hn m rfl
      rw [prune]
      by_cases hreal : (t.cell m).isReal = true
      · rw [if_pos hreal]
        exact ⟨live, hstay⟩
      · rw [if_neg hreal]
        by_cases hboth : ((t.cell m).child false).isSome = true ∧
            ((t.cell m).child true).isSome = true
        · rw [if_pos hboth]
          exact ⟨live, hstay⟩
        · rw [if_neg hboth]
          rw [Bool.not_eq_true] at hreal
          have hpruned := unlink_pruned h hm hreal hboth
          dsimp only
          split
          · exact ⟨_, hpruned⟩
          · have hparent : ∀ p, (t.cell m).parent = some p → p ∈ live.erase m :=
              fun p hp => (h.parent_spec hm hp).1
            obtain ⟨live', hrest⟩ := ih hpruned.shaped hparent
              ⟨hpruned.shaped, Relinked.refl _, Finset.Subset.refl _,
                fun k hk hnot => absurd hk hnot⟩
            exact ⟨live', hpruned.trans hrest⟩

end Trie

end Packets
