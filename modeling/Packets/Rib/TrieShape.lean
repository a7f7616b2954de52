/-
The shape of a trie, and what its searches find.

A child's prefix extends its parent's on the branch of its own next bit, so a search towards an
address passes every node that covers it.
-/
import Packets.Lib.LinkedTree
import Packets.Rib.Trie

namespace Packets

open LinkedTree

variable {V : Type}

/-- What every node in use is like. -/
structure TrieNode.Valid (node : TrieNode V) (afi : Nat) : Prop where
  plen_le : node.plen ≤ pfxAddrBits afi
  length_addr : node.addr.length = pfxAddrLen afi
  masked : pfxMask node.plen node.addr = node.addr
  real : node.isReal = node.value.isSome

namespace Trie

def links (t : Trie V) : Links NodeId :=
  ⟨t.root, fun n => (t.cell n).parent, fun n => (t.cell n).child⟩

/-- A child's prefix is a strict extension of its parent's, by the bit of its branch. -/
def edge (t : Trie V) (p : NodeId) (b : Bool) (n : NodeId) : Prop :=
  (t.cell p).plen < (t.cell n).plen ∧
    AgreeTo (t.cell p).plen (t.cell p).addr (t.cell n).addr ∧
      pfxBit (t.cell n).addr (t.cell p).plen = b

theorem edgeRule (t : Trie V) : EdgeRule t.edge fun n => (t.cell n).plen where
  rank_lt h := h.1
  branch h h' := h.2.2.symm.trans h'.2.2
  trans := by
    rintro p b n b' m ⟨hlt, hagree, hbit⟩ ⟨hlt', hagree', -⟩
    refine ⟨Nat.lt_trans hlt hlt', hagree.trans (hagree'.mono (Nat.le_of_lt hlt)), ?_⟩
    rw [← hagree' _ hlt]
    exact hbit

/-- The invariant: the nodes in use are a tree of valid nodes. -/
structure Shaped (t : Trie V) (live : Finset NodeId) : Prop where
  tree : Tree t.links live t.edge
  allocated : ∀ n ∈ live, n < t.heap.next
  valid : ∀ n ∈ live, (t.cell n).Valid t.afi

/-- A node's prefix covers a prefix. -/
def Covers (t : Trie V) (addr : Bytes) (plen : Nat) (n : NodeId) : Prop :=
  (t.cell n).plen ≤ plen ∧ AgreeTo (t.cell n).plen (t.cell n).addr addr

/-- The branch a descent towards an address takes. -/
def turn (t : Trie V) (addr : Bytes) (n : NodeId) : Bool := pfxBit addr (t.cell n).plen

theorem search (t : Trie V) (addr : Bytes) (plen : Nat) :
    Search t.edge (t.Covers addr plen) (t.turn addr) where
  up := by
    rintro p b n ⟨hlt, hagree, hbit⟩ ⟨hle, hcov⟩
    refine ⟨⟨Nat.le_trans (Nat.le_of_lt hlt) hle, hagree.trans (hcov.mono (Nat.le_of_lt hlt))⟩, ?_⟩
    rw [turn, ← hcov _ hlt]
    exact hbit

/-- The nodes a descent passes. -/
abbrev Passes (t : Trie V) (addr : Bytes) (plen : Nat) : NodeId → NodeId → Prop :=
  Walk t.links (t.Covers addr plen) (t.turn addr)

namespace Shaped

variable {t : Trie V} {live : Finset NodeId} {addr : Bytes} {plen : Nat}

theorem match_iff (h : t.Shaped live) {n : NodeId} (hn : n ∈ live) (haddr : addr.length = t.alen) :
    pfxMatch (t.cell n).addr (t.cell n).plen addr = true ↔
      AgreeTo (t.cell n).plen (t.cell n).addr addr := by
  have hvalid := h.valid n hn
  apply pfxMatch_iff
  · rw [hvalid.length_addr, haddr]
    rfl
  · rw [hvalid.length_addr, ← pfxAddrBits_eq]
    exact hvalid.plen_le

theorem child_live (h : t.Shaped live) {p n : NodeId} {b : Bool} (hp : p ∈ live)
    (hn : (t.cell p).child b = some n) : n ∈ live :=
  (h.tree.child_spec hp hn).1

theorem root_live (h : t.Shaped live) {n : NodeId} (hn : t.root = some n) : n ∈ live :=
  (h.tree.root_spec hn).1

theorem passes (h : t.Shaped live) {m : NodeId} (hm : m ∈ live) (hcov : t.Covers addr plen m) :
    ∃ r, t.root = some r ∧ t.Passes addr plen r m :=
  h.tree.walk_of_covers t.edgeRule (t.search addr plen) hm hcov

theorem node_unique (h : t.Shaped live) {m m' : NodeId} (hm : m ∈ live) (hm' : m' ∈ live)
    (haddr : (t.cell m).addr = (t.cell m').addr) (hplen : (t.cell m).plen = (t.cell m').plen) :
    m = m' := by
  have hcov : t.Covers (t.cell m).addr (t.cell m).plen m := ⟨Nat.le_refl _, AgreeTo.refl _ _⟩
  have hcov' : t.Covers (t.cell m).addr (t.cell m).plen m' := by
    rw [Covers, haddr, hplen]
    exact ⟨Nat.le_refl _, AgreeTo.refl _ _⟩
  exact h.tree.eq_of_covers t.edgeRule (t.search _ _) hm hm' hcov hcov' hplen

theorem addr_eq_of_covers (h : t.Shaped live) {n : NodeId} (hn : n ∈ live)
    (haddr : addr.length = t.alen) (hmasked : pfxMask plen addr = addr)
    (hcov : t.Covers addr plen n) (hplen : (t.cell n).plen = plen) : (t.cell n).addr = addr := by
  have hvalid := h.valid n hn
  have hmask := hvalid.masked
  have hagree := hcov.2
  rw [hplen] at hmask hagree
  exact eq_of_masked (hvalid.length_addr.trans haddr.symm) hmask hmasked hagree

theorem exactLoop_sound (h : t.Shaped live) (haddr : addr.length = t.alen) {fuel : Nat}
    {n : Option NodeId} {r : NodeId} (hn : ∀ m, n = some m → m ∈ live)
    (hr : t.exactLoop addr plen fuel n = some r) :
    r ∈ live ∧ t.Covers addr plen r ∧ (t.cell r).plen = plen ∧ (t.cell r).isReal = true := by
  induction fuel generalizing n with
  | zero => exact absurd hr (by simp [exactLoop])
  | succ fuel ih =>
    cases n with
    | none => exact absurd hr (by simp [exactLoop])
    | some m =>
      have hm := hn m rfl
      simp only [exactLoop, Option.ite_none_left_eq_some, Bool.not_eq_true',
        Bool.not_eq_false, h.match_iff hm haddr] at hr
      obtain ⟨hle, hagree, hr⟩ := hr
      by_cases hplen : (t.cell m).plen = plen
      · rw [if_pos hplen, Option.ite_none_right_eq_some, Option.some.injEq] at hr
        obtain ⟨hreal, rfl⟩ := hr
        exact ⟨hm, ⟨Nat.le_of_eq hplen, hagree⟩, hplen, hreal⟩
      · rw [if_neg hplen] at hr
        exact ih (fun c hc => h.child_live hm hc) hr

theorem exactLoop_complete (h : t.Shaped live) (haddr : addr.length = t.alen) {a m : NodeId}
    (hpass : t.Passes addr plen a m) (ha : a ∈ live) (hcov : t.Covers addr plen m)
    (hplen : (t.cell m).plen = plen) (hreal : (t.cell m).isReal = true) {fuel : Nat}
    (hfuel : plen < fuel + (t.cell a).plen) : t.exactLoop addr plen fuel (some a) = some m := by
  induction hpass generalizing fuel with
  | refl m =>
    obtain ⟨k, rfl⟩ : ∃ k, fuel = k + 1 := ⟨fuel - 1, by omega⟩
    have hmatch := (h.match_iff ha haddr).mpr hcov.2
    rw [exactLoop, if_neg (Nat.not_lt.mpr hcov.1), hmatch, Bool.not_true,
      if_neg Bool.false_ne_true, if_pos hplen, if_pos hreal]
  | @step p n m hcovp hnext rest ih =>
    obtain ⟨hn, -, hedge⟩ := h.tree.child_spec ha hnext
    obtain ⟨-, hrank⟩ := h.tree.rank_walk t.edgeRule hn rest
    have hlt : (t.cell p).plen < (t.cell n).plen := hedge.1
    have hle : (t.cell n).plen ≤ plen := by
      rw [← hplen]
      rcases hrank with rfl | hlt'
      · exact Nat.le_refl _
      · exact Nat.le_of_lt hlt'
    obtain ⟨k, rfl⟩ : ∃ k, fuel = k + 1 := ⟨fuel - 1, by omega⟩
    have hmatch := (h.match_iff ha haddr).mpr hcovp.2
    have hstop : ¬plen < (t.cell p).plen := by omega
    have hne : ¬(t.cell p).plen = plen := by omega
    have hturn : (t.cell p).child (pfxBit addr (t.cell p).plen) = some n := hnext
    rw [exactLoop, if_neg hstop, hmatch, Bool.not_true, if_neg Bool.false_ne_true,
      if_neg hne, hturn]
    exact ih hn hcov hplen hreal (by omega)

/-- `node_exact` finds the real node of a prefix. -/
theorem nodeExact_iff (h : t.Shaped live) (haddr : addr.length = t.alen)
    (hmasked : pfxMask plen addr = addr) (hbits : plen ≤ t.abits) {n : NodeId} :
    t.nodeExact addr plen = some n ↔
      n ∈ live ∧ (t.cell n).addr = addr ∧ (t.cell n).plen = plen ∧ (t.cell n).isReal = true := by
  constructor
  · intro hn
    obtain ⟨hlive, hcov, hplen, hreal⟩ := h.exactLoop_sound haddr (fun m hm => h.root_live hm) hn
    exact ⟨hlive, h.addr_eq_of_covers hlive haddr hmasked hcov hplen, hplen, hreal⟩
  · rintro ⟨hlive, heq, hplen, hreal⟩
    have hcov : t.Covers addr plen n := by
      rw [Covers, heq, hplen]
      exact ⟨Nat.le_refl _, AgreeTo.refl _ _⟩
    obtain ⟨r, hroot, hpass⟩ := h.passes hlive hcov
    rw [nodeExact, hroot]
    exact h.exactLoop_complete haddr hpass (h.root_live hroot) hcov hplen hreal (by omega)

theorem lpmLoop_sound (h : t.Shaped live) (haddr : addr.length = t.alen) {fuel : Nat}
    {n best : Option NodeId} {r : NodeId} (hn : ∀ m, n = some m → m ∈ live)
    (hr : t.lpmLoop addr plen fuel n best = some r) :
    best = some r ∨ (r ∈ live ∧ t.Covers addr plen r ∧ (t.cell r).isReal = true) := by
  induction fuel generalizing n best with
  | zero => exact Or.inl hr
  | succ fuel ih =>
    cases n with
    | none => exact Or.inl hr
    | some m =>
      have hm := hn m rfl
      rw [lpmLoop] at hr
      by_cases hlt : plen < (t.cell m).plen
      · rw [if_pos hlt] at hr
        exact Or.inl hr
      · rw [if_neg hlt] at hr
        by_cases hmatch : pfxMatch (t.cell m).addr (t.cell m).plen addr = true
        · have hcov : t.Covers addr plen m :=
            ⟨Nat.le_of_not_lt hlt, (h.match_iff hm haddr).mp hmatch⟩
          rw [hmatch, Bool.not_true, if_neg Bool.false_ne_true] at hr
          have hbest : (if (t.cell m).isReal = true then some m else best) = some r →
              best = some r ∨ (r ∈ live ∧ t.Covers addr plen r ∧ (t.cell r).isReal = true) := by
            intro heq
            by_cases hreal : (t.cell m).isReal = true
            · rw [if_pos hreal, Option.some.injEq] at heq
              subst heq
              exact Or.inr ⟨hm, hcov, hreal⟩
            · rw [if_neg hreal] at heq
              exact Or.inl heq
          by_cases hplen : (t.cell m).plen = plen
          · rw [if_pos hplen] at hr
            exact hbest hr
          · rw [if_neg hplen] at hr
            rcases ih (fun c hc => h.child_live hm hc) hr with heq | hfound
            · exact hbest heq
            · exact Or.inr hfound
        · rw [Bool.not_eq_true] at hmatch
          rw [hmatch, Bool.not_false, if_pos rfl] at hr
          exact Or.inl hr

/-- A match once found is only given up for a longer one. -/
theorem lpmLoop_keeps (h : t.Shaped live) {fuel : Nat} {n : Option NodeId} {b : NodeId}
    (hn : ∀ m, n = some m → m ∈ live ∧ (t.cell b).plen ≤ (t.cell m).plen) :
    ∃ r, t.lpmLoop addr plen fuel n (some b) = some r ∧ (t.cell b).plen ≤ (t.cell r).plen := by
  induction fuel generalizing n b with
  | zero => exact ⟨b, rfl, Nat.le_refl _⟩
  | succ fuel ih =>
    cases n with
    | none => exact ⟨b, rfl, Nat.le_refl _⟩
    | some m =>
      obtain ⟨hm, hle⟩ := hn m rfl
      have hchild : ∀ c, (t.cell m).child (pfxBit addr (t.cell m).plen) = some c →
          c ∈ live ∧ (t.cell m).plen ≤ (t.cell c).plen := by
        intro c hc
        obtain ⟨hlive, -, hedge⟩ := h.tree.child_spec hm hc
        exact ⟨hlive, Nat.le_of_lt hedge.1⟩
      rw [lpmLoop]
      split
      · exact ⟨b, rfl, Nat.le_refl _⟩
      · split
        · exact ⟨b, rfl, Nat.le_refl _⟩
        · by_cases hreal : (t.cell m).isReal = true
          · rw [if_pos hreal]
            split
            · exact ⟨m, rfl, hle⟩
            · obtain ⟨r, hr, hler⟩ := ih hchild
              exact ⟨r, hr, Nat.le_trans hle hler⟩
          · rw [if_neg hreal]
            split
            · exact ⟨b, rfl, Nat.le_refl _⟩
            · apply ih
              intro c hc
              obtain ⟨hlive, hlec⟩ := hchild c hc
              exact ⟨hlive, Nat.le_trans hle hlec⟩

theorem lpmLoop_complete (h : t.Shaped live) (haddr : addr.length = t.alen) {a m : NodeId}
    (hpass : t.Passes addr plen a m) (ha : a ∈ live) (hcov : t.Covers addr plen m)
    (hreal : (t.cell m).isReal = true) {fuel : Nat} {best : Option NodeId}
    (hfuel : plen < fuel + (t.cell a).plen) :
    ∃ r, t.lpmLoop addr plen fuel (some a) best = some r ∧ (t.cell m).plen ≤ (t.cell r).plen := by
  induction hpass generalizing fuel best with
  | refl m =>
    have hle := hcov.1
    obtain ⟨k, rfl⟩ : ∃ k, fuel = k + 1 := ⟨fuel - 1, by omega⟩
    have hmatch := (h.match_iff ha haddr).mpr hcov.2
    rw [lpmLoop, if_neg (Nat.not_lt.mpr hle), hmatch, Bool.not_true,
      if_neg Bool.false_ne_true, if_pos hreal]
    split
    · exact ⟨m, rfl, Nat.le_refl _⟩
    · apply h.lpmLoop_keeps
      intro c hc
      obtain ⟨hlive, -, hedge⟩ := h.tree.child_spec ha hc
      exact ⟨hlive, Nat.le_of_lt hedge.1⟩
  | @step p n m hcovp hnext rest ih =>
    obtain ⟨hn, -, hedge⟩ := h.tree.child_spec ha hnext
    obtain ⟨-, hrank⟩ := h.tree.rank_walk t.edgeRule hn rest
    have hlt : (t.cell p).plen < (t.cell n).plen := hedge.1
    have hle : (t.cell n).plen ≤ plen := by
      rcases hrank with rfl | hlt'
      · exact hcov.1
      · exact Nat.le_trans (Nat.le_of_lt hlt') hcov.1
    obtain ⟨k, rfl⟩ : ∃ k, fuel = k + 1 := ⟨fuel - 1, by omega⟩
    have hmatch := (h.match_iff ha haddr).mpr hcovp.2
    have hstop : ¬plen < (t.cell p).plen := by omega
    have hne : ¬(t.cell p).plen = plen := by omega
    have hturn : (t.cell p).child (pfxBit addr (t.cell p).plen) = some n := hnext
    rw [lpmLoop, if_neg hstop, hmatch, Bool.not_true, if_neg Bool.false_ne_true, if_neg hne, hturn]
    exact ih hn hcov hreal (by omega)

/-- `node_lpm` finds the longest real node that covers a prefix. -/
theorem nodeLpm_spec (h : t.Shaped live) (haddr : addr.length = t.alen) (hbits : plen ≤ t.abits) :
    (∀ r, t.nodeLpm addr plen = some r →
        r ∈ live ∧ t.Covers addr plen r ∧ (t.cell r).isReal = true) ∧
      ∀ m ∈ live, t.Covers addr plen m → (t.cell m).isReal = true →
        ∃ r, t.nodeLpm addr plen = some r ∧ (t.cell m).plen ≤ (t.cell r).plen := by
  constructor
  · intro r hr
    rcases h.lpmLoop_sound haddr (fun m hm => h.root_live hm) hr with hnone | hfound
    · exact absurd hnone (by simp)
    · exact hfound
  · intro m hm hcov hreal
    obtain ⟨a, hroot, hpass⟩ := h.passes hm hcov
    rw [nodeLpm, hroot]
    exact h.lpmLoop_complete haddr hpass (h.root_live hroot) hcov hreal (by omega)

/-- The slot a descent came by. -/
def slotOf (t : Trie V) (addr : Bytes) (parent : Option NodeId) : Slot NodeId :=
  parent.map fun p => (p, pfxBit addr (t.cell p).plen)

/-- Where a descent stands: the slot is in use and holds the node, and the parent is
above the prefix. -/
structure Position (t : Trie V) (live : Finset NodeId) (addr : Bytes) (plen : Nat)
    (parent n : Option NodeId) : Prop where
  inUse : Slot.InUse live (slotOf t addr parent)
  target : t.links.target (slotOf t addr parent) = n
  above : ∀ p, parent = some p → (t.cell p).plen < plen ∧
    AgreeTo (t.cell p).plen (t.cell p).addr addr

theorem root_position (t : Trie V) (live : Finset NodeId) (addr : Bytes) (plen : Nat) :
    Position t live addr plen none t.root where
  inUse p b h := by simp [slotOf] at h
  target := rfl
  above p h := by simp at h

theorem Position.parent_live {parent n : Option NodeId} {p : NodeId}
    (h : Position t live addr plen parent n) (hp : parent = some p) : p ∈ live :=
  h.inUse p (pfxBit addr (t.cell p).plen) (by rw [hp]; rfl)

theorem Position.node_live {parent : Option NodeId} {n : NodeId}
    (hpos : Position t live addr plen parent (some n)) (h : t.Shaped live) : n ∈ live :=
  (h.tree.down _ hpos.inUse n hpos.target).1

/-- How a descent ends. -/
inductive Ended (t : Trie V) (live : Finset NodeId) (addr : Bytes) (plen : Nat) :
    Descent → Prop where
  | found {n : NodeId} (hlive : n ∈ live) (hplen : (t.cell n).plen = plen)
      (hcov : t.Covers addr plen n) : Ended t live addr plen (.found n)
  | stopped {parent n : Option NodeId} (hpos : Position t live addr plen parent n)
      (hway : ∀ m, n = some m → ¬t.Covers addr plen m) :
      Ended t live addr plen (.stopped parent n)

theorem descend_ended (h : t.Shaped live) (haddr : addr.length = t.alen) (fuel : Nat)
    {parent n : Option NodeId} (hpos : Position t live addr plen parent n)
    (hfuel : ∀ m, n = some m → plen < fuel + (t.cell m).plen) :
    Ended t live addr plen (t.descend addr plen fuel parent n) := by
  induction fuel generalizing parent n with
  | zero =>
    rw [descend]
    refine .stopped hpos ?_
    intro m hm hcov
    have hlt := hfuel m hm
    have hle := hcov.1
    omega
  | succ fuel ih =>
    cases n with
    | none =>
      change Ended t live addr plen (.stopped parent none)
      exact .stopped hpos (fun m hm => absurd hm (by simp))
    | some m =>
      have hm := hpos.node_live h
      have hmatch := h.match_iff hm haddr
      rw [descend]
      by_cases hcov : t.Covers addr plen m
      · have hgo : (t.cell m).plen ≤ plen ∧ pfxMatch (t.cell m).addr (t.cell m).plen addr = true :=
          ⟨hcov.1, hmatch.mpr hcov.2⟩
        rw [if_pos hgo]
        by_cases hplen : (t.cell m).plen = plen
        · rw [if_pos hplen]
          exact .found hm hplen hcov
        · rw [if_neg hplen]
          have hle := hcov.1
          apply ih
          · constructor
            · intro p b hslot
              cases hslot
              exact hm
            · rfl
            · intro p hp
              cases hp
              exact ⟨by omega, hcov.2⟩
          · intro c hc
            have hlt := hfuel m rfl
            have hlt' : (t.cell m).plen < (t.cell c).plen := (h.tree.child_spec hm hc).2.2.1
            omega
      · have hstop : ¬((t.cell m).plen ≤ plen ∧
            pfxMatch (t.cell m).addr (t.cell m).plen addr = true) :=
          fun hgo => hcov ⟨hgo.1, hmatch.mp hgo.2⟩
        rw [if_neg hstop]
        refine .stopped hpos ?_
        rintro m' hm'
        cases hm'
        exact hcov

end Shaped

end Trie

end Packets
