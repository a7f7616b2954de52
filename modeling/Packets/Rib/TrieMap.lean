/-
The trie is a finite map with longest-prefix match: the dictionary of the values its nodes
hold.
-/
import Packets.Rib.TrieUpdates

namespace Packets

open LinkedTree

variable {V : Type}

/-- A prefix contains an address of its family. -/
def Prefix.ContainsAddr (q : Prefix) (afi : Nat) (addr : Bytes) : Prop :=
  q.afi = afi ∧ pfxMask q.plen addr = q.addr

/-- A prefix contains another: it is no longer, and contains its address. -/
def Prefix.Contains (q p : Prefix) : Prop := q.plen ≤ p.plen ∧ q.ContainsAddr p.afi p.addr

/-- The entry of greatest length among those a test admits, if it admits any. -/
def Longest (d : Dict Prefix V) (inside : Prefix → Prop) : Option (Prefix × V) → Prop
  | none => ∀ q v, d.get? q = some v → ¬inside q
  | some (q, v) => d.get? q = some v ∧ inside q ∧
      ∀ q' v', d.get? q' = some v' → inside q' → q'.plen ≤ q.plen

theorem mask_eq_iff_agreeTo {plen : Nat} {net addr : Bytes} (hlen : net.length = addr.length)
    (hmasked : pfxMask plen net = net) : pfxMask plen addr = net ↔ AgreeTo plen net addr := by
  constructor
  · intro heq
    rw [← heq]
    exact agreeTo_pfxMask plen addr
  · intro hagree
    apply eq_of_masked ((length_pfxMask plen addr).trans hlen.symm) (pfxMask_idem plen addr) hmasked
    exact (agreeTo_pfxMask plen addr).trans hagree.symm

/-- A masked address is its first bytes, padded with zeros. -/
theorem pfxNew_of_masked {afi plen : Nat} {addr : Bytes} (hknown : pfxAddrLen afi ≠ 0)
    (hplen : plen ≤ pfxAddrBits afi) (hlen : addr.length = pfxAddrLen afi)
    (hmasked : pfxMask plen addr = addr) :
    pfxNew afi plen addr = some ⟨afi, plen, addr, hknown, hplen, hlen, hmasked⟩ := by
  have hbits := pfxAddrBits_eq afi
  have hshort : plenBytes plen ≤ addr.length := by
    rw [hlen, plenBytes]
    omega
  have hwidth : (addr.take (plenBytes plen) ++
      List.replicate (pfxAddrLen afi - plenBytes plen) 0).length = pfxAddrLen afi := by
    rw [List.length_append, List.length_take, List.length_replicate]
    omega
  have hsame : pfxMask plen (addr.take (plenBytes plen) ++
      List.replicate (pfxAddrLen afi - plenBytes plen) 0) = addr := by
    rw [mask_eq_iff_agreeTo (hlen.trans hwidth.symm) hmasked]
    intro i hi
    have hin : i / 8 < (addr.take (plenBytes plen)).length := by
      rw [List.length_take, Nat.min_eq_left hshort, plenBytes]
      omega
    rw [pfxBit, pfxBit, List.getD_eq_getElem?_getD, List.getD_eq_getElem?_getD,
      List.getElem?_append_left hin, List.getElem?_take_of_lt]
    rw [List.length_take] at hin
    omega
  rw [pfxNew, Prefix.new, dif_pos ⟨hknown, hplen, hwidth⟩]
  simp only [hsame]

namespace Trie

variable {t t' : Trie V} {live live' : Finset NodeId}

/-- Write a node's value. -/
def withValue (t : Trie V) (n : NodeId) (value : Option V) : Trie V :=
  { t with heap := t.heap.write n { t.cell n with value := value, isReal := value.isSome } }

theorem cell_withValue (t : Trie V) (n : NodeId) (value : Option V) (m : NodeId) :
    (t.withValue n value).cell m =
      if m = n then { t.cell n with value := value, isReal := value.isSome }
      else t.cell m := rfl

/-- A value is no part of the shape. -/
theorem withValue_shaped (h : t.Shaped live) (n : NodeId) (value : Option V) :
    (t.withValue n value).Shaped live := by
  have hcell : ∀ m, ((t.withValue n value).cell m).addr = (t.cell m).addr ∧
      ((t.withValue n value).cell m).plen = (t.cell m).plen ∧
      ((t.withValue n value).cell m).parent = (t.cell m).parent ∧
      ((t.withValue n value).cell m).child = (t.cell m).child := by
    intro m
    rw [cell_withValue]
    by_cases hm : m = n
    · rw [if_pos hm, hm]
      exact ⟨rfl, rfl, rfl, rfl⟩
    · rw [if_neg hm]
      exact ⟨rfl, rfl, rfl, rfl⟩
  constructor
  · refine h.tree.congr rfl (fun m _ => (hcell m).2.2.1) (fun m _ => (hcell m).2.2.2) ?_
    intro p _ m _ b hedge
    rw [edge, (hcell p).1, (hcell p).2.1, (hcell m).1, (hcell m).2.1]
    exact hedge
  · exact h.allocated
  · intro m hm
    have hvalid := h.valid m hm
    constructor
    · rw [(hcell m).2.1]
      exact hvalid.plen_le
    · rw [(hcell m).1]
      exact hvalid.length_addr
    · rw [(hcell m).1, (hcell m).2.1]
      exact hvalid.masked
    · rw [cell_withValue]
      by_cases hmn : m = n
      · rw [if_pos hmn]
      · rw [if_neg hmn]
        exact hvalid.real

/-- A trie holds a value under a prefix. -/
def Stores (t : Trie V) (live : Finset NodeId) (p : Prefix) (v : V) : Prop :=
  p.afi = t.afi ∧ ∃ n, NodeOf t live p.addr p.plen n ∧ (t.cell n).value = some v

/-- A trie in shape means the dictionary of its entries, and counts them. -/
structure Represents (t : Trie V) (live : Finset NodeId) (d : Dict Prefix V) : Prop where
  known : pfxAddrLen t.afi ≠ 0
  shaped : t.Shaped live
  entries : ∀ p v, d.get? p = some v ↔ t.Stores live p v
  count : t.count = d.size

theorem Grown.stores_iff (h : Grown t t' live live') (p : Prefix) (v : V) :
    t'.Stores live' p v ↔ t.Stores live p v := by
  rw [Stores, Stores, h.afi]
  apply and_congr_right
  intro _
  constructor
  · rintro ⟨n, hnode, hvalue⟩
    have hn : n ∈ live := by
      by_contra hnot
      rw [h.new n hnode.live hnot] at hvalue
      exact absurd hvalue (by simp)
    refine ⟨n, ⟨hn, ?_, ?_⟩, ?_⟩
    · rw [← h.addr n hn, hnode.addr]
    · rw [← h.plen n hn, hnode.plen]
    · rw [← h.value n hn, hvalue]
  · rintro ⟨n, hnode, hvalue⟩
    have hn := hnode.live
    refine ⟨n, ⟨h.sub hn, ?_, ?_⟩, ?_⟩
    · rw [h.addr n hn, hnode.addr]
    · rw [h.plen n hn, hnode.plen]
    · rw [h.value n hn, hvalue]

theorem Pruned.stores_iff (h : Pruned t t' live live') (p : Prefix) (v : V) :
    t'.Stores live' p v ↔ t.Stores live p v := by
  rw [Stores, Stores, h.relinked.afi]
  apply and_congr_right
  intro _
  constructor
  · rintro ⟨n, hnode, hvalue⟩
    refine ⟨n, ⟨h.sub hnode.live, ?_, ?_⟩, ?_⟩
    · rw [← h.relinked.addr, hnode.addr]
    · rw [← h.relinked.plen, hnode.plen]
    · rw [← h.relinked.value, hvalue]
  · rintro ⟨n, hnode, hvalue⟩
    have hn : n ∈ live' := by
      by_contra hnot
      rw [h.gone n hnode.live hnot] at hvalue
      exact absurd hvalue (by simp)
    refine ⟨n, ⟨hn, ?_, ?_⟩, ?_⟩
    · rw [h.relinked.addr, hnode.addr]
    · rw [h.relinked.plen, hnode.plen]
    · rw [h.relinked.value, hvalue]

/-- Writing the value of a prefix's node changes its entry only. -/
theorem stores_withValue (h : t.Shaped live) {p : Prefix} (hafi : p.afi = t.afi) {n : NodeId}
    (hnode : NodeOf t live p.addr p.plen n) (value : Option V) (q : Prefix) (w : V) :
    (t.withValue n value).Stores live q w ↔
      if q = p then value = some w else t.Stores live q w := by
  have hnodes : ∀ m, NodeOf (t.withValue n value) live q.addr q.plen m ↔
      NodeOf t live q.addr q.plen m := by
    intro m
    have hcell : ((t.withValue n value).cell m).addr = (t.cell m).addr ∧
        ((t.withValue n value).cell m).plen = (t.cell m).plen := by
      rw [cell_withValue]
      by_cases hm : m = n
      · rw [if_pos hm, hm]
        exact ⟨rfl, rfl⟩
      · rw [if_neg hm]
        exact ⟨rfl, rfl⟩
    constructor
    · rintro ⟨hlive, haddr, hplen⟩
      exact ⟨hlive, hcell.1.symm.trans haddr, hcell.2.symm.trans hplen⟩
    · rintro ⟨hlive, haddr, hplen⟩
      exact ⟨hlive, hcell.1.trans haddr, hcell.2.trans hplen⟩
  have hother : ∀ m, NodeOf t live q.addr q.plen m → q.afi = t.afi → (m = n ↔ q = p) := by
    intro m hm hqafi
    constructor
    · rintro rfl
      obtain ⟨afi, plen, addr, _, _, _, _⟩ := q
      obtain ⟨afi', plen', addr', _, _, _, _⟩ := p
      simp only [Prefix.mk.injEq]
      exact ⟨hqafi.trans hafi.symm, hm.plen.symm.trans hnode.plen, hm.addr.symm.trans hnode.addr⟩
    · rintro rfl
      exact h.node_unique hm.live hnode.live (hm.addr.trans hnode.addr.symm)
        (hm.plen.trans hnode.plen.symm)
  simp only [Stores, hnodes, cell_withValue]
  change q.afi = t.afi ∧ _ ↔ _
  by_cases hqp : q = p
  · rw [if_pos hqp]
    constructor
    · rintro ⟨hqafi, m, hm, hvalue⟩
      rwa [if_pos ((hother m hm hqafi).mpr hqp)] at hvalue
    · intro hvalue
      subst hqp
      refine ⟨hafi, n, hnode, ?_⟩
      rw [if_pos rfl]
      exact hvalue
  · rw [if_neg hqp]
    apply and_congr_right
    intro hqafi
    apply exists_congr
    intro m
    apply and_congr_right
    intro hm
    rw [if_neg fun heq => hqp ((hother m hm hqafi).mp heq)]

/-- Write the number of entries. -/
def withCount (t : Trie V) (count : Nat) : Trie V := { t with count := count }

theorem withCount_shaped (h : t.Shaped live) (count : Nat) :
    (t.withCount count).Shaped live := ⟨h.tree, h.allocated, h.valid⟩

theorem stores_withCount (count : Nat) (p : Prefix) (v : V) :
    (t.withCount count).Stores live p v ↔ t.Stores live p v :=
  ⟨fun ⟨hafi, n, hnode, hvalue⟩ => ⟨hafi, n, ⟨hnode.live, hnode.addr, hnode.plen⟩, hvalue⟩,
    fun ⟨hafi, n, hnode, hvalue⟩ => ⟨hafi, n, ⟨hnode.live, hnode.addr, hnode.plen⟩, hvalue⟩⟩

theorem setValue_eq (t : Trie V) (n : NodeId) (v : V) :
    t.setValue n v = (t.withValue n (some v)).withCount
      (if (t.cell n).value.isNone then t.count + 1 else t.count) := rfl

theorem clearValue_eq {n : NodeId} (h : (t.cell n).value.isNone = false) :
    t.clearValue n =
      prune (t.abits + 1) ((t.withValue n none).withCount (t.count - 1)) (some n) := by
  rw [clearValue, h, if_neg Bool.false_ne_true]
  rfl

theorem length_addr_eq {p : Prefix} (hafi : p.afi = t.afi) : p.addr.length = t.alen :=
  p.length_addr.trans (congrArg pfxAddrLen hafi)

theorem plen_le_abits {p : Prefix} (hafi : p.afi = t.afi) : p.plen ≤ t.abits :=
  Nat.le_trans p.plen_le (Nat.le_of_eq (congrArg pfxAddrBits hafi))

namespace Represents

variable {d : Dict Prefix V}

theorem new {afi : Nat} (hnew : Trie.new afi = some t) : t.Represents ∅ Dict.empty := by
  rw [Trie.new, Option.ite_none_left_eq_some, Option.some.injEq] at hnew
  obtain ⟨hknown, rfl⟩ := hnew
  refine ⟨hknown, ⟨tree_empty rfl, ?_, ?_⟩, ?_, rfl⟩
  · intro n hn
    exact absurd hn (Finset.notMem_empty n)
  · intro n hn
    exact absurd hn (Finset.notMem_empty n)
  · intro p v
    constructor
    · intro h
      simp at h
    · rintro ⟨-, n, hnode, -⟩
      exact absurd hnode.live (Finset.notMem_empty n)

theorem clear (h : t.Represents live d) : t.clear.Represents ∅ Dict.empty := by
  refine ⟨h.known, ⟨tree_empty rfl, ?_, ?_⟩, ?_, rfl⟩
  · intro n hn
    exact absurd hn (Finset.notMem_empty n)
  · intro n hn
    exact absurd hn (Finset.notMem_empty n)
  · intro p v
    constructor
    · intro hget
      simp at hget
    · rintro ⟨-, n, hnode, -⟩
      exact absurd hnode.live (Finset.notMem_empty n)

/-- The value of a prefix's node is the prefix's entry. -/
theorem value_eq (h : t.Represents live d) {p : Prefix} (hafi : p.afi = t.afi) {n : NodeId}
    (hnode : NodeOf t live p.addr p.plen n) : (t.cell n).value = d.get? p := by
  apply Option.ext
  intro v
  rw [h.entries p v]
  constructor
  · intro hvalue
    exact ⟨hafi, n, hnode, hvalue⟩
  · rintro ⟨-, m, hm, hvalue⟩
    have heq := h.shaped.node_unique hm.live hnode.live (hm.addr.trans hnode.addr.symm)
      (hm.plen.trans hnode.plen.symm)
    rwa [← heq]

/-- `node_exact` is the node of an entry. -/
theorem nodeExact_eq (h : t.Represents live d) {p : Prefix} (hafi : p.afi = t.afi) :
    t.nodeValue (t.nodeExact p.addr p.plen) = d.get? p ∧
      ∀ n, t.nodeExact p.addr p.plen = some n → NodeOf t live p.addr p.plen n ∧
        (d.get? p).isSome = true := by
  have hiff := fun n => h.shaped.nodeExact_iff (n := n) (length_addr_eq hafi) p.masked
    (plen_le_abits hafi)
  have hfound : ∀ n, t.nodeExact p.addr p.plen = some n →
      NodeOf t live p.addr p.plen n ∧ (d.get? p).isSome = true := by
    intro n hn
    obtain ⟨hlive, haddr, hplen, hreal⟩ := (hiff n).mp hn
    have hnode : NodeOf t live p.addr p.plen n := ⟨hlive, haddr, hplen⟩
    rw [← h.value_eq hafi hnode, ← (h.shaped.valid n hlive).real]
    exact ⟨hnode, hreal⟩
  refine ⟨?_, hfound⟩
  cases hexact : t.nodeExact p.addr p.plen with
  | some n => exact h.value_eq hafi (hfound n hexact).1
  | none =>
    symm
    apply Option.eq_none_iff_forall_ne_some.mpr
    intro v hv
    obtain ⟨-, n, hnode, hvalue⟩ := (h.entries p v).mp hv
    have hreal := (h.shaped.valid n hnode.live).real
    rw [hvalue] at hreal
    rw [(hiff n).mpr ⟨hnode.live, hnode.addr, hnode.plen, hreal⟩] at hexact
    exact absurd hexact (by simp)

theorem get?_of_afi_ne (h : t.Represents live d) {p : Prefix} (hafi : p.afi ≠ t.afi) :
    d.get? p = none := by
  apply Option.eq_none_iff_forall_ne_some.mpr
  intro v hv
  exact hafi ((h.entries p v).mp hv).1

theorem get_eq (h : t.Represents live d) (p : Prefix) : t.get p = d.get? p := by
  rw [Trie.get]
  by_cases hafi : p.afi = t.afi
  · rw [if_neg (not_not_intro hafi)]
    exact (h.nodeExact_eq hafi).1
  · rw [if_pos hafi, h.get?_of_afi_ne hafi]

theorem grown (h : t.Represents live d) (hgrown : Grown t t' live live') :
    t'.Represents live' d where
  known := hgrown.afi ▸ h.known
  shaped := hgrown.shaped
  entries q w := (h.entries q w).trans (hgrown.stores_iff q w).symm
  count := hgrown.count.trans h.count

theorem insert_spec (h : t.Represents live d) {p : Prefix} (hafi : p.afi = t.afi) (v : V) :
    ∃ t' live', t.insert p v = some (t', d.get? p) ∧ t'.afi = t.afi ∧
      t'.Represents live' (d.set p v) := by
  obtain ⟨live', hgrown, hnode⟩ := nodeIntern_grown h.shaped (length_addr_eq hafi)
    p.masked (plen_le_abits hafi)
  have hmid : (t.nodeIntern p.addr p.plen).1.Represents live' d := h.grown hgrown
  have hafi' : p.afi = (t.nodeIntern p.addr p.plen).1.afi := hafi.trans hgrown.afi.symm
  have hprevious := hmid.value_eq hafi' hnode
  refine ⟨(t.nodeIntern p.addr p.plen).1.setValue (t.nodeIntern p.addr p.plen).2 v, live',
    ?_, hgrown.afi, hmid.known, ?_, ?_, ?_⟩
  · rw [Trie.insert, if_neg (not_not_intro hafi)]
    simp only [nodeValue, Option.bind_some, hprevious]
  · rw [setValue_eq]
    exact withCount_shaped (withValue_shaped hgrown.shaped _ _) _
  · intro q w
    rw [setValue_eq, stores_withCount, stores_withValue hgrown.shaped hafi' hnode, Dict.get?_set]
    by_cases hq : q = p
    · rw [if_pos hq, if_pos hq]
    · rw [if_neg hq, if_neg hq]
      exact hmid.entries q w
  · have hcount : ((t.nodeIntern p.addr p.plen).1.setValue
        (t.nodeIntern p.addr p.plen).2 v).count =
          if (d.get? p).isNone then d.size + 1 else d.size := by
      rw [← hprevious, ← hmid.count]
      rfl
    rw [hcount, Dict.size_set]
    cases d.get? p <;> rfl

theorem remove_spec (h : t.Represents live d) (p : Prefix) :
    (t.remove p).2 = d.get? p ∧ (t.remove p).1.afi = t.afi ∧
      ∃ live', (t.remove p).1.Represents live' (d.erase p) := by
  have habsent : d.get? p = none → t.Represents live (d.erase p) := by
    intro hnone
    refine ⟨h.known, h.shaped, ?_, ?_⟩
    · intro q w
      rw [← h.entries q w, Dict.get?_erase]
      by_cases hq : q = p
      · rw [if_pos hq, hq, hnone]
      · rw [if_neg hq]
    · rw [Dict.size_erase, hnone]
      exact h.count
  by_cases hafi : p.afi = t.afi
  · obtain ⟨hvalue, hfound⟩ := h.nodeExact_eq hafi
    rw [Trie.remove, if_neg (not_not_intro hafi)]
    cases hexact : t.nodeExact p.addr p.plen with
    | none =>
      rw [hexact] at hvalue
      exact ⟨hvalue, rfl, live, habsent hvalue.symm⟩
    | some n =>
      rw [hexact] at hvalue
      obtain ⟨hnode, hsome⟩ := hfound n hexact
      have hheld : (t.cell n).value.isNone = false := by
        rw [h.value_eq hafi hnode]
        simpa using hsome
      have hshape := withCount_shaped (withValue_shaped h.shaped n none) (t.count - 1)
      obtain ⟨live', hpruned⟩ := prune_pruned hshape (t.abits + 1)
        (n := some n) (fun m hm => Option.some.inj hm ▸ hnode.live)
      change _ ∧ (t.clearValue n).afi = t.afi ∧
        ∃ live', (t.clearValue n).Represents live' (d.erase p)
      rw [clearValue_eq hheld]
      refine ⟨hvalue, hpruned.relinked.afi, live', ?_, hpruned.shaped, ?_, ?_⟩
      · rw [hpruned.relinked.afi]
        exact h.known
      · intro q w
        rw [hpruned.stores_iff, stores_withCount, stores_withValue h.shaped hafi hnode,
          Dict.get?_erase]
        by_cases hq : q = p
        · rw [if_pos hq, if_pos hq]
        · rw [if_neg hq, if_neg hq]
          exact h.entries q w
      · rw [hpruned.relinked.count, Dict.size_erase, hsome, if_pos rfl]
        exact congrArg (· - 1) h.count
  · rw [Trie.remove, if_pos hafi]
    have hnone := h.get?_of_afi_ne hafi
    exact ⟨hnone.symm, rfl, live, habsent hnone⟩

/-- `node_lpm` finds the node of the longest entry that a test admits, when the test is
containment of the prefix it is given. -/
theorem nodeLpm_longest (h : t.Represents live d) {addr : Bytes} {plen : Nat}
    (haddr : addr.length = t.alen) (hbits : plen ≤ t.abits) (inside : Prefix → Prop)
    (hinside : ∀ q : Prefix, q.afi = t.afi →
      (inside q ↔ q.plen ≤ plen ∧ pfxMask q.plen addr = q.addr)) :
    ∃ r, Longest d inside r ∧
      (r = none ∧ t.nodeLpm addr plen = none ∨
        ∃ n q v, r = some (q, v) ∧ t.nodeLpm addr plen = some n ∧ q.afi = t.afi ∧
          NodeOf t live q.addr q.plen n ∧ (t.cell n).value = some v) := by
  obtain ⟨hsound, hcomplete⟩ := h.shaped.nodeLpm_spec haddr hbits
  have hcover : ∀ q : Prefix, q.afi = t.afi → ∀ n, NodeOf t live q.addr q.plen n →
      (inside q ↔ t.Covers addr plen n) := by
    intro q hafi n hnode
    have hlen : q.addr.length = addr.length := (length_addr_eq hafi).trans haddr.symm
    rw [hinside q hafi, mask_eq_iff_agreeTo hlen q.masked, Covers, hnode.addr, hnode.plen]
  have hfound : ∀ q v, d.get? q = some v → inside q →
      ∃ r, t.nodeLpm addr plen = some r ∧ q.plen ≤ (t.cell r).plen := by
    intro q v hget hin
    obtain ⟨hafi, m, hnode, hvalue⟩ := (h.entries q v).mp hget
    have hreal := (h.shaped.valid m hnode.live).real
    rw [hvalue] at hreal
    obtain ⟨r, hr, hle⟩ := hcomplete m hnode.live ((hcover q hafi m hnode).mp hin) hreal
    exact ⟨r, hr, hnode.plen ▸ hle⟩
  cases hlpm : t.nodeLpm addr plen with
  | none =>
    refine ⟨none, ?_, Or.inl ⟨rfl, rfl⟩⟩
    intro q v hget hin
    obtain ⟨r, hr, -⟩ := hfound q v hget hin
    rw [hlpm] at hr
    exact absurd hr (by simp)
  | some n =>
    obtain ⟨hlive, hcov, hreal⟩ := hsound n hlpm
    have hvalid := h.shaped.valid n hlive
    rw [hvalid.real] at hreal
    obtain ⟨v, hv⟩ := Option.isSome_iff_exists.mp hreal
    let q : Prefix := ⟨t.afi, (t.cell n).plen, (t.cell n).addr, h.known, hvalid.plen_le,
      hvalid.length_addr, hvalid.masked⟩
    have hnode : NodeOf t live q.addr q.plen n := ⟨hlive, rfl, rfl⟩
    have hget : d.get? q = some v := (h.entries q v).mpr ⟨rfl, n, hnode, hv⟩
    refine ⟨some (q, v), ⟨hget, (hcover q rfl n hnode).mpr hcov, ?_⟩,
      Or.inr ⟨n, q, v, rfl, rfl, rfl, hnode, hv⟩⟩
    intro q' v' hget' hin'
    obtain ⟨r, hr, hle⟩ := hfound q' v' hget' hin'
    rw [hlpm, Option.some.injEq] at hr
    rwa [← hr] at hle

theorem pfxNew_node (h : t.Represents live d) {q : Prefix} (hafi : q.afi = t.afi)
    {n : NodeId} (hnode : NodeOf t live q.addr q.plen n) :
    pfxNew t.afi (t.cell n).plen (t.cell n).addr = some q := by
  have hvalid := h.shaped.valid n hnode.live
  rw [pfxNew_of_masked h.known hvalid.plen_le hvalid.length_addr hvalid.masked]
  obtain ⟨afi, plen, addr, _, _, _, _⟩ := q
  simp only [Option.some.injEq, Prefix.mk.injEq]
  exact ⟨hafi.symm, hnode.plen, hnode.addr⟩

theorem lpm_spec (h : t.Represents live d) {p : Prefix} (hafi : p.afi = t.afi) :
    ∃ r, Longest d (fun q => q.Contains p) r ∧ t.lpm p = r.map Prod.snd ∧
      t.lpmEntry p = r.map fun e => (some e.1, some e.2) := by
  obtain ⟨r, hlongest, hnode⟩ := h.nodeLpm_longest (length_addr_eq hafi)
    (plen_le_abits hafi) (fun q => q.Contains p) (fun q hq => by
      rw [Prefix.Contains, Prefix.ContainsAddr, hq, hafi]
      exact and_congr_right fun _ => and_iff_right rfl)
  refine ⟨r, hlongest, ?_⟩
  rw [Trie.lpm, Trie.lpmEntry, if_neg (not_not_intro hafi), if_neg (not_not_intro hafi)]
  rcases hnode with ⟨rfl, hnone⟩ | ⟨n, q, v, rfl, hsome, hq, hnode, hvalue⟩
  · rw [hnone]
    exact ⟨rfl, rfl⟩
  · simp only [hsome, Option.map_some, h.pfxNew_node hq hnode, nodeValue, Option.bind_some,
      hvalue, and_self]

theorem lpmAddr_spec (h : t.Represents live d) {addr : Bytes} (haddr : addr.length = t.alen) :
    ∃ r, Longest d (fun q => q.ContainsAddr t.afi addr) r ∧
      t.lpmAddr addr = some (r.map Prod.snd) := by
  obtain ⟨r, hlongest, hnode⟩ := h.nodeLpm_longest haddr (Nat.le_refl _)
    (fun q => q.ContainsAddr t.afi addr) (fun q hq => by
      rw [Prefix.ContainsAddr, hq]
      exact ⟨fun hin => ⟨plen_le_abits hq, hin.2⟩, fun hin => ⟨rfl, hin.2⟩⟩)
  refine ⟨r, hlongest, ?_⟩
  rw [Trie.lpmAddr, if_neg (not_not_intro haddr)]
  rcases hnode with ⟨rfl, hnone⟩ | ⟨n, q, v, rfl, hsome, -, -, hvalue⟩
  · rw [hnone]
    rfl
  · rw [hsome]
    simp only [nodeValue, Option.bind_some, hvalue, Option.map_some]

end Represents

end Trie

/-- The calls that change a trie. -/
inductive TrieOp (V : Type) where
  | insert (p : Prefix) (v : V)
  | remove (p : Prefix)
  | clear

/-- What is stored is of a family. -/
def TrieOp.OfFamily (afi : Nat) : TrieOp V → Prop
  | .insert p _ => p.afi = afi
  | .remove p => p.afi = afi
  | .clear => True

/-- One call on a trie, and what it returns.  `none` is its `ValueError`. -/
def Trie.step (t : Trie V) : TrieOp V → Option (Trie V × Option V)
  | .insert p v => t.insert p v
  | .remove p => some (t.remove p)
  | .clear => some (t.clear, none)

/-- A sequence of calls, and what they return. -/
def Trie.run (t : Trie V) : List (TrieOp V) → Option (Trie V × List (Option V))
  | [] => some (t, [])
  | op :: rest =>
    (t.step op).bind fun (t, reply) =>
      (Trie.run t rest).map fun (t, replies) => (t, reply :: replies)

/-- The same call on a finite map: it returns what was stored under the prefix. -/
def mapStep (d : Dict Prefix V) : TrieOp V → Dict Prefix V × Option V
  | .insert p v => (d.set p v, d.get? p)
  | .remove p => (d.erase p, d.get? p)
  | .clear => (Dict.empty, none)

def mapRun (d : Dict Prefix V) : List (TrieOp V) → Dict Prefix V × List (Option V)
  | [] => (d, [])
  | op :: rest =>
    let next := mapStep d op
    let final := mapRun next.1 rest
    (final.1, next.2 :: final.2)

namespace Trie

variable {t : Trie V} {live : Finset NodeId} {d : Dict Prefix V}

theorem Represents.step (h : t.Represents live d) {op : TrieOp V} (hop : op.OfFamily t.afi) :
    ∃ t' live', t.step op = some (t', (mapStep d op).2) ∧ t'.afi = t.afi ∧
      t'.Represents live' (mapStep d op).1 := by
  cases op with
  | insert p v => exact h.insert_spec hop v
  | remove p =>
    obtain ⟨hreply, hafi, live', hrep⟩ := h.remove_spec p
    exact ⟨(t.remove p).1, live', congrArg some (Prod.ext rfl hreply), hafi, hrep⟩
  | clear => exact ⟨t.clear, ∅, rfl, rfl, h.clear⟩

theorem Represents.run (h : t.Represents live d) {ops : List (TrieOp V)}
    (hops : ∀ op ∈ ops, op.OfFamily t.afi) :
    ∃ t' live', t.run ops = some (t', (mapRun d ops).2) ∧ t'.afi = t.afi ∧
      t'.Represents live' (mapRun d ops).1 := by
  induction ops generalizing t live d with
  | nil => exact ⟨t, live, rfl, rfl, h⟩
  | cons op rest ih =>
    obtain ⟨t₁, live₁, hstep, hafi₁, h₁⟩ := h.step (hops op List.mem_cons_self)
    obtain ⟨t₂, live₂, hrun, hafi₂, h₂⟩ := ih h₁ (fun op' hop' =>
      hafi₁ ▸ hops op' (List.mem_cons_of_mem op hop'))
    refine ⟨t₂, live₂, ?_, hafi₂.trans hafi₁, h₂⟩
    rw [Trie.run, hstep, Option.bind_some]
    simp only [hrun, Option.map_some]
    rfl

/-- A trie is a finite map with longest-prefix match: after any calls every call has returned
what was stored before it, every prefix has the value last stored under it, the size is their
number, and each lookup answers with the longest stored prefix that contains its argument. -/
theorem run_isMap {afi : Nat} {t₀ : Trie V} (hnew : Trie.new afi = some t₀)
    (ops : List (TrieOp V)) (hops : ∀ op ∈ ops, op.OfFamily afi) :
    ∃ t, t₀.run ops = some (t, (mapRun Dict.empty ops).2) ∧
      (∀ p, t.get p = (mapRun Dict.empty ops).1.get? p) ∧
      t.size = (mapRun Dict.empty ops).1.size ∧
      (∀ p, p.afi = afi → ∃ r,
        Longest (mapRun Dict.empty ops).1 (fun q => q.Contains p) r ∧ t.lpm p = r.map Prod.snd ∧
          t.lpmEntry p = r.map fun e => (some e.1, some e.2)) ∧
      ∀ addr, addr.length = pfxAddrLen afi → ∃ r,
        Longest (mapRun Dict.empty ops).1 (fun q => q.ContainsAddr afi addr) r ∧
          t.lpmAddr addr = some (r.map Prod.snd) := by
  have hafi₀ : t₀.afi = afi := by
    rw [Trie.new, Option.ite_none_left_eq_some, Option.some.injEq] at hnew
    rw [← hnew.2]
  obtain ⟨t, live, hrun, hafi, h⟩ := (Represents.new hnew).run (hafi₀.symm ▸ hops)
  have hfamily : t.afi = afi := hafi.trans hafi₀
  refine ⟨t, hrun, h.get_eq, h.count, ?_, ?_⟩
  · intro p hp
    exact h.lpm_spec (hp.trans hfamily.symm)
  · intro addr haddr
    rw [← hfamily] at haddr ⊢
    exact h.lpmAddr_spec haddr

/-- `10.0.0.0/8`, and a prefix inside it. -/
def netEight : Prefix := .ipv4 10 0 0 0 8

def netSixteen : Prefix := .ipv4 10 1 0 0 16

/-- The outer prefix is stored above the inner one, and removed again. -/
theorem run_isMap_nested :
    ∃ t₀ t : Trie Nat, Trie.new AFI_IP = some t₀ ∧
      t₀.run [.insert netSixteen 2, .insert netEight 1, .remove netEight] =
        some (t, [none, none, some 1]) ∧
      t.get netSixteen = some 2 ∧ t.get netEight = none ∧ t.size = 1 := by
  have hops : ∀ op ∈ [TrieOp.insert netSixteen 2, .insert netEight 1, .remove netEight],
      op.OfFamily AFI_IP := by
    simp [TrieOp.OfFamily, netSixteen, netEight]
  obtain ⟨t, hrun, hget, hsize, -⟩ := run_isMap rfl _ hops
  exact ⟨_, t, rfl, hrun, (hget netSixteen).trans (by decide),
    (hget netEight).trans (by decide), hsize.trans (by decide)⟩

end Trie

end Packets
