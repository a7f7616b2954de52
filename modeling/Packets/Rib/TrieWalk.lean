/-
Walking a trie is sorting it.

The iterator visits nodes in pre-order; for masked prefixes that is the order of addresses and
then of lengths.  Never more nodes are on its stack than an address has bits, and one.
-/
import Packets.Lib.Preorder
import Packets.Rib.PrefixOrder
import Packets.Rib.TrieMap

namespace Packets

open LinkedTree

variable {V : Type}

/-- `TrieIterator`.  The stack is an array of fixed size; its top comes first. -/
structure TrieIterator (V : Type) where
  trie : Trie V
  stack : List NodeId
  withValues : Bool

namespace TrieIterator

/-- `cap`: the number of entries of the array. -/
def cap (it : TrieIterator V) : Nat := 2 * (it.trie.abits + 2)

/-- A walk that has not begun. -/
def new (t : Trie V) (withValues : Bool) : TrieIterator V := ⟨t, t.root.toList, withValues⟩

/-- Put a child, if there is one, on the stack.  `none` is a write past the end of the
array. -/
def push (it : TrieIterator V) (n : Option NodeId) : Option (TrieIterator V) :=
  match n with
  | none => some it
  | some n => if it.stack.length < it.cap then some { it with stack := n :: it.stack } else none

/-- What a node yields: its prefix, with the value when values are wanted.  `none` is
the `ValueError` of `pfx_new`. -/
def item (t : Trie V) (withValues : Bool) (n : NodeId) : Option (Prefix × Option V) :=
  (pfxNew t.afi (t.cell n).plen (t.cell n).addr).map fun p =>
    (p, if withValues then t.nodeValue (some n) else none)

/-- `__next__`; without an item it is `StopIteration`.  The outer `none` is an error, or
a loop not finished. -/
def next : Nat → TrieIterator V → Option (TrieIterator V × Option (Prefix × Option V))
  | 0, _ => none
  | fuel + 1, it =>
    match it.stack with
    | [] => some (it, none)
    | n :: rest =>
      let node := it.trie.cell n
      -- The 1 subtree goes on first, so that the 0 subtree comes off first.
      match (push { it with stack := rest } (node.child true)).bind (push · (node.child false)) with
      | none => none
      | some it =>
        if node.isReal then
          (item it.trie it.withValues n).map fun i => (it, some i)
        else next fuel it

/-- The items to the end of a walk, with so many turns for each. -/
def drain (turns : Nat) : Nat → TrieIterator V → Option (List (Prefix × Option V))
  | 0, _ => none
  | fuel + 1, it =>
    match it.next turns with
    | none => none
    | some (_, none) => some []
    | some (it, some item) => (drain turns fuel it).map (item :: ·)

/-- All items of a walk.  It visits no more nodes than were ever allocated. -/
def toList (it : TrieIterator V) : Option (List (Prefix × Option V)) :=
  it.drain (it.trie.heap.next + 1) (it.trie.heap.next + 1)

end TrieIterator

namespace Trie

variable {t : Trie V} {live : Finset NodeId}

/-- The order of nodes by address and then by length. -/
def Before (t : Trie V) (n m : NodeId) : Prop :=
  BigEndian.toNat (t.cell n).addr < BigEndian.toNat (t.cell m).addr ∨
    BigEndian.toNat (t.cell n).addr = BigEndian.toNat (t.cell m).addr ∧
      (t.cell n).plen < (t.cell m).plen

namespace Shaped

theorem length_addr_eq (h : t.Shaped live) {n m : NodeId} (hn : n ∈ live) (hm : m ∈ live) :
    (t.cell n).addr.length = (t.cell m).addr.length := by
  rw [(h.valid n hn).length_addr, (h.valid m hm).length_addr]

theorem before_below (h : t.Shaped live) {n m : NodeId} {b : Bool} (hn : n ∈ live)
    (hm : m ∈ live) (hedge : t.edge n b m) : t.Before n m := by
  obtain ⟨hlt, hagree, -⟩ := hedge
  have hle := toNat_le_of_masked (h.length_addr_eq hn hm) (h.valid n hn).masked hagree
  rcases Nat.lt_or_eq_of_le hle with hless | heq
  · exact Or.inl hless
  · exact Or.inr ⟨heq, hlt⟩

theorem before_beside (h : t.Shaped live) {n m m' : NodeId} (hm : m ∈ live) (hm' : m' ∈ live)
    (hedge : t.edge n false m) (hedge' : t.edge n true m') : t.Before m m' := by
  obtain ⟨-, hagree, hzero⟩ := hedge
  obtain ⟨-, hagree', hone⟩ := hedge'
  exact Or.inl (toNat_lt_of_bit (h.length_addr_eq hm hm') (hagree.symm.trans hagree') hzero hone)

theorem plen_le_abits (h : t.Shaped live) : ∀ n ∈ live, (t.cell n).plen ≤ t.abits :=
  fun n hn => (h.valid n hn).plen_le

end Shaped

/-- The nodes of a trie, in the order of a walk. -/
def walk (t : Trie V) : List NodeId := nodesBelow t.links t.abits t.root

namespace Shaped

theorem mem_walk (h : t.Shaped live) (n : NodeId) : n ∈ t.walk ↔ n ∈ live :=
  h.tree.mem_nodesBelow_root t.edgeRule h.plen_le_abits n

theorem walk_pairwise (h : t.Shaped live) : t.walk.Pairwise t.Before := by
  cases hroot : t.root with
  | none =>
    rw [walk, hroot, nodesBelow, preorder_none]
    exact List.Pairwise.nil
  | some r =>
    rw [walk, hroot]
    apply h.tree.preorder_pairwise t.edgeRule _ _ _ (h.root_live hroot)
    · intro n hn m hm b hedge
      exact h.before_below hn hm hedge
    · intro n _ m hm m' hm' hedge hedge'
      exact h.before_beside hm hm' hedge hedge'

theorem walk_nodup (h : t.Shaped live) : t.walk.Nodup := by
  apply h.walk_pairwise.imp
  rintro n m (hlt | ⟨-, hlt⟩) rfl
  · exact Nat.lt_irrefl _ hlt
  · exact Nat.lt_irrefl _ hlt

theorem length_walk_le (h : t.Shaped live) : t.walk.length ≤ t.heap.next := by
  have hsub : t.walk ⊆ List.range t.heap.next := by
    intro n hn
    exact List.mem_range.mpr (h.allocated n ((h.mem_walk n).mp hn))
  have hle := (h.walk_nodup.subperm hsub).length_le
  rwa [List.length_range] at hle

end Shaped

end Trie

namespace TrieIterator

variable {t : Trie V} {live : Finset NodeId}

/-- A stack of a walk over a trie. -/
abbrev OnWalk (t : Trie V) (live : Finset NodeId) : List NodeId → Prop :=
  Stacked live t.edge fun n => (t.cell n).plen

/-- The nodes still to be visited that hold a value. -/
def ahead (t : Trie V) (stack : List NodeId) : List NodeId :=
  (unvisited t.links t.abits stack).filter fun n => (t.cell n).isReal

/-- Both children find room on the stack. -/
theorem push_children (h : t.Shaped live) {n : NodeId} {rest : List NodeId}
    {withValues : Bool} (hstack : OnWalk t live (n :: rest)) :
    ((⟨t, rest, withValues⟩ : TrieIterator V).push ((t.cell n).child true)).bind
        (push · ((t.cell n).child false)) =
      some ⟨t, expand t.links n rest, withValues⟩ := by
  have hlen := (hstack.expand h.tree t.edgeRule).length_le h.plen_le_abits
  have hcap : ∀ stack, (⟨t, stack, withValues⟩ : TrieIterator V).cap = 2 * (t.abits + 2) :=
    fun _ => rfl
  have hexpand : expand t.links n rest =
      ((t.cell n).child false).toList ++ (((t.cell n).child true).toList ++ rest) := rfl
  rw [hexpand] at hlen ⊢
  cases hfalse : (t.cell n).child false with
  | none =>
    cases htrue : (t.cell n).child true with
    | none => rfl
    | some c =>
      rw [hfalse, htrue] at hlen
      have hroom : rest.length < 2 * (t.abits + 2) := by
        simp at hlen
        omega
      simp [push, hcap, hroom]
  | some c =>
    cases htrue : (t.cell n).child true with
    | none =>
      rw [hfalse, htrue] at hlen
      have hroom : rest.length < 2 * (t.abits + 2) := by
        simp at hlen
        omega
      simp [push, hcap, hroom]
    | some c' =>
      rw [hfalse, htrue] at hlen
      have hroom : rest.length + 1 < 2 * (t.abits + 2) := by
        simp at hlen
        omega
      simp [push, hcap, hroom, Nat.lt_of_succ_lt hroom]

/-- One call gives the item of the next node that holds a value, and leaves the nodes
after it to be visited. -/
theorem next_spec (h : t.Shaped live) (withValues : Bool) {stack : List NodeId}
    (hstack : OnWalk t live stack) {fuel : Nat}
    (hfuel : (unvisited t.links t.abits stack).length < fuel) :
    (ahead t stack = [] ∧ ∃ it, next fuel ⟨t, stack, withValues⟩ = some (it, none)) ∨
      ∃ n stack', ahead t stack = n :: ahead t stack' ∧ OnWalk t live stack' ∧
        (unvisited t.links t.abits stack').length ≤ (unvisited t.links t.abits stack).length ∧
        next fuel ⟨t, stack, withValues⟩ =
          (item t withValues n).map fun i => (⟨t, stack', withValues⟩, some i) := by
  induction fuel generalizing stack with
  | zero => exact absurd hfuel (Nat.not_lt_zero _)
  | succ fuel ih =>
    cases stack with
    | nil => exact Or.inl ⟨rfl, _, rfl⟩
    | cons n rest =>
      have hn := hstack.top_live
      have hvisit := unvisited_cons h.tree t.edgeRule h.plen_le_abits hn rest
      have hexpand := hstack.expand h.tree t.edgeRule
      have hnext : next (fuel + 1) ⟨t, n :: rest, withValues⟩ =
          if (t.cell n).isReal then
            (item t withValues n).map fun i => (⟨t, expand t.links n rest, withValues⟩, some i)
          else next fuel ⟨t, expand t.links n rest, withValues⟩ := by
        simp only [next, push_children h hstack]
      rw [hvisit, List.length_cons] at hfuel
      by_cases hreal : (t.cell n).isReal = true
      · rw [if_pos hreal] at hnext
        refine Or.inr ⟨n, expand t.links n rest, ?_, hexpand, ?_, hnext⟩
        · rw [ahead, hvisit, List.filter_cons, if_pos hreal, ahead]
        · rw [hvisit, List.length_cons]
          exact Nat.le_succ _
      · rw [if_neg hreal] at hnext
        have hahead : ahead t (n :: rest) = ahead t (expand t.links n rest) := by
          rw [ahead, hvisit, List.filter_cons, if_neg hreal, ahead]
        rw [hnext, hahead, hvisit, List.length_cons]
        rcases ih hexpand (Nat.lt_of_succ_lt_succ hfuel) with
          hdone | ⟨m, stack', hm, hstack', hlen, hitem⟩
        · exact Or.inl hdone
        · exact Or.inr ⟨m, stack', hm, hstack', Nat.le_succ_of_le hlen, hitem⟩

/-- The rest of a walk gives the items of the nodes ahead, in order. -/
theorem drain_spec (h : t.Shaped live) {stack : List NodeId} {withValues : Bool}
    (hstack : OnWalk t live stack) {turns fuel : Nat}
    (hturns : (unvisited t.links t.abits stack).length < turns)
    (hfuel : (ahead t stack).length < fuel)
    (hitems : ∀ n ∈ ahead t stack, ∃ i, item t withValues n = some i) :
    drain turns fuel ⟨t, stack, withValues⟩ =
      some ((ahead t stack).filterMap (item t withValues)) := by
  induction fuel generalizing stack with
  | zero => exact absurd hfuel (Nat.not_lt_zero _)
  | succ fuel ih =>
    rw [drain]
    rcases next_spec h withValues hstack hturns with
      ⟨hdone, it, hnext⟩ | ⟨n, stack', hahead, hstack', hlen, hnext⟩
    · rw [hnext, hdone]
      rfl
    · rw [hahead] at hitems hfuel ⊢
      obtain ⟨i, hi⟩ := hitems n List.mem_cons_self
      have hrest := ih hstack' (Nat.lt_of_le_of_lt hlen hturns)
        (Nat.lt_of_succ_lt_succ hfuel) (fun m hm => hitems m (List.mem_cons_of_mem _ hm))
      rw [hnext, hi, List.filterMap_cons, hi]
      simp only [Option.map_some, hrest]

end TrieIterator

namespace Trie

variable {t : Trie V} {live : Finset NodeId} {d : Dict Prefix V}

theorem Before.pfxCmp_neg {n m : NodeId} {p q : Prefix} (h : t.Before n m)
    (hp : NodeOf t live p.addr p.plen n) (hq : NodeOf t live q.addr q.plen m)
    (hafi : p.afi = q.afi) : pfxCmp p q < 0 := by
  rw [Before, hp.addr, hp.plen, hq.addr, hq.plen] at h
  rw [pfxCmp_neg_iff, prefixRank, prefixRank, hafi]
  simp only [List.cons_lt_cons_iff, lt_irrefl, true_and, false_or, Nat.cast_lt, Nat.cast_inj]
  rcases h with hlt | ⟨heq, hlt⟩
  · exact Or.inl hlt
  · exact Or.inr ⟨heq, Or.inl hlt⟩

/-- A node in use yields its prefix, and the value stored under it. -/
theorem Represents.item_eq (h : t.Represents live d) (withValues : Bool) {n : NodeId}
    (hn : n ∈ live) :
    ∃ q : Prefix, q.afi = t.afi ∧ NodeOf t live q.addr q.plen n ∧
      TrieIterator.item t withValues n = some (q, if withValues then d.get? q else none) := by
  have hvalid := h.shaped.valid n hn
  let q : Prefix := ⟨t.afi, (t.cell n).plen, (t.cell n).addr, h.known, hvalid.plen_le,
    hvalid.length_addr, hvalid.masked⟩
  have hnode : NodeOf t live q.addr q.plen n := ⟨hn, rfl, rfl⟩
  refine ⟨q, rfl, hnode, ?_⟩
  have hvalue : t.nodeValue (some n) = d.get? q := h.value_eq rfl hnode
  rw [TrieIterator.item, h.pfxNew_node rfl hnode, Option.map_some, hvalue]

/-- The items are those of the nodes that hold values. -/
theorem Represents.toList_eq (h : t.Represents live d) (withValues : Bool) :
    (TrieIterator.new t withValues).toList =
      some ((t.walk.filter fun n => (t.cell n).isReal).filterMap
        (TrieIterator.item t withValues)) := by
  have hwalk : unvisited t.links t.abits t.root.toList = t.walk := by
    cases hroot : t.root with
    | none =>
      rw [walk, hroot, nodesBelow, preorder_none]
      rfl
    | some r =>
      rw [walk, hroot]
      exact List.flatMap_singleton _ _
  have hstack : TrieIterator.OnWalk t live t.root.toList := by
    cases hroot : t.root with
    | none => exact .nil
    | some r => exact .cons (h.shaped.root_live hroot) .nil
  have hlen := h.shaped.length_walk_le
  have hahead : TrieIterator.ahead t t.root.toList = t.walk.filter fun n => (t.cell n).isReal := by
    rw [TrieIterator.ahead, hwalk]
  have hshort := List.length_filter_le (fun n => (t.cell n).isReal) t.walk
  rw [← hahead]
  apply TrieIterator.drain_spec h.shaped hstack
  · rw [hwalk]
    exact Nat.lt_succ_of_le hlen
  · rw [hahead]
    exact Nat.lt_succ_of_le (Nat.le_trans hshort hlen)
  · intro n hn
    rw [hahead, List.mem_filter, h.shaped.mem_walk] at hn
    obtain ⟨q, -, -, hitem⟩ := h.item_eq withValues hn.1
    exact ⟨_, hitem⟩

/-- A walk yields the entries in strictly ascending order. -/
theorem Represents.toList_spec (h : t.Represents live d) (withValues : Bool) :
    ∃ items, (TrieIterator.new t withValues).toList = some items ∧
      items.Pairwise (fun a b => pfxCmp a.1 b.1 < 0) ∧
      ∀ p v, (p, v) ∈ items ↔ ∃ w, d.get? p = some w ∧ v = if withValues then some w else none := by
  refine ⟨_, h.toList_eq withValues, ?_, ?_⟩
  · have hsorted := h.shaped.walk_pairwise.filter fun n => (t.cell n).isReal
    rw [List.pairwise_filterMap]
    apply hsorted.imp_of_mem
    intro n m hn hm hbefore a ha b hb
    rw [List.mem_filter, h.shaped.mem_walk] at hn hm
    obtain ⟨p, hpafi, hp, hpitem⟩ := h.item_eq withValues hn.1
    obtain ⟨q, hqafi, hq, hqitem⟩ := h.item_eq withValues hm.1
    rw [hpitem, Option.some.injEq] at ha
    rw [hqitem, Option.some.injEq] at hb
    rw [← ha, ← hb]
    exact hbefore.pfxCmp_neg hp hq (hpafi.trans hqafi.symm)
  · intro p v
    rw [List.mem_filterMap]
    constructor
    · rintro ⟨n, hn, hitem⟩
      rw [List.mem_filter, h.shaped.mem_walk] at hn
      obtain ⟨hlive, hreal⟩ := hn
      obtain ⟨q, hqafi, hq, hqitem⟩ := h.item_eq withValues hlive
      rw [hqitem, Option.some.injEq, Prod.mk.injEq] at hitem
      obtain ⟨rfl, rfl⟩ := hitem
      rw [(h.shaped.valid n hlive).real, h.value_eq hqafi hq] at hreal
      obtain ⟨w, hw⟩ := Option.isSome_iff_exists.mp hreal
      exact ⟨w, hw, by rw [hw]⟩
    · rintro ⟨w, hw, rfl⟩
      obtain ⟨hafi, n, hnode, hvalue⟩ := (h.entries p w).mp hw
      have hreal : (t.cell n).isReal = true := by
        rw [(h.shaped.valid n hnode.live).real, hvalue]
        rfl
      obtain ⟨q, hqafi, hq, hqitem⟩ := h.item_eq withValues hnode.live
      have hsame : q = p := by
        have hq' := h.pfxNew_node hqafi hq
        rw [h.pfxNew_node hafi hnode, Option.some.injEq] at hq'
        exact hq'.symm
      refine ⟨n, List.mem_filter.mpr ⟨(h.shaped.mem_walk n).mpr hnode.live, hreal⟩, ?_⟩
      rw [hqitem, hsame, hw]

end Trie

/-- The calls that change a trie, with `None` for a prefix or for a value. -/
inductive TrieCall (V : Type) where
  | insert (p : Option Prefix) (v : Option V)
  | remove (p : Option Prefix)
  | clear

namespace Trie

/-- `insert` with the arguments it refuses before it makes a node. -/
def tryInsert (t : Trie V) (p : Option Prefix) (v : Option V) : Option (Trie V × Option V) :=
  match p with
  | none => none
  | some p =>
    if p.afi ≠ t.afi then none
    else
      match v with
      | none => none
      | some v => t.insert p v

/-- The trie after a call.  One that raises changes nothing. -/
def call (t : Trie V) : TrieCall V → Trie V
  | .insert p v => ((t.tryInsert p v).map Prod.fst).getD t
  | .remove none => t
  | .remove (some p) => (t.remove p).1
  | .clear => t.clear

/-- The tries of a family that calls lead to, and the interning of a prefix of the
family, with which a route table begins. -/
inductive Reachable (afi : Nat) : Trie V → Prop
  | new {t : Trie V} (hnew : Trie.new afi = some t) : Reachable afi t
  | call {t : Trie V} (h : Reachable afi t) (c : TrieCall V) : Reachable afi (t.call c)
  | intern {t : Trie V} (h : Reachable afi t) {p : Prefix} (hafi : p.afi = t.afi) :
      Reachable afi (t.nodeIntern p.addr p.plen).1

variable {t : Trie V} {live : Finset NodeId} {d : Dict Prefix V}

/-- A call is one on a finite map, or none. -/
theorem Represents.call (h : t.Represents live d) (c : TrieCall V) :
    ∃ live' d', (t.call c).Represents live' d' := by
  cases c with
  | insert p v =>
    cases p with
    | none => exact ⟨live, d, h⟩
    | some p =>
      by_cases hafi : p.afi = t.afi
      · simp only [Trie.call, tryInsert, if_neg (not_not_intro hafi)]
        cases v with
        | none => exact ⟨live, d, h⟩
        | some v =>
          obtain ⟨t', live', hinsert, -, h'⟩ := h.insert_spec hafi v
          simp only [hinsert, Option.map_some, Option.getD_some]
          exact ⟨live', _, h'⟩
      · simp only [Trie.call, tryInsert, if_pos hafi]
        exact ⟨live, d, h⟩
  | remove p =>
    cases p with
    | none => exact ⟨live, d, h⟩
    | some p =>
      obtain ⟨-, -, live', h'⟩ := h.remove_spec p
      exact ⟨live', _, h'⟩
  | clear => exact ⟨∅, _, h.clear⟩

theorem Reachable.represents {afi : Nat} {t : Trie V} (h : Reachable afi t) :
    ∃ live d, t.Represents live d := by
  induction h with
  | new hnew => exact ⟨_, _, Represents.new hnew⟩
  | call _ c ih =>
    obtain ⟨live, d, h⟩ := ih
    exact h.call c
  | @intern t _ p hafi ih =>
    obtain ⟨live, d, h⟩ := ih
    obtain ⟨live', hgrown, -⟩ := nodeIntern_grown h.shaped (length_addr_eq hafi)
      p.masked (plen_le_abits hafi)
    exact ⟨live', d, h.grown hgrown⟩

/-- Walking a reachable trie yields the stored prefixes, once and in strictly ascending order,
with their values when wanted, and never finds its stack full. -/
theorem toList_sorted {afi : Nat} {t : Trie V} (h : Reachable afi t) (withValues : Bool) :
    ∃ items, (TrieIterator.new t withValues).toList = some items ∧
      items.Pairwise (fun a b => pfxCmp a.1 b.1 < 0) ∧
      ∀ p v, (p, v) ∈ items ↔ ∃ w, t.get p = some w ∧ v = if withValues then some w else none := by
  obtain ⟨live, d, hrep⟩ := h.represents
  simp only [hrep.get_eq]
  exact hrep.toList_spec withValues

/-- The inner prefix is stored first and comes last. -/
theorem toList_sorted_nested :
    ∃ t : Trie Nat, t.get netSixteen = some 2 ∧
      ∃ items, (TrieIterator.new t false).toList = some items ∧
        items.Pairwise (fun a b => pfxCmp a.1 b.1 < 0) ∧
        ∀ p v, (p, v) ∈ items ↔ ∃ w, t.get p = some w ∧ v = if false then some w else none := by
  let t : Trie Nat := ((⟨AFI_IP, none, ⟨0, fun _ => .blank [] 0⟩, 0, 0⟩ : Trie Nat).call
    (.insert (some netSixteen) (some 2))).call (.insert (some netEight) (some 1))
  have hreach : Reachable AFI_IP t := .call (.call (.new rfl) _) _
  exact ⟨t, by decide +kernel, toList_sorted hreach false⟩

end Trie

end Packets
