/-
The trie keeps no dead nodes.

A node earns its place by a value or by two subtrees to hold apart; pruning goes up as far as
nodes are left without need.
-/
import Packets.Rib.TrieWalk

namespace Packets

open LinkedTree

variable {V : Type}

namespace Trie

variable {t t' : Trie V} {live live' : Finset NodeId} {d : Dict Prefix V}

/-- A node holds a value, or two subtrees apart. -/
def Needed (t : Trie V) (n : NodeId) : Prop :=
  (t.cell n).isReal = true ∨ ∀ b, ((t.cell n).child b).isSome = true

/-- The nodes in use are counted, and all but one of them needed. -/
structure TidyBut (t : Trie V) (live : Finset NodeId) (n : Option NodeId) : Prop where
  nodes : t.nodes = live.card
  needed : ∀ m ∈ live, n ≠ some m → t.Needed m

theorem TidyBut.all {n : NodeId} (h : t.TidyBut live (some n)) (hn : t.Needed n) :
    t.TidyBut live none where
  nodes := h.nodes
  needed m hm _ := by
    by_cases heq : n = m
    · exact heq ▸ hn
    · exact h.needed m hm fun hsome => heq (Option.some.inj hsome)

theorem Interned.tidy {addr : Bytes} {plen : Nat} {n : NodeId}
    (h : Interned t t' live live' addr plen n) (hshape : t.Shaped live)
    (htidy : t.TidyBut live none) : t'.TidyBut live' (some n) := by
  constructor
  · have hnodes := h.nodes
    have hcount := htidy.nodes
    omega
  · intro m hm hne
    by_cases hold : m ∈ live
    · rcases htidy.needed m hold (by simp) with hreal | hboth
      · apply Or.inl
        have hreal' := (h.grown.shaped.valid m hm).real
        rw [hreal', h.grown.value m hold, ← (hshape.valid m hold).real]
        exact hreal
      · exact Or.inr fun b => h.kept m hold b (hboth b)
    · exact Or.inr (h.held m hm hold fun heq => hne (congrArg some heq.symm))

theorem setValue_tidy {n : NodeId} (v : V) (htidy : t.TidyBut live (some n)) :
    (t.setValue n v).TidyBut live none := by
  have hcell : ∀ m, (t.setValue n v).cell m =
      if m = n then { t.cell n with value := some v, isReal := true } else t.cell m :=
    fun _ => rfl
  have hn : (t.setValue n v).Needed n := by
    apply Or.inl
    rw [hcell, if_pos rfl]
  apply TidyBut.all _ hn
  refine ⟨htidy.nodes, fun m hm hne => ?_⟩
  have hmn : m ≠ n := fun heq => hne (congrArg some heq.symm)
  rw [Needed, hcell, if_neg hmn]
  exact htidy.needed m hm hne

theorem nodes_unlink (t : Trie V) (n : NodeId) (child : Option NodeId) :
    (t.unlink n child).nodes = t.nodes - 1 := by
  have hadopt : ∀ parent, (t.adopt child parent).nodes = t.nodes := by
    intro parent
    cases child <;> rfl
  have hreplace : ∀ (t : Trie V) (parent : Option NodeId),
      (t.replace n parent child).nodes = t.nodes := by
    intro t parent
    cases parent <;> rfl
  rw [unlink, hreplace, hadopt]

/-- A node given up leaves at most its parent without need, and that only when it had no
child. -/
theorem unlink_tidy (h : t.Shaped live) {n : NodeId} (hn : n ∈ live)
    (htidy : t.TidyBut live (some n)) (child : Option NodeId) :
    (t.unlink n child).TidyBut (live.erase n)
      (if child.isSome then none else (t.cell n).parent) := by
  obtain ⟨slot, huse, hslot⟩ := h.tree.up n hn
  have hrel := t.relinked_unlink n child
  have hparent : (t.cell n).parent = slot.owner := (h.tree.down slot huse n hslot).2.1
  have hchild : ∀ m b, ((t.unlink n child).cell m).child b =
      (t.links.cut slot child).target (some (m, b)) := by
    intro m b
    rw [← links_unlink h huse hslot]
    rfl
  constructor
  · rw [nodes_unlink, htidy.nodes, Finset.card_erase_of_mem hn]
  · intro m hm hne
    obtain ⟨hmn, hlive⟩ := Finset.mem_erase.mp hm
    rcases htidy.needed m hlive (fun heq => hmn (Option.some.inj heq).symm) with hreal | hboth
    · apply Or.inl
      rw [hrel.isReal]
      exact hreal
    · apply Or.inr
      intro b
      rw [hchild]
      by_cases hs : some (m, b) = slot
      · rw [hs, Links.cut, Links.target_put_self]
        cases child with
        | some c => rfl
        | none =>
          have howner : (t.cell n).parent = some m := by
            rw [hparent, ← hs]
            rfl
          exact absurd howner hne
      · rw [Links.cut, Links.target_put_of_ne _ hs, Links.target_adopt]
        exact hboth b

/-- Pruning ends at a node that is needed, or past the root. -/
theorem prune_tidy (h : t.Shaped live) (fuel : Nat) {n : Option NodeId}
    (hn : ∀ m, n = some m → m ∈ live ∧ (t.cell m).plen < fuel) (htidy : t.TidyBut live n) :
    ∃ live', (prune fuel t n).Shaped live' ∧ (prune fuel t n).TidyBut live' none := by
  induction fuel generalizing t live n with
  | zero =>
    cases n with
    | none => exact ⟨live, h, htidy⟩
    | some m => exact absurd (hn m rfl).2 (Nat.not_lt_zero _)
  | succ fuel ih =>
    cases n with
    | none => exact ⟨live, h, htidy⟩
    | some m =>
      obtain ⟨hm, hlt⟩ := hn m rfl
      rw [prune]
      by_cases hreal : (t.cell m).isReal = true
      · rw [if_pos hreal]
        exact ⟨live, h, htidy.all (Or.inl hreal)⟩
      · rw [if_neg hreal]
        by_cases hboth : ((t.cell m).child false).isSome = true ∧
            ((t.cell m).child true).isSome = true
        · rw [if_pos hboth]
          refine ⟨live, h, htidy.all (Or.inr fun b => ?_)⟩
          cases b with
          | false => exact hboth.1
          | true => exact hboth.2
        · rw [if_neg hboth]
          rw [Bool.not_eq_true] at hreal
          have hpruned := unlink_pruned h hm hreal hboth
          have htidy' := unlink_tidy h hm htidy
            (((t.cell m).child false).or ((t.cell m).child true))
          dsimp only
          split
          · rename_i hsome
            rw [if_pos hsome] at htidy'
            exact ⟨_, hpruned.shaped, htidy'⟩
          · rename_i hnone
            rw [if_neg hnone] at htidy'
            apply ih hpruned.shaped _ htidy'
            intro p hp
            obtain ⟨hlive, hshorter⟩ := h.parent_spec hm hp
            refine ⟨hlive, ?_⟩
            rw [hpruned.relinked.plen]
            exact Nat.lt_of_lt_of_le hshorter (Nat.le_of_lt_succ hlt)

theorem clearValue_tidy (h : t.Shaped live) {n : NodeId} (hn : n ∈ live)
    (htidy : t.TidyBut live none) :
    ∃ live', (t.clearValue n).Shaped live' ∧ (t.clearValue n).TidyBut live' none := by
  rw [clearValue]
  by_cases hempty : (t.cell n).value.isNone = true
  · rw [if_pos hempty]
    exact ⟨live, h, htidy⟩
  · rw [if_neg hempty]
    have hshape := withCount_shaped (withValue_shaped h n none) (t.count - 1)
    have hcell : ∀ m, ((t.withValue n none).withCount (t.count - 1)).cell m =
        if m = n then { t.cell n with value := none, isReal := false } else t.cell m :=
      fun _ => rfl
    apply prune_tidy hshape
    · intro m hm
      rw [← Option.some.inj hm]
      exact ⟨hn, Nat.lt_succ_of_le (hshape.valid n hn).plen_le⟩
    · refine ⟨htidy.nodes, fun m hm hne => ?_⟩
      have hmn : m ≠ n := fun heq => hne (congrArg some heq.symm)
      rw [Needed, hcell, if_neg hmn]
      exact htidy.needed m hm (by simp)

/-- A trie that is in shape, means a dictionary and has no dead nodes. -/
structure Clean (t : Trie V) : Prop where
  tidy : ∃ live, t.Shaped live ∧ t.TidyBut live none
  represents : ∃ live d, t.Represents live d

theorem Shaped.unique (h : t.Shaped live) (h' : t.Shaped live') : live = live' := by
  ext n
  rw [← h.mem_walk, h'.mem_walk]

theorem Clean.both (h : t.Clean) : ∃ live d, t.Represents live d ∧ t.TidyBut live none := by
  obtain ⟨live, hshape, htidy⟩ := h.tidy
  obtain ⟨live', d, hrep⟩ := h.represents
  have heq := hshape.unique hrep.shaped
  exact ⟨live', d, hrep, heq ▸ htidy⟩

theorem Clean.new {afi : Nat} (hnew : Trie.new afi = some t) : t.Clean := by
  have hrep := Represents.new hnew
  rw [Trie.new, Option.ite_none_left_eq_some, Option.some.injEq] at hnew
  refine ⟨⟨∅, hrep.shaped, ?_, fun m hm => absurd hm (Finset.notMem_empty m)⟩, _, _, hrep⟩
  rw [← hnew.2]
  rfl

theorem Clean.insert (h : t.Clean) {p : Prefix} (hafi : p.afi = t.afi) (v : V) :
    ∃ t' reply, t.insert p v = some (t', reply) ∧ t'.Clean := by
  obtain ⟨live, d, hrep, htidy⟩ := h.both
  obtain ⟨t', live', hinsert, -, hrep'⟩ := hrep.insert_spec hafi v
  obtain ⟨mid, hnew⟩ := nodeIntern_interned hrep.shaped (length_addr_eq hafi) p.masked
    (plen_le_abits hafi)
  refine ⟨t', _, hinsert, ⟨mid, ?_⟩, live', _, hrep'⟩
  have ht' : t' = (t.nodeIntern p.addr p.plen).1.setValue (t.nodeIntern p.addr p.plen).2 v := by
    rw [Trie.insert, if_neg (not_not_intro hafi), Option.some.injEq, Prod.mk.injEq] at hinsert
    exact hinsert.1.symm
  rw [ht']
  refine ⟨?_, setValue_tidy v (hnew.tidy hrep.shaped htidy)⟩
  rw [setValue_eq]
  exact withCount_shaped (withValue_shaped hnew.grown.shaped _ _) _

theorem Clean.remove (h : t.Clean) (p : Prefix) : (t.remove p).1.Clean := by
  obtain ⟨live, d, hrep, htidy⟩ := h.both
  obtain ⟨-, -, live', hrep'⟩ := hrep.remove_spec p
  refine ⟨?_, live', _, hrep'⟩
  rw [Trie.remove]
  by_cases hafi : p.afi = t.afi
  · rw [if_neg (not_not_intro hafi)]
    cases hexact : t.nodeExact p.addr p.plen with
    | none => exact ⟨live, hrep.shaped, htidy⟩
    | some n =>
      have hnode := ((hrep.nodeExact_eq hafi).2 n hexact).1
      exact clearValue_tidy hrep.shaped hnode.live htidy
  · rw [if_pos hafi]
    exact ⟨live, hrep.shaped, htidy⟩

theorem Clean.call (h : t.Clean) (c : TrieCall V) : (t.call c).Clean := by
  cases c with
  | insert p v =>
    cases p with
    | none => exact h
    | some p =>
      by_cases hafi : p.afi = t.afi
      · simp only [Trie.call, tryInsert, if_neg (not_not_intro hafi)]
        cases v with
        | none => exact h
        | some v =>
          obtain ⟨t', reply, hinsert, hclean⟩ := h.insert hafi v
          simp only [hinsert, Option.map_some, Option.getD_some]
          exact hclean
      · simp only [Trie.call, tryInsert, if_pos hafi]
        exact h
  | remove p =>
    cases p with
    | none => exact h
    | some p => exact h.remove p
  | clear =>
    obtain ⟨live, d, hrep, -⟩ := h.both
    have hclear := hrep.clear
    exact ⟨⟨∅, hclear.shaped, rfl, fun m hm => absurd hm (Finset.notMem_empty m)⟩, ∅, _, hclear⟩

theorem Clean.calls (h : t.Clean) (cs : List (TrieCall V)) : (cs.foldl Trie.call t).Clean := by
  induction cs generalizing t with
  | nil => exact h
  | cons c cs ih => exact ih (h.call c)

/-- The nodes that the root's links lead to. -/
inductive Linked (t : Trie V) : NodeId → Prop
  | root {n : NodeId} (hroot : t.root = some n) : Linked t n
  | child {p n : NodeId} {b : Bool} (hp : Linked t p) (hn : (t.cell p).child b = some n) :
      Linked t n

theorem Shaped.linked_iff (h : t.Shaped live) (n : NodeId) : t.Linked n ↔ n ∈ live := by
  constructor
  · intro hlinked
    induction hlinked with
    | root hroot => exact h.root_live hroot
    | child _ hn ih => exact h.child_live ih hn
  · intro hn
    -- A node's slot is the root, or belongs to a node of a shorter prefix.
    induction hk : (t.cell n).plen using Nat.strongRecOn generalizing n with
    | ind k ih =>
      obtain ⟨slot, huse, hslot⟩ := h.tree.up n hn
      cases slot with
      | none => exact .root hslot
      | some place =>
        obtain ⟨p, b⟩ := place
        have hp := huse p b rfl
        have hlt : (t.cell p).plen < (t.cell n).plen := (h.tree.child_spec hp hslot).2.2.1
        exact .child (ih _ (hk ▸ hlt) p hp rfl) hslot

theorem Shaped.length_walk (h : t.Shaped live) : t.walk.length = live.card := by
  rw [← List.toFinset_card_of_nodup h.walk_nodup]
  congr 1
  ext n
  rw [List.mem_toFinset, h.mem_walk]

/-- The entries are counted by the nodes that hold a value. -/
theorem Represents.length_real (h : t.Represents live d) :
    (t.walk.filter fun n => (t.cell n).isReal).length = t.count := by
  obtain ⟨items, hitems, hsorted, hmem⟩ := h.toList_spec false
  rw [h.toList_eq, Option.some.injEq] at hitems
  have hlen : items.length = (t.walk.filter fun n => (t.cell n).isReal).length := by
    rw [← hitems, List.filterMap_length_eq_length]
    intro n hn
    obtain ⟨q, -, -, hitem⟩ := h.item_eq false ((h.shaped.mem_walk n).mp (List.mem_filter.mp hn).1)
    rw [hitem]
    rfl
  have hnodup : (items.map Prod.fst).Nodup := by
    rw [List.Nodup, List.pairwise_map]
    apply hsorted.imp
    intro a b hlt heq
    rw [heq, pfxCmp_neg_iff] at hlt
    exact lt_irrefl _ hlt
  have hperm : (items.map Prod.fst).Perm d.keys := by
    apply (List.perm_ext_iff_of_nodup hnodup d.nodup).mpr
    intro p
    change _ ↔ p ∈ d.keys
    rw [List.mem_map, Dict.mem_keys_iff]
    constructor
    · rintro ⟨⟨q, v⟩, hin, rfl⟩
      obtain ⟨w, hw, -⟩ := (hmem q v).mp hin
      exact ⟨w, hw⟩
    · rintro ⟨w, hw⟩
      exact ⟨(p, _), (hmem p _).mpr ⟨w, hw, rfl⟩, rfl⟩
  have hkeys : items.length = d.keys.length := by rw [← hperm.length_eq, List.length_map]
  rw [← hlen, h.count, hkeys, Dict.keys, List.length_map, Dict.size]

/-- Every node without a value has both children; nodes and entries counted are those linked;
and an empty trie has no nodes, another fewer than two for each entry. -/
structure NoDeadNodes (t : Trie V) : Prop where
  glue : ∀ n, t.Linked n → (t.cell n).isReal = false → ∀ b, ((t.cell n).child b).isSome = true
  counted : ∃ nodes : List NodeId, nodes.Nodup ∧ (∀ n, n ∈ nodes ↔ t.Linked n) ∧
    nodes.length = t.nodes ∧ (nodes.filter fun n => (t.cell n).isReal).length = t.count
  empty : t.count = 0 → t.nodes = 0
  few : 0 < t.count → t.nodes ≤ 2 * t.count - 1

theorem Clean.nodes_lt (h : t.Clean) : t.nodes = 0 ∧ t.count = 0 ∨ t.nodes < 2 * t.count := by
  obtain ⟨live, d, hrep, htidy⟩ := h.both
  have hshape := hrep.shaped
  have hnodes : t.walk.length = t.nodes := by rw [htidy.nodes, hshape.length_walk]
  have hreal := hrep.length_real
  cases hroot : t.root with
  | none =>
    have hempty : t.walk = [] := by rw [walk, hroot, nodesBelow, preorder_none]
    rw [hempty] at hnodes hreal
    exact Or.inl ⟨hnodes.symm, hreal.symm⟩
  | some r =>
    have hlt := hshape.tree.length_preorder_lt t.edgeRule hshape.plen_le_abits
      (fun n => (t.cell n).isReal) (fun n hn => htidy.needed n hn (by simp))
      (hshape.root_live hroot) (Nat.lt_add_right _ (Nat.lt_succ_self t.abits))
    have hwalk : t.walk = preorder t.links (t.abits + 1) (some r) := by
      rw [walk, hroot]
      rfl
    rw [← hwalk, hnodes, hreal] at hlt
    exact Or.inr hlt

theorem Clean.noDeadNodes (h : t.Clean) : t.NoDeadNodes := by
  obtain ⟨live, d, hrep, htidy⟩ := h.both
  have hshape := hrep.shaped
  have hfew := h.nodes_lt
  constructor
  · intro n hn hglue
    rcases htidy.needed n ((hshape.linked_iff n).mp hn) (by simp) with hvalue | hboth
    · rw [hglue] at hvalue
      exact absurd hvalue Bool.false_ne_true
    · exact hboth
  · refine ⟨t.walk, hshape.walk_nodup, fun n => ?_, ?_, hrep.length_real⟩
    · rw [hshape.mem_walk, hshape.linked_iff]
    · rw [htidy.nodes, hshape.length_walk]
  · omega
  · omega

/-- After any calls, accepted or refused, a trie has no dead nodes. -/
theorem calls_noDeadNodes {afi : Nat} {t₀ : Trie V} (hnew : Trie.new afi = some t₀)
    (cs : List (TrieCall V)) : (cs.foldl Trie.call t₀).NoDeadNodes :=
  ((Clean.new hnew).calls cs).noDeadNodes

/-- Beside `10.1.0.0/16`. -/
def netBeside : Prefix := .ipv4 10 2 0 0 16

/-- Two prefixes are held apart by a third node; an insertion refused leaves none. -/
def besideCalls : List (TrieCall Nat) :=
  [.insert (some netSixteen) (some 1), .insert (some netBeside) (some 2),
    .insert (some netEight) none]

theorem calls_noDeadNodes_beside :
    ∃ t₀ : Trie Nat, Trie.new AFI_IP = some t₀ ∧ (besideCalls.foldl Trie.call t₀).nodes = 3 ∧
      (besideCalls.foldl Trie.call t₀).count = 2 ∧
      (besideCalls.foldl Trie.call t₀).NoDeadNodes := by
  have hnew : Trie.new AFI_IP =
      some (⟨AFI_IP, none, ⟨0, fun _ => .blank [] 0⟩, 0, 0⟩ : Trie Nat) := rfl
  exact ⟨_, hnew, by decide +kernel, by decide +kernel, calls_noDeadNodes hnew besideCalls⟩

end Trie

end Packets
