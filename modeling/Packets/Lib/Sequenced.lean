/-
Lists in strictly ascending order of a number each element carries.

Adding an element replaces the one that carries its number.
-/
import Mathlib.Data.List.Basic
import Mathlib.Data.List.Pairwise

namespace Sequenced

universe u

variable {α : Type u} (seq : α → Nat)

/-- Put an element at its place, replacing the one of the same number. -/
def insert (a : α) : List α → List α
  | [] => [a]
  | b :: rest =>
    if seq b = seq a then a :: rest
    else if seq b > seq a then a :: b :: rest
    else b :: insert a rest

def Ascending (l : List α) : Prop := l.Pairwise fun x y => seq x < seq y

variable {seq}

theorem insert_cons (a b : α) (rest : List α) :
    insert seq a (b :: rest) =
      if seq b = seq a then a :: rest
      else if seq b > seq a then a :: b :: rest
      else b :: insert seq a rest :=
  rfl

theorem insert_ne_nil (a : α) (l : List α) : insert seq a l ≠ [] := by
  cases l with
  | nil => simp [insert]
  | cons b rest =>
    rw [insert_cons]
    split
    · simp
    · split <;> simp

theorem mem_insert {a x : α} {l : List α} (h : x ∈ insert seq a l) : x = a ∨ x ∈ l := by
  induction l with
  | nil => simpa [insert] using h
  | cons b rest ih =>
    rw [insert_cons] at h
    split at h
    · exact (List.mem_cons.mp h).imp_right (List.mem_cons_of_mem b)
    · split at h
      · exact List.mem_cons.mp h
      · rcases List.mem_cons.mp h with rfl | hrest
        · exact Or.inr List.mem_cons_self
        · exact (ih hrest).imp_right (List.mem_cons_of_mem b)

theorem Ascending.insert {l : List α} (h : Ascending seq l) (a : α) :
    Ascending seq (insert seq a l) := by
  induction l with
  | nil => exact List.pairwise_singleton _ a
  | cons b rest ih =>
    obtain ⟨hb, hrest⟩ := List.pairwise_cons.mp h
    rw [insert_cons]
    split
    · rename_i heq
      exact List.pairwise_cons.mpr ⟨fun x hx => heq ▸ hb x hx, hrest⟩
    · split
      · rename_i hgt
        refine List.pairwise_cons.mpr ⟨?_, h⟩
        intro x hx
        rcases List.mem_cons.mp hx with rfl | hx
        · exact hgt
        · exact Nat.lt_trans hgt (hb x hx)
      · rename_i hne hle
        refine List.pairwise_cons.mpr ⟨?_, ih hrest⟩
        intro x hx
        rcases mem_insert hx with rfl | hx
        · omega
        · exact hb x hx

theorem insert_of_lt {a : α} {l : List α} (h : ∀ x ∈ l, seq a < seq x) :
    insert seq a l = a :: l := by
  cases l with
  | nil => rfl
  | cons b rest =>
    have hb := h b List.mem_cons_self
    rw [insert_cons, if_neg (by omega), if_pos hb]

/-- Selecting commutes with inserting: an element that is selected goes to its place, and one
that is not only takes the place of the element of its number. -/
theorem filter_insert (p : α → Bool) (a : α) {l : List α} (h : Ascending seq l) :
    (insert seq a l).filter p =
      if p a then insert seq a ((l.filter p).filter fun x => seq x ≠ seq a)
      else (l.filter p).filter fun x => seq x ≠ seq a := by
  induction l with
  | nil => by_cases hp : p a <;> simp [insert, hp]
  | cons b rest ih =>
    obtain ⟨hb, hrest⟩ := List.pairwise_cons.mp h
    have hkeep : ∀ c, seq c ≤ seq b → (rest.filter p).filter (fun x => seq x ≠ seq c) =
        rest.filter p := by
      intro c hc
      apply List.filter_eq_self.mpr
      intro x hx
      have hlt := hb x (List.mem_of_mem_filter hx)
      simp only [ne_eq, decide_eq_true_eq]
      omega
    rw [insert_cons]
    split
    · rename_i heq
      have hrestp := hkeep a (Nat.le_of_eq heq.symm)
      have hlow : ∀ x ∈ rest.filter p, seq a < seq x := fun x hx =>
        heq ▸ hb x (List.mem_of_mem_filter hx)
      have hsame : ((b :: rest).filter p).filter (fun x => seq x ≠ seq a) = rest.filter p := by
        rw [List.filter_cons]
        split
        · rw [List.filter_cons, if_neg (by simp [heq]), hrestp]
        · exact hrestp
      rw [hsame, insert_of_lt hlow, List.filter_cons]
    · split
      · rename_i hne hgt
        have hlow : ∀ x ∈ (b :: rest).filter p, seq a < seq x := by
          intro x hx
          rcases List.mem_cons.mp (List.mem_of_mem_filter hx) with rfl | hx
          · exact hgt
          · exact Nat.lt_trans hgt (hb x hx)
        have hall : ((b :: rest).filter p).filter (fun x => seq x ≠ seq a) =
            (b :: rest).filter p := by
          apply List.filter_eq_self.mpr
          intro x hx
          have hlt := hlow x hx
          simp only [ne_eq, decide_eq_true_eq]
          omega
        rw [hall, insert_of_lt hlow, List.filter_cons]
      · rename_i hne hle
        have hins : ∀ l', insert seq a (b :: l') = b :: insert seq a l' := by
          intro l'
          rw [insert_cons, if_neg hne, if_neg hle]
        rw [List.filter_cons, ih hrest, List.filter_cons]
        by_cases hpb : p b
        · rw [if_pos hpb, if_pos hpb, List.filter_cons,
            if_pos (show decide (seq b ≠ seq a) = true by simp [hne]), hins]
          split <;> rfl
        · rw [if_neg hpb, if_neg hpb]

theorem Ascending.eq_of_seq_eq {a b : α} {l : List α} (h : Ascending seq l)
    (ha : a ∈ l) (hb : b ∈ l) (hseq : seq a = seq b) : a = b := by
  induction l with
  | nil => simp at ha
  | cons c rest ih =>
    obtain ⟨hc, hrest⟩ := List.pairwise_cons.mp h
    rcases List.mem_cons.mp ha with hac | hac <;>
      rcases List.mem_cons.mp hb with hbc | hbc
    · rw [hac, hbc]
    · exact absurd hseq (Nat.ne_of_lt (hac ▸ hc b hbc))
    · exact absurd hseq.symm (Nat.ne_of_lt (hbc ▸ hc a hac))
    · exact ih hrest hac hbc

/-- What an insertion leaves: the element, and those of other numbers. -/
theorem Ascending.mem_insert_iff {a x : α} {l : List α} (h : Ascending seq l) :
    x ∈ Sequenced.insert seq a l ↔ x = a ∨ x ∈ l ∧ seq x ≠ seq a := by
  induction l with
  | nil => simp [Sequenced.insert]
  | cons b rest ih =>
    obtain ⟨hb, hrest⟩ := List.pairwise_cons.mp h
    have hafter : x ∈ rest → seq b < seq x := hb x
    rw [insert_cons]
    split
    · next heq =>
        rw [List.mem_cons, List.mem_cons]
        apply or_congr_right
        constructor
        · intro hx
          have hlt := hafter hx
          exact ⟨Or.inr hx, by omega⟩
        · rintro ⟨rfl | hx, hne⟩
          · exact absurd heq hne
          · exact hx
    · next hne =>
        split
        · next hgt =>
            rw [List.mem_cons]
            apply or_congr_right
            constructor
            · intro hx
              refine ⟨hx, ?_⟩
              rcases List.mem_cons.mp hx with rfl | hx
              · exact hne
              · have hlt := hafter hx
                omega
            · exact And.left
        · rw [List.mem_cons, ih hrest, List.mem_cons]
          constructor
          · rintro (rfl | rfl | ⟨hx, hne'⟩)
            · exact Or.inr ⟨Or.inl rfl, hne⟩
            · exact Or.inl rfl
            · exact Or.inr ⟨Or.inr hx, hne'⟩
          · rintro (rfl | ⟨rfl | hx, hne'⟩)
            · exact Or.inr (Or.inl rfl)
            · exact Or.inl rfl
            · exact Or.inr (Or.inr ⟨hx, hne'⟩)

/-- Removing an element of an ascending list removes what carries its number. -/
theorem Ascending.erase_eq_filter [BEq α] [LawfulBEq α] {a : α} {l : List α} (h : Ascending seq l)
    (ha : a ∈ l) : l.erase a = l.filter fun x => seq x ≠ seq a := by
  induction l with
  | nil => simp at ha
  | cons b rest ih =>
    obtain ⟨hb, hrest⟩ := List.pairwise_cons.mp h
    rcases List.mem_cons.mp ha with rfl | hmem
    · have hkeep : rest.filter (fun x => seq x ≠ seq a) = rest := by
        apply List.filter_eq_self.mpr
        intro x hx
        have hlt := hb x hx
        simp only [ne_eq, decide_eq_true_eq]
        omega
      rw [List.erase_cons_head, List.filter_cons, if_neg (by simp), hkeep]
    · have hlt := hb a hmem
      have hne : (b == a) = false := by
        simp only [beq_eq_false_iff_ne]
        rintro rfl
        omega
      have hkept : decide (seq b ≠ seq a) = true := by
        simp only [ne_eq, decide_eq_true_eq]
        omega
      rw [List.erase_cons_tail (by simp [hne]), List.filter_cons, if_pos hkept, ih hrest hmem]

theorem Ascending.lt_of_getElem? {l : List α} (h : Ascending seq l) {i j : Nat} {a b : α}
    (hij : i < j) (hi : l[i]? = some a) (hj : l[j]? = some b) : seq a < seq b := by
  obtain ⟨hi', rfl⟩ := List.getElem?_eq_some_iff.mp hi
  obtain ⟨hj', rfl⟩ := List.getElem?_eq_some_iff.mp hj
  exact List.pairwise_iff_getElem.mp h i j hi' hj' hij

/-- Where the number of an element is found, inserting it replaces what is there. -/
theorem Ascending.set_eq_insert {l : List α} (h : Ascending seq l) {i : Nat} {a b : α}
    (hi : l[i]? = some b) (hseq : seq b = seq a) : l.set i a = Sequenced.insert seq a l := by
  induction l generalizing i with
  | nil => simp at hi
  | cons c rest ih =>
    obtain ⟨hc, hrest⟩ := List.pairwise_cons.mp h
    rw [insert_cons]
    cases i with
    | zero =>
      have hcb : c = b := by simpa using hi
      rw [if_pos (hcb ▸ hseq), List.set_cons_zero]
    | succ i =>
      rw [List.getElem?_cons_succ] at hi
      have hlt := hc b (List.mem_of_getElem? hi)
      rw [if_neg (by omega), if_neg (by omega), List.set_cons_succ, ih hrest hi]

/-- Between lower and higher numbers, inserting an element puts it there. -/
theorem insertIdx_eq_insert {l : List α} {i : Nat} {a : α} (hi : i ≤ l.length)
    (hlow : ∀ j b, j < i → l[j]? = some b → seq b < seq a)
    (hhigh : ∀ j b, i ≤ j → l[j]? = some b → seq a < seq b) : l.insertIdx i a = insert seq a l := by
  induction l generalizing i with
  | nil =>
    have hzero : i = 0 := by simpa using hi
    rw [hzero]
    rfl
  | cons c rest ih =>
    rw [insert_cons]
    cases i with
    | zero =>
      have hc := hhigh 0 c (Nat.le_refl 0) rfl
      rw [if_neg (by omega), if_pos hc, List.insertIdx_zero]
    | succ i =>
      have hc := hlow 0 c (Nat.succ_pos i) rfl
      rw [if_neg (by omega), if_neg (by omega), List.insertIdx_succ_cons, ih]
      · simpa using hi
      · exact fun j b hj hb => hlow (j + 1) b (Nat.succ_lt_succ hj) hb
      · exact fun j b hj hb => hhigh (j + 1) b (Nat.succ_le_succ hj) hb

/-- Where a number is found, taking out what is there takes out what carries it. -/
theorem Ascending.eraseIdx_eq_filter {l : List α} (h : Ascending seq l) {i : Nat} {b : α}
    (hi : l[i]? = some b) : l.eraseIdx i = l.filter fun x => seq x ≠ seq b := by
  induction l generalizing i with
  | nil => simp at hi
  | cons c rest ih =>
    obtain ⟨hc, hrest⟩ := List.pairwise_cons.mp h
    cases i with
    | zero =>
      have hcb : c = b := by simpa using hi
      have hkeep : rest.filter (fun x => seq x ≠ seq b) = rest := by
        apply List.filter_eq_self.mpr
        intro x hx
        have hlt := hc x hx
        rw [hcb] at hlt
        simp only [ne_eq, decide_eq_true_eq]
        omega
      rw [List.eraseIdx_cons_zero, List.filter_cons, if_neg (by simp [hcb]), hkeep]
    | succ i =>
      rw [List.getElem?_cons_succ] at hi
      have hlt := hc b (List.mem_of_getElem? hi)
      have hkept : decide (seq c ≠ seq b) = true := by
        simp only [ne_eq, decide_eq_true_eq]
        omega
      rw [List.eraseIdx_cons_succ, List.filter_cons, if_pos hkept, ih hrest hi]

/-- Taking out the element of a number leaves those of other numbers. -/
theorem Ascending.eraseP_eq_filter {n : Nat} {l : List α} (h : Ascending seq l) :
    l.eraseP (fun x => seq x = n) = l.filter fun x => seq x ≠ n := by
  induction l with
  | nil => rfl
  | cons b rest ih =>
    obtain ⟨hb, hrest⟩ := List.pairwise_cons.mp h
    by_cases heq : seq b = n
    · have hkeep : rest.filter (fun x => seq x ≠ n) = rest := by
        apply List.filter_eq_self.mpr
        intro x hx
        have hlt := hb x hx
        simp only [ne_eq, decide_eq_true_eq]
        omega
      rw [List.eraseP_cons_of_pos (by simp [heq]), List.filter_cons, if_neg (by simp [heq]), hkeep]
    · rw [List.eraseP_cons_of_neg (by simp [heq]), List.filter_cons, if_pos (by simp [heq]),
        ih hrest]

/-- The first element a test selects is the one of lowest number. -/
theorem Ascending.find?_eq_some_iff {p : α → Bool} {a : α} {l : List α} (h : Ascending seq l) :
    l.find? p = some a ↔ a ∈ l ∧ p a = true ∧ ∀ x ∈ l, seq x < seq a → p x = false := by
  constructor
  · intro hfind
    obtain ⟨hp, before, after, rfl, hbefore⟩ := List.find?_eq_some_iff_append.mp hfind
    refine ⟨by simp, hp, ?_⟩
    intro x hx hlt
    obtain ⟨-, hafter, -⟩ := List.pairwise_append.mp h
    rcases List.mem_append.mp hx with hfront | hback
    · simpa using hbefore x hfront
    · rcases List.mem_cons.mp hback with rfl | htail
      · omega
      · have hgt := (List.pairwise_cons.mp hafter).1 x htail
        omega
  · rintro ⟨hmem, hp, hlow⟩
    cases hfind : l.find? p with
    | none => exact absurd hp (List.find?_eq_none.mp hfind a hmem)
    | some b =>
      obtain ⟨hpb, before, after, rfl, hbefore⟩ := List.find?_eq_some_iff_append.mp hfind
      obtain ⟨-, hafter, hcross⟩ := List.pairwise_append.mp h
      rcases List.mem_append.mp hmem with hfront | hback
      · exact absurd hp (by simpa using hbefore a hfront)
      · rcases List.mem_cons.mp hback with rfl | htail
        · rfl
        · have hgt := (List.pairwise_cons.mp hafter).1 a htail
          have hskip := hlow b (by simp) hgt
          rw [hpb] at hskip
          exact absurd hskip (by simp)

end Sequenced
