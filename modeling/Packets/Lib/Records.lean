/-
Reading a byte string record by record.

A reader takes one record off the front of the input or refuses; `readAll` applies it until it
refuses.  The fuel is an upper bound on the number of records.
-/
import Mathlib.Algebra.GroupWithZero.Nat
import Mathlib.Data.List.Basic

namespace Records

universe u v

variable {α : Type u} {β : Type v}

abbrev Reader (α : Type u) (β : Type v) := List β → Option (α × List β)

def readAll (next : Reader α β) : Nat → List β → List α × List β
  | 0, s => ([], s)
  | n + 1, s =>
    match next s with
    | none => ([], s)
    | some (a, rest) =>
      let tail := readAll next n rest
      (a :: tail.1, tail.2)

/-- A reader that shortens its input whenever it succeeds. -/
def Consumes (next : Reader α β) : Prop :=
  ∀ s a rest, next s = some (a, rest) → rest.length < s.length

theorem readAll_none {next : Reader α β} {s : List β} (h : next s = none)
    (n : Nat) : readAll next n s = ([], s) := by
  cases n <;> simp [readAll, h]

/-- With enough fuel, more fuel changes nothing. -/
theorem readAll_fuel {next : Reader α β} (hnext : Consumes next) {n m : Nat} {s : List β}
    (hn : s.length ≤ n) (hm : s.length ≤ m) : readAll next n s = readAll next m s := by
  induction n generalizing s m with
  | zero =>
    have hnone : next s = none := by
      cases hread : next s with
      | none => rfl
      | some out => exact absurd (hnext s out.1 out.2 hread) (by omega)
    rw [readAll_none hnone, readAll_none hnone]
  | succ n ih =>
    cases hread : next s with
    | none => rw [readAll_none hread, readAll_none hread]
    | some out =>
      obtain ⟨a, rest⟩ := out
      have hlt := hnext s a rest hread
      cases m with
      | zero => omega
      | succ m =>
        simp only [readAll, hread]
        rw [ih (m := m) (by omega) (by omega)]

theorem readAll_cons {next : Reader α β} (hnext : Consumes next) {s rest : List β}
    {a : α} (hread : next s = some (a, rest)) :
    readAll next s.length s =
      (a :: (readAll next rest.length rest).1, (readAll next rest.length rest).2) := by
  have hlt := hnext s a rest hread
  cases hs : s.length with
  | zero => omega
  | succ n =>
    simp only [readAll, hread]
    rw [readAll_fuel hnext (n := n) (m := rest.length) (by omega) (Nat.le_refl _)]

theorem readAll_refused {next : Reader α β} (hnext : Consumes next) (s : List β) :
    next (readAll next s.length s).2 = none := by
  induction hn : s.length using Nat.strongRecOn generalizing s with
  | ind n ih =>
    subst hn
    cases hread : next s with
    | none => rw [readAll_none hread]; exact hread
    | some out =>
      obtain ⟨a, rest⟩ := out
      rw [readAll_cons hnext hread]
      exact ih rest.length (hnext s a rest hread) rest rfl

/-- A run of encoded records reads back as the records, in front of what is read behind it. -/
theorem readAll_flatMap_append {next : Reader α β} (hnext : Consumes next) {enc : α → List β}
    {as : List α} (tail : List β) (henc : ∀ a ∈ as, ∀ rest, next (enc a ++ rest) = some (a, rest)) :
    readAll next (as.flatMap enc ++ tail).length (as.flatMap enc ++ tail) =
      (as ++ (readAll next tail.length tail).1, (readAll next tail.length tail).2) := by
  induction as with
  | nil => rfl
  | cons a as ih =>
    have hread : next ((a :: as).flatMap enc ++ tail) = some (a, as.flatMap enc ++ tail) := by
      simpa [List.append_assoc] using henc a List.mem_cons_self (as.flatMap enc ++ tail)
    rw [readAll_cons hnext hread, ih (fun b hb => henc b (List.mem_cons_of_mem a hb))]
    rfl

/-- A run of encoded records, followed by something the reader refuses, reads
back as the records. -/
theorem readAll_flatMap {next : Reader α β} (hnext : Consumes next) {enc : α → List β}
    {as : List α} {tail : List β} (henc : ∀ a ∈ as, ∀ rest, next (enc a ++ rest) = some (a, rest))
    (htail : next tail = none) :
    readAll next (as.flatMap enc ++ tail).length (as.flatMap enc ++ tail) = (as, tail) := by
  rw [readAll_flatMap_append hnext tail henc, readAll_none htail, List.append_nil]

/-- What was read spells the input, when each record spells the bytes it took. -/
theorem readAll_sound (next : Reader α β) (enc : α → List β)
    (hsound : ∀ s a rest, next s = some (a, rest) → s = enc a ++ rest) (n : Nat) (s : List β) :
    s = (readAll next n s).1.flatMap enc ++ (readAll next n s).2 := by
  induction n generalizing s with
  | zero => rfl
  | succ n ih =>
    cases hread : next s with
    | none => rw [readAll_none hread]; rfl
    | some out =>
      obtain ⟨a, rest⟩ := out
      have hhead := hsound s a rest hread
      have htail := ih rest
      simp only [readAll, hread, List.flatMap_cons, List.append_assoc]
      rw [← htail]
      exact hhead

/-- A fact the reader guarantees of one record holds of all of them. -/
theorem readAll_forall (next : Reader α β) (P : α → Prop)
    (hread : ∀ s a rest, next s = some (a, rest) → P a) (n : Nat) (s : List β) :
    ∀ a ∈ (readAll next n s).1, P a := by
  induction n generalizing s with
  | zero => intro a ha; simp [readAll] at ha
  | succ n ih =>
    cases hnext : next s with
    | none => intro a ha; simp [readAll_none hnext] at ha
    | some out =>
      obtain ⟨a, rest⟩ := out
      intro b hb
      simp only [readAll, hnext, List.mem_cons] at hb
      rcases hb with rfl | hb
      · exact hread s b rest hnext
      · exact ih rest b hb

/-- A reader that reads the same records in another form. -/
theorem readAll_map {γ : Type u} {next : Reader α β} {next' : Reader γ β} {f : α → γ}
    (h : ∀ s, next' s = (next s).map (Prod.map f id)) (n : Nat) (s : List β) :
    (readAll next' n s).1 = (readAll next n s).1.map f := by
  induction n generalizing s with
  | zero => rfl
  | succ n ih =>
    have hread := h s
    cases hnext : next s with
    | none =>
      rw [hnext] at hread
      rw [readAll_none hnext, readAll_none hread]
      rfl
    | some out =>
      rw [hnext] at hread
      simp only [readAll, hread, hnext, Option.map_some, Prod.map_fst, Prod.map_snd, id_eq,
        List.map_cons, ih]

/-- A measure that the bytes of every record pay for is paid by the input. -/
theorem sum_readAll_le {next : Reader α β} {measure : α → Nat}
    (h : ∀ s a rest, next s = some (a, rest) → measure a + rest.length ≤ s.length)
    (n : Nat) (s : List β) : ((readAll next n s).1.map measure).sum ≤ s.length := by
  induction n generalizing s with
  | zero => exact Nat.zero_le _
  | succ n ih =>
    cases hnext : next s with
    | none => rw [readAll_none hnext]; exact Nat.zero_le _
    | some out =>
      obtain ⟨a, rest⟩ := out
      have hpaid := h s a rest hnext
      have hrest := ih rest
      simp only [readAll, hnext, List.map_cons, List.sum_cons]
      omega

/-- The reader takes exactly the records a predicate describes: `P e a` says that the
bytes `e` are the record `a`. -/
structure Cuts (next : Reader α β) (P : List β → α → Prop) : Prop where
  sound : ∀ s a rest, next s = some (a, rest) → ∃ e, P e a ∧ s = e ++ rest
  complete : ∀ e a rest, P e a → next (e ++ rest) = some (a, rest)
  nonempty : ∀ e a, P e a → e ≠ []

theorem Cuts.consumes {next : Reader α β} {P : List β → α → Prop} (h : Cuts next P) :
    Consumes next := by
  intro s a rest hread
  obtain ⟨e, he, rfl⟩ := h.sound s a rest hread
  have hpos := List.length_pos_iff.mpr (h.nonempty e a he)
  rw [List.length_append]
  omega

/-- A concatenation of records. -/
inductive Run (P : List β → α → Prop) : List β → List α → Prop where
  | nil : Run P [] []
  | cons {e s : List β} {a : α} {as : List α} (head : P e a) (tail : Run P s as) :
      Run P (e ++ s) (a :: as)

/-- What is read is a run, whatever follows it. -/
theorem Cuts.readAll_run {next : Reader α β} {P : List β → α → Prop} (h : Cuts next P)
    {n : Nat} {s : List β} :
    ∃ front, Run P front (readAll next n s).1 ∧ s = front ++ (readAll next n s).2 := by
  induction n generalizing s with
  | zero => exact ⟨[], .nil, rfl⟩
  | succ n ih =>
    cases hread : next s with
    | none =>
      rw [readAll_none hread]
      exact ⟨[], .nil, rfl⟩
    | some out =>
      obtain ⟨a, rest⟩ := out
      obtain ⟨e, he, rfl⟩ := h.sound s a rest hread
      obtain ⟨front, hfront, hrest⟩ := ih (s := rest)
      simp only [readAll, hread]
      refine ⟨e ++ front, .cons he hfront, ?_⟩
      rw [List.append_assoc, ← hrest]

theorem Cuts.readAll_append {next : Reader α β} {P : List β → α → Prop} (h : Cuts next P)
    {front tail : List β} {as : List α} (hrun : Run P front as) (htail : next tail = none) :
    readAll next (front ++ tail).length (front ++ tail) = (as, tail) := by
  induction hrun with
  | nil => exact readAll_none htail _
  | cons head _ ih => rw [List.append_assoc, readAll_cons h.consumes (h.complete _ _ _ head), ih]

theorem Cuts.next_nil {next : Reader α β} {P : List β → α → Prop} (h : Cuts next P) :
    next [] = none := by
  cases hread : next [] with
  | none => rfl
  | some out => exact absurd (h.consumes [] out.1 out.2 hread) (by simp)

theorem Cuts.readAll_eq_iff {next : Reader α β} {P : List β → α → Prop} (h : Cuts next P)
    {s : List β} {as : List α} : readAll next s.length s = (as, []) ↔ Run P s as := by
  constructor
  · intro heq
    obtain ⟨front, hfront, hs⟩ := h.readAll_run (n := s.length) (s := s)
    rw [heq] at hfront hs
    rw [hs, List.append_nil]
    exact hfront
  · intro hrun
    simpa using h.readAll_append hrun h.next_nil

theorem Run.mem {P : List β → α → Prop} {s : List β} {as : List α} (h : Run P s as)
    {a : α} (ha : a ∈ as) : ∃ e, P e a := by
  induction h with
  | nil => simp at ha
  | cons head _ ih =>
    rcases List.mem_cons.mp ha with rfl | hrest
    · exact ⟨_, head⟩
    · exact ih hrest

end Records
