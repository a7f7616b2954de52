/-
What holds of a computation that may fail, whichever way it ends: `Ends E x Q` says that a
value satisfies `Q` and an error `E`.
-/

namespace Fallible

universe u v

variable {ε : Type u} {α β : Type v} {E : ε → Prop} {Q : α → Prop}

/-- A value satisfies `Q`, and an error `E`. -/
def Ends (E : ε → Prop) (x : Except ε α) (Q : α → Prop) : Prop :=
  match x with
  | .ok a => Q a
  | .error e => E e

theorem Ends.mono {P : α → Prop} {x : Except ε α} (h : Ends E x P) (himp : ∀ a, P a → Q a) :
    Ends E x Q := by
  cases x with
  | ok a => exact himp a h
  | error e => exact h

theorem Ends.bind {P : α → Prop} {Q : β → Prop} {x : Except ε α} {f : α → Except ε β}
    (h : Ends E x P) (hf : ∀ a, P a → Ends E (f a) Q) : Ends E (x >>= f) Q := by
  cases x with
  | ok a => exact hf a h
  | error e => exact h

theorem Ends.ite {c : Prop} [Decidable c] {x y : Except ε α} (hx : c → Ends E x Q)
    (hy : ¬c → Ends E y Q) : Ends E (if c then x else y) Q := by
  split
  · exact hx ‹c›
  · exact hy ‹¬c›

theorem Ends.of_ok {x : Except ε α} {a : α} (h : Ends E x Q) (hx : x = .ok a) : Q a := by
  subst hx
  exact h

theorem Ends.of_error {x : Except ε α} {e : ε} (h : Ends E x Q) (hx : x = .error e) : E e := by
  subst hx
  exact h

end Fallible
