/-
Computations over a state that outlives what they raise, and relations between two of them:
one goes on where the other stops, or both do the same as long as the state stays good.
-/
import Mathlib.Data.List.Basic

universe u

/-- A result or an error, with the state that is left. -/
def Tracked (S E α : Type) : Type := S → Except E α × S

namespace Tracked

variable {S E α β : Type}

instance : Monad (Tracked S E) where
  pure a := fun s => (.ok a, s)
  bind x f := fun s =>
    match x s with
    | (.ok a, s') => f a s'
    | (.error e, s') => (.error e, s')

def raise (e : E) : Tracked S E α := fun s => (.error e, s)

def get (f : S → α) : Tracked S E α := fun s => (.ok (f s), s)

def modify (f : S → S) : Tracked S E Unit := fun s => (.ok (), f s)

/-- The same, so many times. -/
def times (x : Tracked S E α) : Nat → Tracked S E (List α)
  | 0 => pure []
  | n + 1 => do
    let first ← x
    let rest ← times x n
    pure (first :: rest)

variable {x y : Tracked S E α} {f g : α → Tracked S E β} {s t : S} {e : E}

@[simp] theorem pure_apply (a : α) (s : S) : (pure a : Tracked S E α) s = (.ok a, s) := rfl

@[simp] theorem raise_apply (e : E) (s : S) : (raise e : Tracked S E α) s = (.error e, s) := rfl

@[simp] theorem get_apply (f : S → α) (s : S) : (get f : Tracked S E α) s = (.ok (f s), s) := rfl

@[simp] theorem modify_apply (f : S → S) (s : S) :
    (modify f : Tracked S E Unit) s = (.ok (), f s) := rfl

theorem bind_apply (x : Tracked S E α) (f : α → Tracked S E β) (s : S) :
    (x >>= f) s = match x s with
      | (.ok a, s') => f a s'
      | (.error e, s') => (.error e, s') := rfl

theorem bind_of_ok {a : α} (h : x s = (.ok a, t)) : (x >>= f) s = f a t := by rw [bind_apply, h]

theorem bind_of_error (h : x s = (.error e, t)) : (x >>= f) s = (.error e, t) := by
  rw [bind_apply, h]

@[simp] theorem get_bind {γ : Type} (h : S → γ) (k : γ → Tracked S E β) (s : S) :
    (get h >>= k) s = k (h s) s := rfl

@[simp] theorem modify_bind (h : S → S) (k : Unit → Tracked S E β) (s : S) :
    (modify h >>= k) s = k () (h s) := rfl

@[simp] theorem pure_bind_apply (a : α) (f : α → Tracked S E β) (s : S) :
    (pure a >>= f) s = f a s := rfl

theorem bind_eq_ok_iff {b : β} :
    (x >>= f) s = (.ok b, t) ↔ ∃ a s', x s = (.ok a, s') ∧ f a s' = (.ok b, t) := by
  rw [bind_apply]
  rcases hx : x s with ⟨e | a, s'⟩
  · simp
  · simp

theorem times_succ_eq_ok_iff {n : Nat} {all : List α} :
    times x (n + 1) s = (.ok all, t) ↔
      ∃ first rest s', x s = (.ok first, s') ∧ times x n s' = (.ok rest, t) ∧
        all = first :: rest := by
  rw [times, bind_eq_ok_iff]
  constructor
  · rintro ⟨first, s', hfirst, hrest⟩
    obtain ⟨rest, s'', hrest, hpure⟩ := bind_eq_ok_iff.mp hrest
    cases hpure
    exact ⟨first, rest, s', hfirst, hrest, rfl⟩
  · rintro ⟨first, rest, s', hfirst, hrest, rfl⟩
    exact ⟨first, s', hfirst, bind_eq_ok_iff.mpr ⟨rest, t, hrest, rfl⟩⟩

theorem length_of_times {n : Nat} {all : List α} (h : times x n s = (.ok all, t)) :
    all.length = n := by
  induction n generalizing s all with
  | zero =>
    cases h
    rfl
  | succ n ih =>
    obtain ⟨first, rest, s', -, hrest, rfl⟩ := times_succ_eq_ok_iff.mp h
    rw [List.length_cons, ih hrest]

/-- So many times and so many more. -/
theorem times_add_eq_ok_iff {m n : Nat} {all : List α} :
    times x (m + n) s = (.ok all, t) ↔
      ∃ front back s', times x m s = (.ok front, s') ∧ times x n s' = (.ok back, t) ∧
        all = front ++ back := by
  induction m generalizing s all with
  | zero =>
    rw [Nat.zero_add]
    constructor
    · intro h
      exact ⟨[], all, s, rfl, h, rfl⟩
    · rintro ⟨front, back, s', hfront, hback, rfl⟩
      cases hfront
      exact hback
  | succ m ih =>
    rw [Nat.add_right_comm, times_succ_eq_ok_iff]
    constructor
    · rintro ⟨first, rest, s', hfirst, hrest, rfl⟩
      obtain ⟨front, back, s'', hfront, hback, rfl⟩ := ih.mp hrest
      exact ⟨first :: front, back, s'',
        times_succ_eq_ok_iff.mpr ⟨first, front, s', hfirst, hfront, rfl⟩, hback, rfl⟩
    · rintro ⟨front, back, s'', hfront, hback, rfl⟩
      obtain ⟨first, rest, s', hfirst, hrest, rfl⟩ := times_succ_eq_ok_iff.mp hfront
      exact ⟨first, rest ++ back, s', hfirst, ih.mpr ⟨rest, back, s'', hrest, hback, rfl⟩, rfl⟩

/-- A relation that holds of two computations when it holds of their steps. -/
structure Congruent (R : ∀ {α : Type}, Tracked S E α → Tracked S E α → Prop) : Prop where
  pure : ∀ {α : Type} (a : α), R (pure a) (pure a)
  get : ∀ {α : Type} (h : S → α), R (get h) (get h)
  bind : ∀ {α β : Type} {x y : Tracked S E α} {f g : α → Tracked S E β},
    R x y → (∀ a, R (f a) (g a)) → R (x >>= f) (y >>= g)

theorem Congruent.times {R : ∀ {α : Type}, Tracked S E α → Tracked S E α → Prop}
    (hR : Congruent @R) (h : R x y) (n : Nat) : R (x.times n) (y.times n) := by
  induction n with
  | zero => exact hR.pure []
  | succ n ih => exact hR.bind h fun _ => hR.bind ih fun _ => hR.pure _

/-- `e` is never raised. -/
def Never (e : E) (x : Tracked S E α) : Prop := ∀ s, (x s).1 ≠ .error e

theorem Never.bind (hx : Never e x) (hf : ∀ a, Never e (f a)) : Never e (x >>= f) := by
  intro s
  rw [bind_apply]
  rcases hrun : x s with ⟨e' | a, s'⟩
  · have hother := hx s
    rw [hrun] at hother
    exact fun h => hother (by cases h; rfl)
  · exact hf a s'

theorem congruent_never (e : E) : Congruent (S := S) fun x _ => Never e x where
  pure a := fun s h => by cases h
  get f := fun s h => by cases h
  bind := Never.bind

/-- Unless `x` raises `e`, `y` does the same. -/
def Extends (e : E) (x y : Tracked S E α) : Prop := ∀ s, (x s).1 ≠ .error e → y s = x s

theorem Extends.rfl : Extends e x x := fun _ _ => Eq.refl _

theorem extends_raise (e : E) (y : Tracked S E α) : Extends e (raise e) y :=
  fun _ h => absurd (Eq.refl _) h

theorem Extends.bind (hx : Extends e x y) (hf : ∀ a, Extends e (f a) (g a)) :
    Extends e (x >>= f) (y >>= g) := by
  intro s h
  rw [bind_apply] at h ⊢
  rw [bind_apply]
  rcases hrun : x s with ⟨e' | a, s'⟩
  · rw [hrun] at h
    have hne : (x s).1 ≠ .error e := by
      rw [hrun]
      exact fun heq => h (by cases heq; exact Eq.refl _)
    rw [hx s hne, hrun]
  · rw [hrun] at h
    have hne : (x s).1 ≠ .error e := by
      rw [hrun]
      exact fun heq => by cases heq
    rw [hx s hne, hrun]
    exact hf a s' h

theorem congruent_extends (e : E) : Congruent (S := S) (Extends e) where
  pure _ := Extends.rfl
  get _ := Extends.rfl
  bind := Extends.bind

/-- A state that is good afterwards was good before. -/
def Grows (good : S → Prop) (x : Tracked S E α) : Prop := ∀ s, good (x s).2 → good s

variable {good : S → Prop}

theorem Grows.bind (hx : Grows good x) (hf : ∀ a, Grows good (f a)) : Grows good (x >>= f) := by
  intro s h
  rw [bind_apply] at h
  rcases hrun : x s with ⟨e' | a, s'⟩
  · rw [hrun] at h
    exact hx s (by rw [hrun]; exact h)
  · rw [hrun] at h
    exact hx s (by rw [hrun]; exact hf a s' h)

/-- The two do the same if either leaves a good state, and a good state was good before. -/
structure Agrees (good : S → Prop) (x y : Tracked S E α) : Prop where
  same : ∀ s, good (x s).2 ∨ good (y s).2 → x s = y s
  left : Grows good x
  right : Grows good y

theorem Agrees.rfl (h : Grows good x) : Agrees good x x := ⟨fun _ _ => Eq.refl _, h, h⟩

theorem Agrees.bind (hx : Agrees good x y) (hf : ∀ a, Agrees good (f a) (g a)) :
    Agrees good (x >>= f) (y >>= g) := by
  refine ⟨?_, hx.left.bind fun a => (hf a).left, hx.right.bind fun a => (hf a).right⟩
  intro s h
  have hsame : x s = y s := by
    apply hx.same s
    simp only [bind_apply] at h
    rcases h with h | h
    · left
      rcases hrun : x s with ⟨e' | a, s'⟩
      · rwa [hrun] at h
      · rw [hrun] at h
        exact (hf a).left s' h
    · right
      rcases hrun : y s with ⟨e' | a, s'⟩
      · rwa [hrun] at h
      · rw [hrun] at h
        exact (hf a).right s' h
  simp only [bind_apply, ← hsame] at h ⊢
  rcases hrun : x s with ⟨e' | a, s'⟩
  · exact Eq.refl _
  · rw [hrun] at h
    exact (hf a).same s' h

theorem congruent_agrees (good : S → Prop) : Congruent (E := E) (Agrees good) where
  pure _ := Agrees.rfl fun _ h => h
  get _ := Agrees.rfl fun _ h => h
  bind := Agrees.bind

end Tracked
