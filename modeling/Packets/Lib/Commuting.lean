/-
Passes over a list in a monad whose effects commute.

Several passes made one after another are one pass that makes all the steps at
each element, provided an effect may be moved past another one.
-/
import Mathlib.Data.List.Basic

/-- Two computations that do not use each other's results may change places. -/
class CommutingMonad (m : Type → Type) [Monad m] : Prop extends LawfulMonad m where
  swap {α β γ : Type} (a : m α) (b : m β) (f : α → β → m γ) :
    (do let x ← a; let y ← b; f x y) = (do let y ← b; let x ← a; f x y)

namespace CommutingMonad

instance : CommutingMonad Id where
  swap _ _ _ := rfl

instance : CommutingMonad Option where
  swap a b f := by cases a <;> cases b <;> rfl

variable {m : Type → Type} [Monad m] [CommutingMonad m] {α β γ : Type}

/-- Two passes are one. -/
theorem mapM_bind_mapM (f : α → m β) (g : β → m γ) (l : List α) :
    (l.mapM f >>= fun ys => ys.mapM g) = l.mapM fun x => f x >>= g := by
  induction l with
  | nil => simp
  | cons x rest ih =>
    simp only [List.mapM_cons, bind_assoc, pure_bind]
    rw [← ih]
    congr 1
    funext y
    simp only [bind_assoc]
    exact swap (rest.mapM f) (g y) fun ys z => do
      let zs ← ys.mapM g
      pure (z :: zs)

omit [CommutingMonad m] in
theorem mapM_of_pure [LawfulMonad m] {f : α → m β} {g : α → β} {l : List α}
    (h : ∀ x ∈ l, f x = pure (g x)) : l.mapM f = pure (l.map g) := by
  induction l with
  | nil => simp
  | cons x rest ih =>
    rw [List.mapM_cons, h x List.mem_cons_self, ih fun y hy => h y (List.mem_cons_of_mem _ hy)]
    simp

theorem foldlM_mapM {σ : Type} (step : σ → α → m α) (steps : List σ) (l : List α) :
    steps.foldlM (fun l s => l.mapM (step s)) l =
      l.mapM fun x => steps.foldlM (fun x s => step s x) x := by
  induction steps generalizing l with
  | nil => simpa using (List.mapM_pure (m := m) (l := l) (f := id)).symm
  | cons s rest ih =>
    simp only [List.foldlM_cons]
    rw [← mapM_bind_mapM]
    congr 1
    funext ys
    exact ih ys

omit [CommutingMonad m] in
theorem foldlM_inside [LawfulMonad m] {σ : Type} (wrap : α → β) (outer : β → σ → m β)
    (inner : α → σ → m α) (steps : List σ)
    (h : ∀ s ∈ steps, ∀ x, outer (wrap x) s = wrap <$> inner x s) (x : α) :
    steps.foldlM outer (wrap x) = wrap <$> steps.foldlM inner x := by
  induction steps generalizing x with
  | nil => simp
  | cons s rest ih =>
    simp only [List.foldlM_cons, h s List.mem_cons_self, bind_map_left, map_bind]
    congr 1
    funext y
    exact ih (fun s hs => h s (List.mem_cons_of_mem _ hs)) y

end CommutingMonad

namespace Except

variable {ε : Type} {α β σ : Type}

theorem toOption_bind (x : Except ε α) (f : α → Except ε β) :
    (x >>= f).toOption = x.toOption >>= fun a => (f a).toOption := by
  cases x <;> rfl

theorem toOption_map (f : α → β) (x : Except ε α) : (f <$> x).toOption = f <$> x.toOption := by
  cases x <;> rfl

theorem toOption_mapM (f : α → Except ε β) (l : List α) :
    (l.mapM f).toOption = l.mapM fun x => (f x).toOption := by
  induction l with
  | nil => rfl
  | cons x rest ih =>
    simp only [List.mapM_cons, toOption_bind, ih]
    rfl

theorem toOption_foldlM (f : β → σ → Except ε β) (b : β) (l : List σ) :
    (l.foldlM f b).toOption = l.foldlM (fun b s => (f b s).toOption) b := by
  induction l generalizing b with
  | nil => rfl
  | cons s rest ih => simp only [List.foldlM_cons, toOption_bind, ih]

theorem toOption_eq_some_iff {x : Except ε α} {a : α} : x.toOption = some a ↔ x = .ok a := by
  cases x <;> simp [Except.toOption]

theorem toOption_eq_none_iff {x : Except ε α} : x.toOption = none ↔ ∃ e, x = .error e := by
  cases x <;> simp [Except.toOption]

end Except
