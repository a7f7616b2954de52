/-
Lists read item by item, where one item that does not read fails the list.
-/
import Mathlib.Data.List.Forall2

namespace Mapped

universe u v w

section Pairs

variable {α : Type u} {β : Type v} {γ : Type w} {R : α → β → Prop}

theorem exists_of_forall₂ {as : List α} {bs : List β} (h : List.Forall₂ R as bs) {a : α}
    (ha : a ∈ as) : ∃ b ∈ bs, R a b := by
  induction h with
  | nil => cases ha
  | cons hab _ ih =>
    rcases List.mem_cons.mp ha with rfl | ha
    · exact ⟨_, List.mem_cons_self, hab⟩
    · obtain ⟨b, hb, hR⟩ := ih ha
      exact ⟨b, List.mem_cons_of_mem _ hb, hR⟩

theorem forall₂_iff_forall_mem {P : α → Prop} {as : List α} {bs : List β}
    (h : List.Forall₂ (fun a b => R a b ↔ P a) as bs) : List.Forall₂ R as bs ↔ ∀ a ∈ as, P a := by
  induction h with
  | nil => simp
  | cons hone _ ih => rw [List.forall₂_cons, hone, ih, List.forall_mem_cons]

end Pairs

variable {α : Type u} {β : Type v} {f : α → Option β} {l : List α} {ys : List β}

/-- A list is read exactly when its items are, one by one. -/
theorem mapM_eq_some_iff : l.mapM f = some ys ↔ List.Forall₂ (fun x y => f x = some y) l ys := by
  induction l generalizing ys with
  | nil =>
    rw [List.mapM_nil, Option.pure_def, Option.some.injEq, List.forall₂_nil_left_iff]
    exact eq_comm
  | cons x l ih =>
    simp only [List.mapM_cons, Option.bind_eq_bind, Option.bind_eq_some_iff, Option.pure_def,
      Option.some.injEq, ih]
    rw [List.forall₂_cons_left_iff]
    constructor
    · rintro ⟨y, hy, rest, hrest, rfl⟩
      exact ⟨y, rest, hy, hrest, rfl⟩
    · rintro ⟨y, rest, hy, hrest, rfl⟩
      exact ⟨y, hy, rest, hrest, rfl⟩

theorem mapM_cons_eq_some_iff {x : α} :
    (x :: l).mapM f = some ys ↔ ∃ y rest, f x = some y ∧ l.mapM f = some rest ∧ ys = y :: rest := by
  simp only [mapM_eq_some_iff, List.forall₂_cons_left_iff]

theorem exists_of_mem_right (h : l.mapM f = some ys) {y : β} (hy : y ∈ ys) :
    ∃ x ∈ l, f x = some y := by
  have hall := mapM_eq_some_iff.mp h
  clear h
  induction hall with
  | nil => exact absurd hy List.not_mem_nil
  | cons head _ ih =>
    rcases List.mem_cons.mp hy with rfl | htail
    · exact ⟨_, List.mem_cons_self, head⟩
    · obtain ⟨x, hx, hread⟩ := ih htail
      exact ⟨x, List.mem_cons_of_mem _ hx, hread⟩

theorem exists_of_mem_left (h : l.mapM f = some ys) {x : α} (hx : x ∈ l) : ∃ y ∈ ys, f x = some y :=
  exists_of_forall₂ (mapM_eq_some_iff.mp h) hx

theorem forall_mem_right {P : β → Prop} (hf : ∀ x y, f x = some y → P y)
    (h : l.mapM f = some ys) : ∀ y ∈ ys, P y := by
  intro y hy
  obtain ⟨x, -, hread⟩ := exists_of_mem_right h hy
  exact hf x y hread

theorem isSome_of_mem (h : l.mapM f = some ys) {x : α} (hx : x ∈ l) : (f x).isSome = true := by
  obtain ⟨y, -, hread⟩ := exists_of_mem_left h hx
  rw [hread]
  rfl

theorem ne_nil {x : α} (h : (x :: l).mapM f = some ys) : ys ≠ [] := by
  obtain ⟨y, hy, -⟩ := exists_of_mem_left h List.mem_cons_self
  exact List.ne_nil_of_mem hy

theorem mapM_eq_none {x : α} (hx : x ∈ l) (h : f x = none) : l.mapM f = none := by
  cases hread : l.mapM f with
  | none => rfl
  | some ys =>
    have hsome := isSome_of_mem hread hx
    rw [h] at hsome
    cases hsome

theorem exists_mapM (h : ∀ x ∈ l, ∃ y, f x = some y) : ∃ ys, l.mapM f = some ys := by
  induction l with
  | nil => exact ⟨[], rfl⟩
  | cons x l ih =>
    obtain ⟨y, hy⟩ := h x List.mem_cons_self
    obtain ⟨ys, hys⟩ := ih fun z hz => h z (List.mem_cons_of_mem x hz)
    exact ⟨y :: ys, mapM_eq_some_iff.mpr (.cons hy (mapM_eq_some_iff.mp hys))⟩

/-- Items related one by one read alike. -/
theorem eq_of_forall₂ {γ : Type w} {R : α → γ → Prop} {g : γ → Option β} {xs : List γ}
    {zs : List β} (hR : ∀ ⦃x y u v⦄, R x y → f x = some u → g y = some v → u = v)
    (h : List.Forall₂ R l xs) (hys : l.mapM f = some ys) (hzs : xs.mapM g = some zs) : ys = zs := by
  have hread := mapM_eq_some_iff.mp hys
  have hread' := mapM_eq_some_iff.mp hzs
  clear hys hzs
  induction h generalizing ys zs with
  | nil =>
    cases hread
    cases hread'
    rfl
  | cons hxy _ ih =>
    cases hread with
    | cons hy hys =>
      cases hread' with
      | cons hz hzs => rw [hR hxy hy hz, ih hys hzs]

section Raising

variable {ε : Type u} {g : α → Except ε β}

theorem mapM_eq_ok_iff : l.mapM g = .ok ys ↔ List.Forall₂ (fun x y => g x = .ok y) l ys := by
  induction l generalizing ys with
  | nil =>
    rw [List.forall₂_nil_left_iff]
    exact ⟨fun h => (Except.ok.inj h).symm, fun h => congrArg Except.ok h.symm⟩
  | cons x l ih =>
    rw [List.forall₂_cons_left_iff, List.mapM_cons]
    constructor
    · intro h
      cases hx : g x with
      | error e => rw [hx] at h; cases h
      | ok y =>
        cases hl : l.mapM g with
        | error e => rw [hx, hl] at h; cases h
        | ok rest =>
          rw [hx, hl] at h
          cases h
          exact ⟨y, rest, rfl, ih.mp hl, rfl⟩
    · rintro ⟨y, rest, hx, hrest, rfl⟩
      rw [hx, ih.mpr hrest]
      rfl

theorem mapM_eq_mapM {γ : Type w} {h : γ → Except ε β} {l' : List γ}
    (hl : List.Forall₂ (fun x y => g x = h y) l l') : l.mapM g = l'.mapM h := by
  induction hl with
  | nil => rfl
  | cons hone _ ih => rw [List.mapM_cons, List.mapM_cons, hone, ih]

/-- No item raises exactly when the list does not. -/
theorem exists_mapM_ok_iff : (∃ ys, l.mapM g = .ok ys) ↔ ∀ x ∈ l, ∃ y, g x = .ok y := by
  constructor
  · rintro ⟨ys, h⟩ x hx
    obtain ⟨i, hi, rfl⟩ := List.mem_iff_getElem.mp hx
    have hall := mapM_eq_ok_iff.mp h
    have hi' : i < ys.length := hall.length_eq ▸ hi
    exact ⟨ys[i], hall.get hi hi'⟩
  · intro h
    induction l with
    | nil => exact ⟨[], rfl⟩
    | cons x l ih =>
      obtain ⟨y, hy⟩ := h x List.mem_cons_self
      obtain ⟨ys, hys⟩ := ih fun x hx => h x (List.mem_cons_of_mem _ hx)
      exact ⟨y :: ys, by rw [List.mapM_cons, hy, hys]; rfl⟩

end Raising

end Mapped
