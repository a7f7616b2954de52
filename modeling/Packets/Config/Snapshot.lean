/-
What a snapshot tells of a document.

`freeze` forgets the order of keys, which numbers were booleans, and whether a tuple was an
object or an array.  A reader is `Faithful` when this loses nothing it reads.
-/
import Packets.Config.Json
import Packets.Lib.Mapped

namespace Packets

/-- Two fragments that a reader accepts and that freeze alike read alike. -/
def Faithful {α : Type} (read : Json → Option α) : Prop :=
  ∀ ⦃a b : Json⦄ ⦃x y : α⦄, freeze a = freeze b → read a = some x → read b = some y → x = y

theorem freezeFields_eq_map (fields : List (String × Json)) :
    freezeFields fields = fields.map fun e => (e.1, freeze e.2) := by
  induction fields with
  | nil => rfl
  | cons e rest ih => rw [freezeFields, ih, List.map_cons]

theorem freezeList_eq_map (items : List Json) : freezeList items = items.map freeze := by
  induction items with
  | nil => rfl
  | cons j rest ih => rw [freezeList, ih, List.map_cons]

theorem lookup_cons_eq {α : Type} (e : String × α) (rest : List (String × α)) (key : String) :
    (e :: rest).lookup key = if key = e.1 then some e.2 else rest.lookup key := by
  obtain ⟨k, v⟩ := e
  rw [List.lookup_cons]
  by_cases hkey : key = k
  · simp [hkey]
  · simp [hkey, beq_eq_false_iff_ne.mpr hkey]

namespace Frozen

/-- An entry inserted by its key goes before the others of that key. -/
theorem lookup_orderedInsert (e : String × Frozen) (fields : List (String × Frozen))
    (key : String) :
    (fields.orderedInsert (fun a b => a.1 ≤ b.1) e).lookup key =
      if key = e.1 then some e.2 else fields.lookup key := by
  induction fields with
  | nil => exact lookup_cons_eq e [] key
  | cons other rest ih =>
    rw [List.orderedInsert_cons]
    split
    · exact lookup_cons_eq e (other :: rest) key
    · rename_i hle
      have hne : other.1 ≠ e.1 := fun heq => hle (heq ▸ String.le_refl _)
      rw [lookup_cons_eq, ih, lookup_cons_eq]
      by_cases hother : key = other.1
      · rw [if_pos hother, if_pos hother, if_neg (hother ▸ hne)]
      · rw [if_neg hother, if_neg hother]

theorem lookup_sortFields (fields : List (String × Frozen)) (key : String) :
    (sortFields fields).lookup key = fields.lookup key := by
  rw [sortFields]
  induction fields with
  | nil => rfl
  | cons e rest ih => rw [List.insertionSort_cons, lookup_orderedInsert, ih, lookup_cons_eq]

theorem map_fst_sortFields (fields : List (String × Frozen)) :
    (sortFields fields).map Prod.fst = (fields.map Prod.fst).insertionSort (· ≤ ·) := by
  rw [sortFields]
  apply List.map_insertionSort
  intro a _ b _
  rfl

end Frozen

theorem sortFields_of_freeze {f g : List (String × Json)}
    (h : freeze (.dict f) = freeze (.dict g)) :
    Frozen.sortFields (freezeFields f) = Frozen.sortFields (freezeFields g) := by
  simp only [freeze, Frozen.tuple.injEq] at h
  refine List.map_injective_iff.mpr ?_ h
  rintro ⟨k, x⟩ ⟨k', x'⟩ heq
  simpa using heq

theorem lookup_freezeFields (fields : List (String × Json)) (key : String) :
    (freezeFields fields).lookup key = (fields.lookup key).map freeze := by
  rw [freezeFields_eq_map]
  induction fields with
  | nil => rfl
  | cons e rest ih =>
    rw [List.map_cons, lookup_cons_eq, lookup_cons_eq, ih]
    by_cases hkey : key = e.1
    · rw [if_pos hkey, if_pos hkey, Option.map_some]
    · rw [if_neg hkey, if_neg hkey]

namespace Json

variable {a b : Json}

theorem isDict_iff : a.isDict = true ↔ ∃ fields, a = .dict fields := by cases a <;> simp [isDict]

theorem get?_of_freeze (ha : a.isDict = true) (hb : b.isDict = true) (h : freeze a = freeze b)
    (key : String) : (a.get? key).map freeze = (b.get? key).map freeze := by
  obtain ⟨f, rfl⟩ := isDict_iff.mp ha
  obtain ⟨g, rfl⟩ := isDict_iff.mp hb
  have hfields := congrArg (List.lookup key) (sortFields_of_freeze h)
  rw [Frozen.lookup_sortFields, Frozen.lookup_sortFields, lookup_freezeFields,
    lookup_freezeFields] at hfields
  exact hfields

theorem get?_some_of_freeze (ha : a.isDict = true) (hb : b.isDict = true)
    (h : freeze a = freeze b) {key : String} {x y : Json} (hx : a.get? key = some x)
    (hy : b.get? key = some y) : freeze x = freeze y := by
  have hkey := get?_of_freeze ha hb h key
  rw [hx, hy] at hkey
  exact Option.some.inj hkey

/-- A member with a default is frozen alike in both. -/
theorem getD_of_freeze (ha : a.isDict = true) (hb : b.isDict = true)
    (h : freeze a = freeze b) (key : String) (default : Json) :
    freeze ((a.get? key).getD default) = freeze ((b.get? key).getD default) := by
  have hkey := get?_of_freeze ha hb h key
  cases hx : a.get? key with
  | none =>
    rw [hx, Option.map_none] at hkey
    rw [Option.map_eq_none_iff.mp hkey.symm]
  | some x =>
    rw [hx, Option.map_some] at hkey
    obtain ⟨y, hy, heq⟩ := Option.map_eq_some_iff.mp hkey.symm
    rw [hy]
    exact heq.symm

theorem sortedKeys_of_freeze (ha : a.isDict = true) (hb : b.isDict = true)
    (h : freeze a = freeze b) : a.sortedKeys = b.sortedKeys := by
  obtain ⟨f, rfl⟩ := isDict_iff.mp ha
  obtain ⟨g, rfl⟩ := isDict_iff.mp hb
  have hfields := congrArg (List.map Prod.fst) (sortFields_of_freeze h)
  rw [Frozen.map_fst_sortFields, Frozen.map_fst_sortFields, freezeFields_eq_map,
    freezeFields_eq_map, List.map_map, List.map_map] at hfields
  exact hfields

/-- A text or an integer: what a snapshot keeps as it is. -/
def Plain : Json → Prop
  | .str _ => True
  | .int _ => True
  | _ => False

theorem Plain.eq_of_freeze (ha : a.Plain) (hb : b.Plain) (h : freeze a = freeze b) : a = b := by
  cases a <;> cases b <;> simp_all [Plain, freeze]

theorem forall₂_of_freeze {xs ys : List Json} (h : freeze (.list xs) = freeze (.list ys)) :
    List.Forall₂ (fun x y => freeze x = freeze y) xs ys := by
  simp only [freeze, Frozen.tuple.injEq, freezeList_eq_map] at h
  exact List.forall₂_map_right_iff.mp (List.forall₂_map_left_iff.mp (h ▸ List.forall₂_refl _))

theorem items?_of_freeze {xs ys : List Json} (ha : a.items? = some xs) (hb : b.items? = some ys)
    (h : freeze a = freeze b) : List.Forall₂ (fun x y => freeze x = freeze y) xs ys := by
  cases a <;> cases b <;> simp_all only [items?, Option.some.injEq, reduceCtorEq]
  exact forall₂_of_freeze h

end Json

namespace Faithful

variable {α β : Type} {read : Json → Option α}

theorem mapM (h : Faithful read) {xs ys : List Json} {us vs : List α}
    (hxy : List.Forall₂ (fun x y => freeze x = freeze y) xs ys)
    (hus : xs.mapM read = some us) (hvs : ys.mapM read = some vs) : us = vs :=
  Mapped.eq_of_forall₂ (R := fun x y => freeze x = freeze y) (fun _ _ _ _ hf hu hv => h hf hu hv) hxy
    hus hvs

theorem map (h : Faithful read) (f : α → β) : Faithful fun j => (read j).map f := by
  intro a b x y hfreeze hx hy
  obtain ⟨u, hu, rfl⟩ := Option.map_eq_some_iff.mp hx
  obtain ⟨v, hv, rfl⟩ := Option.map_eq_some_iff.mp hy
  rw [h hfreeze hu hv]

theorem bind (h : Faithful read) (f : α → Option β) : Faithful fun j => (read j).bind f := by
  intro a b x y hfreeze hx hy
  obtain ⟨u, hu, hfu⟩ := Option.bind_eq_some_iff.mp hx
  obtain ⟨v, hv, hfv⟩ := Option.bind_eq_some_iff.mp hy
  rw [← h hfreeze hu hv, hfu] at hfv
  exact Option.some.inj hfv

theorem of_plain (h : ∀ ⦃j x⦄, read j = some x → j.Plain) : Faithful read := by
  intro a b x y hfreeze hx hy
  rw [(h hx).eq_of_freeze (h hy) hfreeze, hy] at hx
  exact (Option.some.inj hx).symm

theorem str? : Faithful Json.str? := by
  apply of_plain
  intro j x hx
  cases j <;> simp_all [Json.str?, Json.Plain]

theorem bool? : Faithful Json.bool? := by
  intro a b x y hfreeze hx hy
  cases a <;> cases b <;> simp_all [Json.bool?, freeze]
  split_ifs at hfreeze <;> simp_all

theorem intIn? (low high : Int) : Faithful (Json.intIn? low high) := by
  apply of_plain
  intro j x hx
  cases j <;> simp_all [Json.intIn?, Json.int?, Json.Plain]

end Faithful

end Packets
