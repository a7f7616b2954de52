/-
Insertion-ordered dictionaries and object heaps.

A `Dict` lists its entries in the order their keys first arrived, with the proof that none
occurs twice.  A `Heap` names mutable objects by address.
-/
import Mathlib.Algebra.GroupWithZero.Nat
import Mathlib.Data.List.Nodup
import Mathlib.Data.List.Basic

universe u v w

/-- A finite map that remembers the order in which its keys were inserted. -/
structure Dict (K : Type u) (V : Type v) where
  entries : List (K × V)
  nodup : (entries.map Prod.fst).Nodup

namespace Dict

variable {K : Type u} {V : Type v} {W : Type w} [DecidableEq K]

def empty : Dict K V := ⟨[], List.nodup_nil⟩

instance : Inhabited (Dict K V) := ⟨empty⟩

def keys (d : Dict K V) : List K := d.entries.map Prod.fst

def values (d : Dict K V) : List V := d.entries.map Prod.snd

def size (d : Dict K V) : Nat := d.entries.length

def isEmpty (d : Dict K V) : Bool := d.entries.isEmpty

def getEntries (k : K) : List (K × V) → Option V
  | [] => none
  | (k', v) :: rest => if k' = k then some v else getEntries k rest

def get? (d : Dict K V) (k : K) : Option V := getEntries k d.entries

def contains (d : Dict K V) (k : K) : Bool := (d.get? k).isSome

/-- Assignment keeps the place of a key already present and appends a new one. -/
def setEntries (k : K) (v : V) : List (K × V) → List (K × V)
  | [] => [(k, v)]
  | (k', v') :: rest => if k' = k then (k, v) :: rest else (k', v') :: setEntries k v rest

theorem mem_map_fst_setEntries (k : K) (v : V) (l : List (K × V)) (x : K) :
    x ∈ (setEntries k v l).map Prod.fst ↔ x = k ∨ x ∈ l.map Prod.fst := by
  induction l with
  | nil => simp [setEntries]
  | cons head rest ih =>
    obtain ⟨k', v'⟩ := head
    by_cases hk : k' = k
    · subst hk
      simp [setEntries]
    · simp only [setEntries, hk, ↓reduceIte, List.map_cons, List.mem_cons, ih]
      tauto

theorem nodup_setEntries (k : K) (v : V) (l : List (K × V))
    (hl : (l.map Prod.fst).Nodup) : ((setEntries k v l).map Prod.fst).Nodup := by
  induction l with
  | nil => simp [setEntries]
  | cons head rest ih =>
    obtain ⟨k', v'⟩ := head
    simp only [List.map_cons, List.nodup_cons] at hl
    by_cases hk : k' = k
    · subst hk
      simpa [setEntries] using hl
    · simp only [setEntries, hk, ↓reduceIte, List.map_cons, List.nodup_cons]
      refine ⟨?_, ih hl.2⟩
      rw [mem_map_fst_setEntries]
      rintro (heq | hmem)
      · exact hk heq
      · exact hl.1 hmem

def set (d : Dict K V) (k : K) (v : V) : Dict K V :=
  ⟨setEntries k v d.entries, nodup_setEntries k v d.entries d.nodup⟩

def erase (d : Dict K V) (k : K) : Dict K V :=
  ⟨d.entries.filter fun e => decide (e.1 ≠ k), d.nodup.sublist ((List.filter_sublist).map Prod.fst)⟩

/-- Keep the entries whose key and value pass a test. -/
def filter (d : Dict K V) (p : K → V → Bool) : Dict K V :=
  ⟨d.entries.filter fun e => p e.1 e.2, d.nodup.sublist ((List.filter_sublist).map Prod.fst)⟩

def mapValues (f : K → V → W) (d : Dict K V) : Dict K W :=
  ⟨d.entries.map fun e => (e.1, f e.1 e.2), by
    simpa [List.map_map, Function.comp_def] using d.nodup⟩

theorem getEntries_eq_some_iff {k : K} {v : V} {l : List (K × V)}
    (hl : (l.map Prod.fst).Nodup) : getEntries k l = some v ↔ (k, v) ∈ l := by
  induction l with
  | nil => simp [getEntries]
  | cons head rest ih =>
    obtain ⟨k', v'⟩ := head
    simp only [List.map_cons, List.nodup_cons] at hl
    by_cases hk : k' = k
    · subst hk
      have hnot : (k', v) ∉ rest := fun hmem => hl.1 (List.mem_map.mpr ⟨(k', v), hmem, rfl⟩)
      simp [getEntries, hnot, eq_comm]
    · have hne : k ≠ k' := fun h => hk h.symm
      simp [getEntries, hk, hne, ih hl.2]

theorem mem_entries_iff {d : Dict K V} {k : K} {v : V} : (k, v) ∈ d.entries ↔ d.get? k = some v :=
  (getEntries_eq_some_iff d.nodup).symm

theorem mem_keys_iff {d : Dict K V} {k : K} : k ∈ d.keys ↔ ∃ v, d.get? k = some v := by
  simp only [keys, List.mem_map]
  constructor
  · rintro ⟨⟨k', v⟩, hmem, rfl⟩
    exact ⟨v, mem_entries_iff.mp hmem⟩
  · rintro ⟨v, hv⟩
    exact ⟨(k, v), mem_entries_iff.mpr hv, rfl⟩

theorem mem_values_iff {d : Dict K V} {v : V} : v ∈ d.values ↔ ∃ k, d.get? k = some v := by
  simp only [values, List.mem_map]
  constructor
  · rintro ⟨⟨k, v'⟩, hmem, rfl⟩
    exact ⟨k, mem_entries_iff.mp hmem⟩
  · rintro ⟨k, hk⟩
    exact ⟨(k, v), mem_entries_iff.mpr hk, rfl⟩

theorem contains_iff {d : Dict K V} {k : K} : d.contains k = true ↔ ∃ v, d.get? k = some v := by
  simp [contains, Option.isSome_iff_exists]

@[simp] theorem get?_empty (k : K) : (empty : Dict K V).get? k = none := rfl

theorem getEntries_setEntries (k k' : K) (v : V) (l : List (K × V)) :
    getEntries k' (setEntries k v l) =
      if k' = k then some v else getEntries k' l := by
  induction l with
  | nil => simp [setEntries, getEntries, eq_comm]
  | cons head rest ih =>
    obtain ⟨k₀, v₀⟩ := head
    by_cases hk₀ : k₀ = k
    · subst hk₀
      by_cases hk : k' = k₀
      · simp [setEntries, getEntries, hk]
      · have hne : k₀ ≠ k' := fun h => hk h.symm
        simp [setEntries, getEntries, hk, hne]
    · by_cases hk : k₀ = k'
      · subst hk
        simp [setEntries, getEntries, hk₀]
      · simp [setEntries, getEntries, hk₀, hk, ih]

@[simp] theorem get?_set (d : Dict K V) (k k' : K) (v : V) :
    (d.set k v).get? k' = if k' = k then some v else d.get? k' :=
  getEntries_setEntries k k' v d.entries

/-- Replacing a value moves a sum over the values by the difference. -/
theorem sum_values_set (f : V → Nat) {d : Dict K V} {k : K} {old : V} (v : V)
    (h : d.get? k = some old) :
    ((d.set k v).values.map f).sum + f old = (d.values.map f).sum + f v := by
  obtain ⟨entries, hnodup⟩ := d
  simp only [get?, set, values] at h ⊢
  clear hnodup
  induction entries with
  | nil => exact absurd h (by simp [getEntries])
  | cons e rest ih =>
    obtain ⟨k', v'⟩ := e
    rw [getEntries] at h
    rw [setEntries]
    by_cases hk : k' = k
    · rw [if_pos hk] at h
      rw [if_pos hk, ← Option.some.inj h]
      simp only [List.map_cons, List.sum_cons]
      omega
    · rw [if_neg hk] at h
      rw [if_neg hk]
      simp only [List.map_cons, List.sum_cons]
      have hrest := ih h
      omega

theorem size_set (d : Dict K V) (k : K) (v : V) :
    (d.set k v).size = if (d.get? k).isSome then d.size else d.size + 1 := by
  have hsize : ∀ l : List (K × V), (setEntries k v l).length =
      if (getEntries k l).isSome then l.length else l.length + 1 := by
    intro l
    induction l with
    | nil => rfl
    | cons e rest ih =>
      by_cases hk : e.1 = k
      · simp [setEntries, getEntries, hk]
      · simp only [setEntries, getEntries, hk, if_false, List.length_cons, ih]
        split <;> rfl
  exact hsize d.entries

theorem size_erase (d : Dict K V) (k : K) :
    (d.erase k).size = if (d.get? k).isSome then d.size - 1 else d.size := by
  have hsize : ∀ l : List (K × V), (l.map Prod.fst).Nodup →
      (l.filter fun e => decide (e.1 ≠ k)).length =
        if (getEntries k l).isSome then l.length - 1 else l.length := by
    intro l hl
    induction l with
    | nil => rfl
    | cons e rest ih =>
      simp only [List.map_cons, List.nodup_cons] at hl
      by_cases hk : e.1 = k
      · have habsent : rest.filter (fun e => decide (e.1 ≠ k)) = rest := by
          apply List.filter_eq_self.mpr
          intro e' he'
          apply decide_eq_true
          rintro heq
          exact hl.1 (List.mem_map.mpr ⟨e', he', heq.trans hk.symm⟩)
        rw [List.filter_cons, habsent]
        simp [getEntries, hk]
      · have hrest := ih hl.2
        simp only [List.filter_cons, hk, getEntries, if_false, ne_eq, not_false_eq_true,
          decide_true, if_true, List.length_cons, hrest]
        split
        · next hsome =>
            have hpos : 0 < rest.length := by
              cases rest with
              | nil => simp [getEntries] at hsome
              | cons _ _ => exact Nat.succ_pos _
            omega
        · rfl
  exact hsize d.entries d.nodup

theorem get?_filter (d : Dict K V) (p : K → V → Bool) (k : K) :
    (d.filter p).get? k = (d.get? k).filter (p k) := by
  apply Option.ext
  intro v
  rw [← mem_entries_iff]
  simp only [filter, List.mem_filter, Option.filter_eq_some_iff]
  rw [mem_entries_iff]

@[simp] theorem get?_erase (d : Dict K V) (k k' : K) :
    (d.erase k).get? k' = if k' = k then none else d.get? k' := by
  apply Option.ext
  intro v
  rw [← mem_entries_iff]
  simp only [erase, List.mem_filter, decide_eq_true_eq]
  rw [mem_entries_iff]
  by_cases hk : k' = k <;> simp [hk]

theorem get?_mapValues (f : K → V → W) (d : Dict K V) (k : K) :
    (d.mapValues f).get? k = (d.get? k).map (f k) := by
  apply Option.ext
  intro w
  rw [← mem_entries_iff]
  simp only [mapValues, List.mem_map, Prod.mk.injEq, Option.map_eq_some_iff]
  constructor
  · rintro ⟨⟨k', v⟩, hmem, rfl, rfl⟩
    exact ⟨v, mem_entries_iff.mp hmem, rfl⟩
  · rintro ⟨v, hv, rfl⟩
    exact ⟨(k, v), mem_entries_iff.mpr hv, rfl, rfl⟩

omit [DecidableEq K] in
@[simp] theorem keys_mapValues (f : K → V → W) (d : Dict K V) : (d.mapValues f).keys = d.keys := by
  simp [keys, mapValues, List.map_map, Function.comp_def]

theorem isEmpty_iff {d : Dict K V} : d.isEmpty = true ↔ ∀ k, d.get? k = none := by
  rw [isEmpty, List.isEmpty_iff]
  constructor
  · intro h k
    rw [get?, h]
    rfl
  · intro h
    apply List.eq_nil_iff_forall_not_mem.mpr
    rintro ⟨k, v⟩ hmem
    rw [mem_entries_iff, h k] at hmem
    exact absurd hmem (by simp)

theorem eq_empty_of_forall {d : Dict K V} (h : ∀ k, d.get? k = none) : d = empty := by
  obtain ⟨entries, hnodup⟩ := d
  have hentries : entries = [] := List.isEmpty_iff.mp (isEmpty_iff.mpr h)
  subst hentries
  rfl

theorem contains_set (d : Dict K V) (k k' : K) (v : V) :
    (d.set k v).contains k' = (k' == k || d.contains k') := by
  by_cases hk : k' = k
  · simp [contains, hk]
  · simp [contains, hk]

/-- The values of a partial function at some keys. -/
def ofKeys (f : K → Option V) (keys : List K) : Dict K V :=
  keys.foldl (fun d k =>
    match f k with
    | some v => d.set k v
    | none => d) empty

theorem get?_foldl_ofKeys (f : K → Option V) (keys : List K) (d : Dict K V) (k : K) :
    (keys.foldl (fun d k =>
      match f k with
      | some v => d.set k v
      | none => d) d).get? k = if k ∈ keys ∧ (f k).isSome then f k else d.get? k := by
  induction keys generalizing d with
  | nil => simp
  | cons key rest ih =>
    rw [List.foldl_cons, ih]
    by_cases hk : k = key
    · subst hk
      cases hf : f k <;> simp
    · cases hf : f key <;> simp [hk]

theorem get?_ofKeys (f : K → Option V) (keys : List K) (k : K) :
    (ofKeys f keys).get? k = if k ∈ keys then f k else none := by
  rw [ofKeys, get?_foldl_ofKeys]
  by_cases hk : k ∈ keys <;> cases hf : f k <;> simp [hk]

end Dict

/-- Mutable objects of one class.  Addresses from `next` on are unused. -/
structure Heap (α : Type u) where
  next : Nat
  cell : Nat → α

namespace Heap

variable {α : Type u}

def alloc (h : Heap α) (a : α) : Heap α := ⟨h.next + 1, fun i => if i = h.next then a else h.cell i⟩

def write (h : Heap α) (i : Nat) (a : α) : Heap α :=
  ⟨h.next, fun j => if j = i then a else h.cell j⟩

@[simp] theorem next_alloc (h : Heap α) (a : α) : (h.alloc a).next = h.next + 1 := rfl

@[simp] theorem next_write (h : Heap α) (i : Nat) (a : α) : (h.write i a).next = h.next := rfl

@[simp] theorem cell_alloc (h : Heap α) (a : α) (i : Nat) :
    (h.alloc a).cell i = if i = h.next then a else h.cell i := rfl

@[simp] theorem cell_write (h : Heap α) (i j : Nat) (a : α) :
    (h.write i a).cell j = if j = i then a else h.cell j := rfl

end Heap
