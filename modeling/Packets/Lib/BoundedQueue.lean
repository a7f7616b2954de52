/-
A first-in first-out queue with a bound, written and read without blocking.

The bound is part of the queue: a write that finds it full is refused.
-/
import Mathlib.Data.List.Basic

universe u

/-- The items are oldest first. -/
structure BoundedQueue (α : Type u) where
  items : List α
  maxsize : Nat
  maxsize_pos : 0 < maxsize
  bounded : items.length ≤ maxsize

namespace BoundedQueue

variable {α : Type u} {q q' : BoundedQueue α} {a : α}

def empty (maxsize : Nat) (h : 0 < maxsize) : BoundedQueue α :=
  ⟨[], maxsize, h, Nat.zero_le maxsize⟩

/-- Add an item at the end.  `none` is a full queue. -/
def putNowait (q : BoundedQueue α) (a : α) : Option (BoundedQueue α) :=
  if h : q.items.length < q.maxsize then
    some ⟨q.items ++ [a], q.maxsize, q.maxsize_pos, by rw [List.length_append]; exact h⟩
  else none

/-- What is left when the oldest item is taken. -/
def rest (q : BoundedQueue α) : BoundedQueue α :=
  ⟨q.items.tail, q.maxsize, q.maxsize_pos, by
    rw [List.length_tail]
    exact Nat.le_trans (Nat.sub_le _ _) q.bounded⟩

/-- Take the oldest item.  `none` is an empty queue. -/
def getNowait (q : BoundedQueue α) : Option (α × BoundedQueue α) :=
  q.items.head?.map fun a => (a, q.rest)

theorem putNowait_eq_none_iff : q.putNowait a = none ↔ q.items.length = q.maxsize := by
  have hbound := q.bounded
  by_cases h : q.items.length < q.maxsize
  · simp [putNowait, h, Nat.ne_of_lt h]
  · simp [putNowait, h]
    omega

theorem items_of_putNowait (h : q.putNowait a = some q') : q'.items = q.items ++ [a] := by
  by_cases hroom : q.items.length < q.maxsize
  · simp only [putNowait, hroom, ↓reduceDIte, Option.some.injEq] at h
    rw [← h]
  · simp [putNowait, hroom] at h

theorem getNowait_eq_none_iff : q.getNowait = none ↔ q.items = [] := by simp [getNowait]

theorem items_of_getNowait (h : q.getNowait = some (a, q')) : q.items = a :: q'.items := by
  rw [getNowait, Option.map_eq_some_iff] at h
  obtain ⟨b, hhead, heq⟩ := h
  obtain ⟨rfl, rfl⟩ := Prod.mk.inj heq
  exact (List.cons_head?_tail hhead).symm

theorem maxsize_of_getNowait (h : q.getNowait = some (a, q')) : q'.maxsize = q.maxsize := by
  rw [getNowait, Option.map_eq_some_iff] at h
  obtain ⟨b, -, heq⟩ := h
  obtain ⟨rfl, rfl⟩ := Prod.mk.inj heq
  rfl

theorem lt_of_getNowait (h : q.getNowait = some (a, q')) : q'.items.length < q'.maxsize := by
  have hbound := q.bounded
  rw [items_of_getNowait h, List.length_cons] at hbound
  rw [maxsize_of_getNowait h]
  exact hbound

end BoundedQueue
