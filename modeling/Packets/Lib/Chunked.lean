/-
Cutting a stream into items while it arrives in pieces.

Where every verdict of the scanner but the last stands whatever arrives later, what is cut does
not depend on where the pieces end.
-/
import Mathlib.Data.List.Basic

namespace Chunked

universe u v w

variable {β : Type u} {ι : Type v} {φ : Type w}

/-- What the bytes at hand say of the next item. -/
inductive Verdict (ι : Type v) (φ : Type w) where
  | more
  | item (i : ι) (size : Nat)
  | broken (f : φ)

/-- A verdict stands whatever follows, and an item takes some of the bytes at hand. -/
structure Stable (scan : List β → Verdict ι φ) : Prop where
  extend : ∀ s t, scan s ≠ .more → scan (s ++ t) = scan s
  fits : ∀ s i n, scan s = .item i n → 0 < n ∧ n ≤ s.length

/-- The bytes not cut yet, and what latched the cutter. -/
structure Cutter (β : Type u) (φ : Type w) where
  rest : List β
  fault : Option φ

def Cutter.feed (c : Cutter β φ) (s : List β) : Cutter β φ := { c with rest := c.rest ++ s }

/-- Take the next item, if it is there. -/
def Cutter.next (scan : List β → Verdict ι φ) (c : Cutter β φ) : Option ι × Cutter β φ :=
  match c.fault with
  | some _ => (none, c)
  | none =>
    match scan c.rest with
    | .more => (none, c)
    | .item i n => (some i, ⟨c.rest.drop n, none⟩)
    | .broken f => (none, ⟨c.rest, some f⟩)

/-- Take items until there is none. -/
def Cutter.drain (scan : List β → Verdict ι φ) : Nat → Cutter β φ → List ι × Cutter β φ
  | 0, c => ([], c)
  | fuel + 1, c =>
    match c.next scan with
    | (none, c) => ([], c)
    | (some i, c) =>
      let tail := Cutter.drain scan fuel c
      (i :: tail.1, tail.2)

/-- Take every item there is. -/
def Cutter.settle (scan : List β → Verdict ι φ) (c : Cutter β φ) : List ι × Cutter β φ :=
  c.drain scan (c.rest.length + 1)

/-- What the owner of a cutter does with it. -/
inductive Call (β : Type u) where
  | feed (s : List β)
  | next

/-- The bytes fed by a sequence of calls. -/
def fed : List (Call β) → List β
  | [] => []
  | .feed s :: calls => s ++ fed calls
  | .next :: calls => fed calls

/-- The items a sequence of calls returns, and the cutter it leaves. -/
def run (scan : List β → Verdict ι φ) : List (Call β) → Cutter β φ → List ι × Cutter β φ
  | [], c => ([], c)
  | .feed s :: calls, c => run scan calls (c.feed s)
  | .next :: calls, c =>
    let head := c.next scan
    let tail := run scan calls head.2
    (head.1.toList ++ tail.1, tail.2)

section

variable {scan : List β → Verdict ι φ}

theorem Cutter.next_of_fault {c : Cutter β φ} {f : φ} (h : c.fault = some f) :
    c.next scan = (none, c) := by
  simp only [Cutter.next, h]

/-- A cutter that found nothing finds nothing again. -/
theorem Cutter.next_none {c c' : Cutter β φ} (h : c.next scan = (none, c')) :
    c'.next scan = (none, c') := by
  obtain ⟨rest, fault⟩ := c
  cases fault with
  | some f =>
    simp only [Cutter.next, Prod.mk.injEq, true_and] at h
    subst h
    rfl
  | none =>
    cases hat : scan rest with
    | more =>
      simp only [Cutter.next, hat, Prod.mk.injEq, true_and] at h
      subst h
      simp only [Cutter.next, hat]
    | item i n => simp [Cutter.next, hat] at h
    | broken f =>
      simp only [Cutter.next, hat, Prod.mk.injEq, true_and] at h
      subst h
      rfl

theorem Cutter.rest_of_next_none {c c' : Cutter β φ} (h : c.next scan = (none, c')) :
    c'.rest = c.rest := by
  obtain ⟨rest, fault⟩ := c
  cases fault with
  | some f =>
    simp only [Cutter.next, Prod.mk.injEq, true_and] at h
    rw [← h]
  | none =>
    cases hat : scan rest with
    | item i n => simp [Cutter.next, hat] at h
    | more | broken f =>
      simp only [Cutter.next, hat, Prod.mk.injEq, true_and] at h
      rw [← h]

/-- An item that was taken stood at the front. -/
theorem Cutter.next_some {c c' : Cutter β φ} {i : ι} (h : c.next scan = (some i, c')) :
    ∃ n, c.fault = none ∧ scan c.rest = .item i n ∧ c' = ⟨c.rest.drop n, none⟩ := by
  obtain ⟨rest, fault⟩ := c
  cases fault with
  | some f => simp [Cutter.next] at h
  | none =>
    cases hat : scan rest with
    | more => simp [Cutter.next, hat] at h
    | broken f => simp [Cutter.next, hat] at h
    | item j n =>
      simp only [Cutter.next, hat, Prod.mk.injEq, Option.some.injEq] at h
      obtain ⟨rfl, rfl⟩ := h
      exact ⟨n, rfl, rfl, rfl⟩

variable (hscan : Stable scan)

include hscan

theorem Cutter.next_shorter {c c' : Cutter β φ} {i : ι} (h : c.next scan = (some i, c')) :
    c'.rest.length < c.rest.length := by
  obtain ⟨n, -, hitem, rfl⟩ := Cutter.next_some h
  have hfits := hscan.fits c.rest i n hitem
  simp only [List.length_drop]
  omega

/-- With enough fuel, more fuel changes nothing. -/
theorem Cutter.drain_fuel {n m : Nat} {c : Cutter β φ} (hn : c.rest.length < n)
    (hm : c.rest.length < m) : c.drain scan n = c.drain scan m := by
  induction n generalizing c m with
  | zero => omega
  | succ n ih =>
    cases m with
    | zero => omega
    | succ m =>
      rcases hnext : c.next scan with ⟨_ | i, c'⟩
      · simp only [Cutter.drain, hnext]
      · have hlt := Cutter.next_shorter hscan hnext
        simp only [Cutter.drain, hnext]
        rw [ih (m := m) (by omega) (by omega)]

theorem Cutter.settle_some {c c' : Cutter β φ} {i : ι} (h : c.next scan = (some i, c')) :
    c.settle scan = (i :: (c'.settle scan).1, (c'.settle scan).2) := by
  have hlt := Cutter.next_shorter hscan h
  rw [Cutter.settle, Cutter.drain, h]
  simp only [Cutter.settle]
  rw [Cutter.drain_fuel hscan (n := c.rest.length) (m := c'.rest.length + 1) hlt (by omega)]

omit hscan in
theorem Cutter.settle_none {c c' : Cutter β φ} (h : c.next scan = (none, c')) :
    c.settle scan = ([], c') := by
  simp only [Cutter.settle, Cutter.drain, h]

/-- Asking for an item first does not change what is cut from what comes. -/
theorem Cutter.settle_feed_next (c : Cutter β φ) (s : List β) :
    (c.feed s).settle scan =
      ((c.next scan).1.toList ++ (((c.next scan).2.feed s).settle scan).1,
        (((c.next scan).2.feed s).settle scan).2) := by
  obtain ⟨rest, fault⟩ := c
  cases fault with
  | some f => rfl
  | none =>
    cases hrest : scan rest with
    | more => simp only [Cutter.next, hrest, Option.toList_none, List.nil_append]
    | item i n =>
      have hfits := hscan.fits rest i n hrest
      have hext : scan (rest ++ s) = .item i n := by
        rw [hscan.extend rest s (by simp [hrest]), hrest]
      have hnext : (Cutter.feed ⟨rest, none⟩ s).next scan =
          (some i, Cutter.feed ⟨rest.drop n, none⟩ s) := by
        simp only [Cutter.next, Cutter.feed, hext, List.drop_append_of_le_length hfits.2]
      rw [Cutter.settle_some hscan hnext]
      simp only [Cutter.next, hrest, Option.toList_some, List.singleton_append]
    | broken f =>
      have hext : scan (rest ++ s) = .broken f := by
        rw [hscan.extend rest s (by simp [hrest]), hrest]
      have hnext : (Cutter.feed ⟨rest, none⟩ s).next scan =
          (none, Cutter.feed ⟨rest, some f⟩ s) := by
        simp only [Cutter.next, Cutter.feed, hext]
      have hlatched : (Cutter.feed ⟨rest, some f⟩ s).next scan =
          (none, Cutter.feed ⟨rest, some f⟩ s) :=
        Cutter.next_of_fault (f := f) rfl
      rw [Cutter.settle_none hnext]
      simp only [Cutter.next, hrest, Option.toList_none, List.nil_append]
      rw [Cutter.settle_none hlatched]

/-- Calls followed by taking every item cut what feeding it all at once cuts. -/
theorem settle_run (calls : List (Call β)) (c : Cutter β φ) :
    ((run scan calls c).1 ++ ((run scan calls c).2.settle scan).1,
        ((run scan calls c).2.settle scan).2) =
      (c.feed (fed calls)).settle scan := by
  induction calls generalizing c with
  | nil => simp [run, fed, Cutter.feed]
  | cons call calls ih =>
    cases call with
    | feed s =>
      simp only [run, fed]
      rw [ih]
      simp only [Cutter.feed, List.append_assoc]
    | next =>
      simp only [run, fed, List.append_assoc]
      rw [Cutter.settle_feed_next hscan c, ← ih]

omit hscan in
/-- Taking every item is asking for one again and again. -/
theorem Cutter.drain_eq_run (n : Nat) (c : Cutter β φ) :
    c.drain scan n = run scan (List.replicate n .next) c := by
  induction n generalizing c with
  | zero => rfl
  | succ n ih =>
    rw [List.replicate_succ, run, Cutter.drain]
    rcases hnext : c.next scan with ⟨_ | i, c'⟩
    · have hdone : c'.drain scan n = ([], c') := by
        cases n with
        | zero => rfl
        | succ n => rw [Cutter.drain, Cutter.next_none hnext]
      rw [← ih, hdone]
      rfl
    · rw [← ih]
      rfl

omit hscan in
theorem fed_replicate_next (n : Nat) : fed (List.replicate n (Call.next : Call β)) = [] := by
  induction n with
  | zero => rfl
  | succ n ih => exact ih

omit hscan in
/-- The items spell the front of what was fed, when each spells the bytes it took. -/
theorem run_spells {enc : ι → List β} (henc : ∀ s i n, scan s = .item i n → enc i = s.take n)
    (calls : List (Call β)) (c : Cutter β φ) :
    (run scan calls c).1.flatMap enc ++ (run scan calls c).2.rest = c.rest ++ fed calls := by
  induction calls generalizing c with
  | nil => simp [run, fed]
  | cons call calls ih =>
    cases call with
    | feed s => simp only [run, fed, ih, Cutter.feed, List.append_assoc]
    | next =>
      simp only [run, fed, List.flatMap_append, List.append_assoc, ih]
      rcases hnext : c.next scan with ⟨_ | i, c'⟩
      · simp [Cutter.rest_of_next_none hnext]
      · obtain ⟨n, -, hitem, rfl⟩ := Cutter.next_some hnext
        simp only [Option.toList_some, List.flatMap_cons, List.flatMap_nil,
          List.append_nil, henc c.rest i n hitem]
        rw [← List.append_assoc, List.take_append_drop]

omit hscan in
/-- A fact the scanner guarantees of an item holds of all that are returned. -/
theorem run_forall {P : ι → Prop} (hP : ∀ s i n, scan s = .item i n → P i)
    (calls : List (Call β)) (c : Cutter β φ) : ∀ i ∈ (run scan calls c).1, P i := by
  induction calls generalizing c with
  | nil => intro i hi; simp [run] at hi
  | cons call calls ih =>
    cases call with
    | feed s => exact ih (c.feed s)
    | next =>
      intro i hi
      simp only [run, List.mem_append] at hi
      rcases hi with hhead | htail
      · rcases hnext : c.next scan with ⟨_ | j, c'⟩
        · simp [hnext] at hhead
        · obtain ⟨n, -, hitem, -⟩ := Cutter.next_some hnext
          rw [hnext, Option.toList_some, List.mem_singleton] at hhead
          rw [hhead]
          exact hP c.rest j n hitem
      · exact ih _ i htail

omit hscan in
theorem Cutter.settle_spells {enc : ι → List β}
    (henc : ∀ s i n, scan s = .item i n → enc i = s.take n) (c : Cutter β φ) :
    (c.settle scan).1.flatMap enc ++ (c.settle scan).2.rest = c.rest := by
  rw [Cutter.settle, Cutter.drain_eq_run, run_spells henc, fed_replicate_next, List.append_nil]

omit hscan in
theorem Cutter.settle_forall {P : ι → Prop} (hP : ∀ s i n, scan s = .item i n → P i)
    (c : Cutter β φ) : ∀ i ∈ (c.settle scan).1, P i := by
  rw [Cutter.settle, Cutter.drain_eq_run]
  exact run_forall hP _ c

omit hscan in
theorem run_of_fault {c : Cutter β φ} {f : φ} (h : c.fault = some f) (calls : List (Call β)) :
    (run scan calls c).1 = [] ∧ (run scan calls c).2.fault = some f := by
  induction calls generalizing c with
  | nil => exact ⟨rfl, h⟩
  | cons call calls ih =>
    cases call with
    | feed s => exact ih (c := c.feed s) h
    | next =>
      simp only [run, Cutter.next_of_fault h, Option.toList_none, List.nil_append]
      exact ih h

end

end Chunked
