/-
Walks over a block of a buffer by offset: a primitive steps over the element at an offset,
and a loop asks it for the next offset as long as that is ahead.
-/
import Mathlib.Data.List.Basic
import Mathlib.Order.Lattice

universe u

/-- A result with the offsets that were read for it. -/
structure Reading (α : Type u) where
  value : α
  reads : List Int

namespace Reading

variable {α β : Type u} {lo hi : Int}

instance : Monad Reading where
  pure a := ⟨a, []⟩
  bind x f := ⟨(f x.value).value, x.reads ++ (f x.value).reads⟩

@[simp] theorem value_bind (x : Reading α) (f : α → Reading β) :
    (x >>= f).value = (f x.value).value := rfl

/-- Nothing is read outside `[lo, hi)`. -/
def Within (lo hi : Int) (x : Reading α) : Prop := ∀ i ∈ x.reads, lo ≤ i ∧ i < hi

theorem within_pure (a : α) : Within lo hi (pure a) := fun _ hi => absurd hi List.not_mem_nil

theorem Within.bind {x : Reading α} {f : α → Reading β} (hx : Within lo hi x)
    (hf : Within lo hi (f x.value)) : Within lo hi (x >>= f) := by
  intro i hi
  rcases List.mem_append.mp hi with hi | hi
  · exact hx i hi
  · exact hf i hi

end Reading

namespace OffsetWalk

variable {α : Type u}

/-- An element that a loop has stepped over, from `start` to `stop`. -/
structure Visit (α : Type u) where
  start : Int
  stop : Int
  element : α
deriving DecidableEq

/-- The loop: the elements visited and the offset it stops at, or `none` out of fuel. -/
def walk (next : Int → Int × α) : Nat → Int → Option (List (Visit α) × Int)
  | 0, _ => none
  | fuel + 1, o =>
    if (next o).1 < 0 ∨ (next o).1 ≤ o then some ([], o)
    else
      (walk next fuel (next o).1).map fun run => (⟨o, (next o).1, (next o).2⟩ :: run.1, run.2)

/-- Each element starts where the one before it stopped, and holds something. -/
def Consecutive : Int → List (Visit α) → Int → Prop
  | o, [], stop => o = stop
  | o, v :: visits, stop => v.start = o ∧ o < v.stop ∧ Consecutive v.stop visits stop

theorem Consecutive.start_ge {o stop : Int} {visits : List (Visit α)}
    (h : Consecutive o visits stop) : ∀ v ∈ visits, o ≤ v.start := by
  induction visits generalizing o with
  | nil => exact fun v hv => absurd hv List.not_mem_nil
  | cons v visits ih =>
    obtain ⟨hstart, hlt, hrest⟩ := h
    refine List.forall_mem_cons.mpr ⟨hstart.ge, fun w hw => ?_⟩
    exact hlt.le.trans (ih hrest w hw)

theorem Consecutive.disjoint {o stop : Int} {visits : List (Visit α)}
    (h : Consecutive o visits stop) : visits.Pairwise fun v w => v.stop ≤ w.start := by
  induction visits generalizing o with
  | nil => exact List.Pairwise.nil
  | cons v visits ih => exact List.pairwise_cons.mpr ⟨h.2.2.start_ge, ih h.2.2⟩

/-- The lengths that are declared lead from an offset to exactly `e`. -/
inductive Tiles (declared : Int → Option Int) (e : Int) : Int → Prop
  | done : Tiles declared e e
  | step {o next : Int} : declared o = some next → Tiles declared e next → Tiles declared e o

/-- How a primitive answers for the element whose end is declared: the end, unless that is
past `e`, which is then all it can say, if anything. -/
structure Follows (declared : Int → Option Int) (e : Int) (next : Int → Int × α) : Prop where
  ahead : ∀ {o claimed}, declared o = some claimed → 0 ≤ o ∧ o < claimed
  answers : ∀ o, (next o).1 = -1 ∨
    o < (next o).1 ∧ ∃ claimed, declared o = some claimed ∧ (next o).1 = min claimed e
  fits : ∀ {o claimed}, declared o = some claimed → claimed ≤ e → (next o).1 = claimed

section

variable {declared : Int → Option Int} {e : Int} {next : Int → Int × α}

theorem Follows.stops_or_steps (h : Follows declared e next) (o : Int) :
    (next o).1 = -1 ∨ 0 ≤ o ∧ o < (next o).1 ∧ (next o).1 ≤ e := by
  rcases h.answers o with hstop | ⟨hlt, claimed, hclaimed, hnext⟩
  · exact .inl hstop
  · exact .inr ⟨(h.ahead hclaimed).1, hlt, by omega⟩

/-- The loop ends, having visited consecutive elements. -/
theorem Follows.walk_eq (h : Follows declared e next) {fuel : Nat} {o : Int}
    (hfuel : e - o < fuel) (hpos : 0 < fuel) :
    ∃ visits stop, walk next fuel o = some (visits, stop) ∧ Consecutive o visits stop ∧
      (∀ v ∈ visits, 0 ≤ v.start ∧ v.start < v.stop ∧ v.stop ≤ e ∧
        next v.start = (v.stop, v.element)) ∧ (next stop).1 = -1 := by
  induction fuel generalizing o with
  | zero => omega
  | succ fuel ih =>
    rcases h.stops_or_steps o with hstop | ⟨hzero, hlt, hle⟩
    · refine ⟨[], o, ?_, rfl, fun v hv => absurd hv List.not_mem_nil, hstop⟩
      rw [walk, if_pos (by omega)]
    · obtain ⟨visits, stop, hwalk, hcons, hvisits, hlast⟩ :=
        ih (o := (next o).1) (by omega) (by omega)
      refine ⟨⟨o, (next o).1, (next o).2⟩ :: visits, stop, ?_, ⟨rfl, hlt, hcons⟩,
        List.forall_mem_cons.mpr ⟨⟨hzero, hlt, hle, rfl⟩, hvisits⟩, hlast⟩
      rw [walk, if_neg (by omega), hwalk, Option.map_some]

/-- A loop that left off earlier has visited the first of the elements. -/
theorem visited_prefix {visits front : List (Visit α)} {o stop mid : Int}
    (hcons : Consecutive o visits stop)
    (hvisits : ∀ v ∈ visits, next v.start = (v.stop, v.element)) (hlast : (next stop).1 = -1)
    (hfront : Consecutive o front mid) (hzero : 0 ≤ o)
    (hsteps : ∀ v ∈ front, next v.start = (v.stop, v.element)) : front <+: visits := by
  induction front generalizing o visits with
  | nil => exact List.nil_prefix
  | cons v front ih =>
    obtain ⟨hstart, hlt, hfront⟩ := hfront
    have hv := hsteps v List.mem_cons_self
    rw [hstart] at hv
    cases visits with
    | nil =>
      cases hcons
      rw [hv] at hlast
      omega
    | cons w visits =>
      obtain ⟨hwstart, -, hcons⟩ := hcons
      have hw := hvisits w List.mem_cons_self
      rw [hwstart, hv] at hw
      obtain ⟨hstops, helements⟩ := Prod.mk.inj hw
      have hsame : v = w := by
        cases v
        cases w
        simp_all
      rw [hsame, List.prefix_cons_inj]
      rw [hsame] at hfront
      exact ih hcons (fun x hx => hvisits x (List.mem_cons_of_mem _ hx)) hfront
        (by rw [← hstops]; omega) fun x hx => hsteps x (List.mem_cons_of_mem _ hx)

theorem Follows.le_of_tiles (h : Follows declared e next) {o : Int} (ht : Tiles declared e o) :
    o ≤ e := by
  induction ht with
  | done => exact le_refl e
  | step hdeclared _ ih => exact (h.ahead hdeclared).2.le.trans ih

/-- The declared lengths tile the block exactly when the loop stops at its end and has cut
no element short. -/
theorem Follows.tiles_iff (h : Follows declared e next) {visits : List (Visit α)} {o stop : Int}
    (hcons : Consecutive o visits stop) (hzero : ∀ v ∈ visits, 0 ≤ v.start)
    (hvisits : ∀ v ∈ visits, next v.start = (v.stop, v.element)) (hlast : (next stop).1 = -1) :
    Tiles declared e o ↔ stop = e ∧ ∀ v ∈ visits, declared v.start = some v.stop := by
  constructor
  · intro htiles
    induction visits generalizing o with
    | nil =>
      cases hcons
      refine ⟨?_, fun v hv => absurd hv List.not_mem_nil⟩
      cases htiles with
      | done => rfl
      | step hdeclared htail =>
        have hfits := h.fits hdeclared (h.le_of_tiles htail)
        have := h.ahead hdeclared
        omega
    | cons v visits ih =>
      obtain ⟨rfl, hlt, hcons⟩ := hcons
      obtain ⟨hv, hvisits⟩ := List.forall_mem_cons.mp hvisits
      obtain ⟨hfirst, hzero⟩ := List.forall_mem_cons.mp hzero
      have hstop : (next v.start).1 = v.stop := congrArg Prod.fst hv
      cases htiles with
      | done =>
        have := h.stops_or_steps v.start
        omega
      | step hdeclared htail =>
        have hfits := h.fits hdeclared (h.le_of_tiles htail)
        rw [hstop] at hfits
        rw [← hfits] at htail hdeclared
        obtain ⟨hend, hrest⟩ := ih hcons hzero hvisits htail
        exact ⟨hend, List.forall_mem_cons.mpr ⟨hdeclared, hrest⟩⟩
  · rintro ⟨rfl, hdeclared⟩
    induction visits generalizing o with
    | nil =>
      cases hcons
      exact .done
    | cons v visits ih =>
      obtain ⟨rfl, -, hcons⟩ := hcons
      obtain ⟨hfirst, hrest⟩ := List.forall_mem_cons.mp hdeclared
      obtain ⟨-, hzero⟩ := List.forall_mem_cons.mp hzero
      obtain ⟨-, hvisits⟩ := List.forall_mem_cons.mp hvisits
      exact .step hfirst (ih hcons hzero hvisits hrest)

end

end OffsetWalk
