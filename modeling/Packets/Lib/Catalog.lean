/-
Catalogues of named objects, kept in step with a configuration.

A load leaves an unchanged object alone, refills in place the one whose section changed, which
continues its version line, builds the new and forgets those no longer named.
-/
import Packets.Lib.Dict

namespace Catalog

universe u v w x

variable {N : Type u} {S : Type v} {F : Type w} {A : Type x}

/-- How one kind of object is built from a section. -/
structure Kind (S : Type v) (F : Type w) (A : Type x) where
  freeze : S → F
  new : A
  clear : A → A
  /-- Add every entry of a section; `none` when one is refused. -/
  fill : S → A → Option A

structure Table (N : Type u) (F : Type w) (A : Type x) where
  objects : Dict N A
  /-- The section each object was last built from. -/
  snapshots : Dict N F

variable [DecidableEq N] [DecidableEq F]

def empty : Table N F A := ⟨Dict.empty, Dict.empty⟩

namespace Table

def get? (t : Table N F A) (name : N) : Option A := t.objects.get? name

def put (t : Table N F A) (name : N) (a : A) (snapshot : F) : Table N F A :=
  ⟨t.objects.set name a, t.snapshots.set name snapshot⟩

/-- Forget a set of names. -/
def drop (t : Table N F A) (names : List N) : Table N F A :=
  ⟨t.objects.filter fun name _ => name ∉ names, t.snapshots.filter fun name _ => name ∉ names⟩

end Table

variable (k : Kind S F A)

/-- What becomes of the object of one section: `none` when an entry is refused. -/
def refreshed (held : Option A) (snapshot : Option F) (sec : S) : Option A :=
  match held with
  | none => k.fill sec k.new
  | some a => if snapshot = some (k.freeze sec) then some a else k.fill sec (k.clear a)

/-- Create or refresh one object, counting the change. -/
def refresh (st : Table N F A × Nat) (entry : N × S) : Option (Table N F A × Nat) :=
  match st.1.get? entry.1 with
  | some a =>
    if st.1.snapshots.get? entry.1 = some (k.freeze entry.2) then some st
    else
      (k.fill entry.2 (k.clear a)).map fun a' => (st.1.put entry.1 a' (k.freeze entry.2), st.2 + 1)
  | none =>
    (k.fill entry.2 k.new).map fun a' => (st.1.put entry.1 a' (k.freeze entry.2), st.2 + 1)

/-- Make a table match a configuration, counting what changed. -/
def load (wanted : Dict N S) (t : Table N F A) : Option (Table N F A × Nat) :=
  (wanted.entries.foldlM (refresh k) (t, 0)).map fun st =>
    let gone := st.1.objects.keys.filter fun name => name ∉ wanted.keys
    (st.1.drop gone, st.2 + gone.length)

variable {k}

theorem refresh_spec {st st' : Table N F A × Nat} {name : N} {sec : S}
    (h : refresh k st (name, sec) = some st') :
    (∃ a, refreshed k (st.1.get? name) (st.1.snapshots.get? name) sec = some a ∧
        st'.1.get? name = some a) ∧
      st'.1.snapshots.get? name = some (k.freeze sec) ∧
      (∀ other, other ≠ name → st'.1.get? other = st.1.get? other ∧
        st'.1.snapshots.get? other = st.1.snapshots.get? other) ∧
      st.2 ≤ st'.2 ∧ (st'.2 = st.2 → st' = st) := by
  unfold refresh at h
  unfold refreshed
  cases hheld : st.1.get? name with
  | none =>
    simp only [hheld, Option.map_eq_some_iff] at h
    obtain ⟨a, ha, rfl⟩ := h
    refine ⟨⟨a, ha, by simp [Table.put, Table.get?]⟩, by simp [Table.put], ?_,
      Nat.le_succ _, fun heq => absurd heq (Nat.succ_ne_self _)⟩
    intro other hne
    simp [Table.put, Table.get?, hne]
  | some a =>
    simp only [hheld] at h
    split at h
    · rename_i hsame
      cases h
      refine ⟨⟨a, by simp [hsame], hheld⟩, hsame, fun _ _ => ⟨rfl, rfl⟩,
        Nat.le_refl _, fun _ => rfl⟩
    · rename_i hmoved
      simp only [Option.map_eq_some_iff] at h
      obtain ⟨a', ha', rfl⟩ := h
      refine ⟨⟨a', by simpa [hmoved] using ha', by simp [Table.put, Table.get?]⟩,
        by simp [Table.put], ?_, Nat.le_succ _,
        fun heq => absurd heq (Nat.succ_ne_self _)⟩
      intro other hne
      simp [Table.put, Table.get?, hne]

/-- A pass over distinct sections treats each object on its own. -/
theorem foldlM_refresh_spec {entries : List (N × S)} (hnodup : (entries.map Prod.fst).Nodup)
    {st st' : Table N F A × Nat} (h : entries.foldlM (refresh k) st = some st') :
    (∀ name sec, (name, sec) ∈ entries →
        (∃ a, refreshed k (st.1.get? name) (st.1.snapshots.get? name) sec = some a ∧
          st'.1.get? name = some a) ∧
        st'.1.snapshots.get? name = some (k.freeze sec)) ∧
      (∀ name, name ∉ entries.map Prod.fst → st'.1.get? name = st.1.get? name ∧
        st'.1.snapshots.get? name = st.1.snapshots.get? name) ∧
      st.2 ≤ st'.2 ∧ (st'.2 = st.2 → st' = st) := by
  induction entries generalizing st with
  | nil =>
    cases h
    exact ⟨fun _ _ hmem => absurd hmem (by simp), fun _ _ => ⟨rfl, rfl⟩,
      Nat.le_refl _, fun _ => rfl⟩
  | cons entry entries ih =>
    obtain ⟨name, sec⟩ := entry
    simp only [List.map_cons, List.nodup_cons] at hnodup
    simp only [List.foldlM_cons, Option.bind_eq_bind, Option.bind_eq_some_iff] at h
    obtain ⟨mid, hmid, hrest⟩ := h
    obtain ⟨hobj, hsnap, hother, hle, hsame⟩ := refresh_spec hmid
    obtain ⟨hin, hout, hle', hsame'⟩ := ih hnodup.2 hrest
    obtain ⟨hkeep, hkeepSnap⟩ := hout name hnodup.1
    refine ⟨?_, ?_, Nat.le_trans hle hle', ?_⟩
    · intro other sec' hmem
      rcases List.mem_cons.mp hmem with heq | hlater
      · cases heq
        rw [hkeep, hkeepSnap]
        exact ⟨hobj, hsnap⟩
      · have hne : other ≠ name := by
          rintro rfl
          exact hnodup.1 (List.mem_map.mpr ⟨(other, sec'), hlater, rfl⟩)
        obtain ⟨heq, heqSnap⟩ := hother other hne
        rw [← heq, ← heqSnap]
        exact hin other sec' hlater
    · intro other hnot
      simp only [List.map_cons, List.mem_cons, not_or] at hnot
      obtain ⟨heq, heqSnap⟩ := hother other hnot.1
      obtain ⟨heq', heqSnap'⟩ := hout other hnot.2
      exact ⟨heq'.trans heq, heqSnap'.trans heqSnap⟩
    · intro hcount
      have hmid' : mid = st := hsame (by omega)
      rw [hsame' (by omega), hmid']

/-- A load builds each wanted object from the one held and forgets the others. -/
theorem load_spec {wanted : Dict N S} {t t' : Table N F A} {changed : Nat}
    (h : load k wanted t = some (t', changed)) :
    (∀ name sec, wanted.get? name = some sec →
        (∃ a, refreshed k (t.get? name) (t.snapshots.get? name) sec = some a ∧
          t'.get? name = some a) ∧
        t'.snapshots.get? name = some (k.freeze sec)) ∧
      (∀ name, wanted.get? name = none → t'.get? name = none) := by
  unfold load at h
  simp only [Option.map_eq_some_iff, Prod.mk.injEq] at h
  obtain ⟨st, hst, rfl, -⟩ := h
  obtain ⟨hin, -, -, -⟩ := foldlM_refresh_spec wanted.nodup hst
  constructor
  · intro name sec hsec
    obtain ⟨⟨a, ha, hobj⟩, hsnap⟩ := hin name sec (Dict.mem_entries_iff.mpr hsec)
    have hkey : name ∈ wanted.keys := Dict.mem_keys_iff.mpr ⟨sec, hsec⟩
    refine ⟨⟨a, ha, ?_⟩, ?_⟩
    · simp only [Table.drop, Table.get?, Dict.get?_filter]
      rw [Table.get?] at hobj
      simp [hobj, hkey]
    · simp only [Table.drop, Dict.get?_filter]
      simp [hsnap, hkey]
  · intro name hnone
    have hkey : name ∉ wanted.keys := by
      intro hmem
      obtain ⟨sec, hsec⟩ := Dict.mem_keys_iff.mp hmem
      rw [hnone] at hsec
      exact absurd hsec (by simp)
    simp only [Table.drop, Table.get?, Dict.get?_filter, Option.filter_eq_none_iff]
    intro a ha
    simp only [List.mem_filter, hkey, not_false_eq_true, decide_true, and_true, not_not,
      decide_eq_true_eq]
    exact Dict.mem_keys_iff.mpr ⟨a, ha⟩

/-- A load that counts no change leaves every object as it was. -/
theorem load_unchanged {wanted : Dict N S} {t t' : Table N F A}
    (h : load k wanted t = some (t', 0)) (name : N) : t'.get? name = t.get? name := by
  unfold load at h
  simp only [Option.map_eq_some_iff, Prod.mk.injEq] at h
  obtain ⟨st, hst, rfl, hcount⟩ := h
  obtain ⟨-, -, -, hsame⟩ := foldlM_refresh_spec wanted.nodup hst
  have hst' : st = (t, 0) := hsame (by simp only; omega)
  have hgone : st.1.objects.keys.filter (fun name => decide (name ∉ wanted.keys)) = [] :=
    List.length_eq_zero_iff.mp (by omega)
  rw [hgone, hst']
  simp only [Table.drop, Table.get?, Dict.get?_filter]
  cases t.objects.get? name <;> simp

/-- One object became the other by mutations that each moved its version. -/
def Evolves (version : A → Nat) (a b : A) : Prop :=
  version a ≤ version b ∧ (version a = version b → a = b)

theorem Evolves.refl (version : A → Nat) (a : A) : Evolves version a a :=
  ⟨Nat.le_refl _, fun _ => rfl⟩

theorem Evolves.trans {version : A → Nat} {a b c : A} (h : Evolves version a b)
    (h' : Evolves version b c) : Evolves version a c := by
  refine ⟨Nat.le_trans h.1 h'.1, fun heq => ?_⟩
  have hab : a = b := h.2 (by have := h.1; have := h'.1; omega)
  have hbc : b = c := h'.2 (by have := h.1; have := h'.1; omega)
  rw [hab, hbc]

/-- Additions that each move the version by one. -/
theorem version_foldlM {B : Type} (version : A → Nat) {add : A → B → Option A}
    (hadd : ∀ a b a', add a b = some a' → version a' = version a + 1) {entries : List B}
    {a a' : A} (h : entries.foldlM add a = some a') : version a' = version a + entries.length := by
  induction entries generalizing a with
  | nil =>
    cases h
    rfl
  | cons b entries ih =>
    simp only [List.foldlM_cons, Option.bind_eq_bind, Option.bind_eq_some_iff] at h
    obtain ⟨mid, hmid, hrest⟩ := h
    rw [ih hrest, hadd a b mid hmid, List.length_cons]
    omega

/-- Refilling continues the version line when clearing moves the version of an
object that had anything to clear. -/
theorem evolves_refill {B : Type} {version : A → Nat} {add : A → B → Option A}
    {clear : A → A} (hadd : ∀ a b a', add a b = some a' → version a' = version a + 1)
    (hle : ∀ a, version a ≤ version (clear a))
    (hsame : ∀ a, version (clear a) = version a → clear a = a) {entries : List B}
    {a a' : A} (h : entries.foldlM add (clear a) = some a') : Evolves version a a' := by
  have hversion := version_foldlM version hadd h
  have hcleared := hle a
  refine ⟨by omega, fun heq => ?_⟩
  have hnil : entries = [] := List.length_eq_zero_iff.mp (by omega)
  subst hnil
  cases h
  exact (hsame a (by omega)).symm

/-- While an object stays defined, a load continues its version line. -/
theorem load_evolves {version : A → Nat}
    (hfill : ∀ sec a a', k.fill sec (k.clear a) = some a' → Evolves version a a')
    {wanted : Dict N S} {t t' : Table N F A} {changed : Nat}
    (h : load k wanted t = some (t', changed)) {name : N} {a a' : A} (ha : t.get? name = some a)
    (ha' : t'.get? name = some a') : Evolves version a a' := by
  obtain ⟨hin, hout⟩ := load_spec h
  cases hsec : wanted.get? name with
  | none =>
    rw [hout name hsec] at ha'
    exact absurd ha' (by simp)
  | some sec =>
    obtain ⟨⟨b, hb, hobj⟩, -⟩ := hin name sec hsec
    rw [ha', Option.some.injEq] at hobj
    subst hobj
    rw [ha] at hb
    simp only [refreshed] at hb
    split at hb
    · cases hb
      exact Evolves.refl version a
    · exact hfill sec a a' hb

/-- A pass succeeds when each section can be taken by the object it is for. -/
theorem foldlM_refresh_isSome {entries : List (N × S)}
    (hnodup : (entries.map Prod.fst).Nodup) {st : Table N F A × Nat}
    (h : ∀ name sec, (name, sec) ∈ entries →
      (refreshed k (st.1.get? name) (st.1.snapshots.get? name) sec).isSome) :
    (entries.foldlM (refresh k) st).isSome := by
  induction entries generalizing st with
  | nil => rfl
  | cons entry entries ih =>
    obtain ⟨name, sec⟩ := entry
    simp only [List.map_cons, List.nodup_cons] at hnodup
    obtain ⟨mid, hmid⟩ : ∃ mid, refresh k st (name, sec) = some mid := by
      apply Option.isSome_iff_exists.mp
      have hhead := h name sec List.mem_cons_self
      unfold refreshed at hhead
      unfold refresh
      cases hheld : st.1.get? name with
      | none => simpa [hheld] using hhead
      | some a =>
        by_cases hsame : st.1.snapshots.get? name = some (k.freeze sec)
        · simp [hsame]
        · simpa [hheld, hsame] using hhead
    obtain ⟨-, -, hother, -, -⟩ := refresh_spec hmid
    rw [List.foldlM_cons, hmid]
    apply ih hnodup.2
    intro other sec' hmem
    have hne : other ≠ name := by
      rintro rfl
      exact hnodup.1 (List.mem_map.mpr ⟨(other, sec'), hmem, rfl⟩)
    rw [(hother other hne).1, (hother other hne).2]
    exact h other sec' (List.mem_cons_of_mem _ hmem)

theorem load_isSome {wanted : Dict N S} {t : Table N F A}
    (h : ∀ name sec, wanted.get? name = some sec →
      (refreshed k (t.get? name) (t.snapshots.get? name) sec).isSome) :
    (load k wanted t).isSome := by
  unfold load
  rw [Option.isSome_map]
  apply foldlM_refresh_isSome wanted.nodup
  intro name sec hmem
  exact h name sec (Dict.mem_entries_iff.mp hmem)

/-- A pass over sections the objects were built from does nothing. -/
theorem foldlM_refresh_still {entries : List (N × S)} {st : Table N F A × Nat}
    (h : ∀ name sec, (name, sec) ∈ entries → ∃ a, st.1.get? name = some a ∧
      st.1.snapshots.get? name = some (k.freeze sec)) :
    entries.foldlM (refresh k) st = some st := by
  induction entries with
  | nil => rfl
  | cons entry entries ih =>
    obtain ⟨name, sec⟩ := entry
    obtain ⟨a, ha, hsnap⟩ := h name sec List.mem_cons_self
    have hhead : refresh k st (name, sec) = some st := by simp only [refresh, ha, hsnap, ↓reduceIte]
    rw [List.foldlM_cons, hhead]
    exact ih fun other sec' hmem => h other sec' (List.mem_cons_of_mem _ hmem)

/-- A load whose objects are all wanted, and from their own sections, counts nothing. -/
theorem load_still {wanted : Dict N S} {t t' : Table N F A} {changed : Nat}
    (hload : load k wanted t = some (t', changed))
    (hwanted : ∀ name sec, wanted.get? name = some sec → ∃ a, t.get? name = some a ∧
      t.snapshots.get? name = some (k.freeze sec))
    (hgone : ∀ name, wanted.get? name = none → t.get? name = none) : changed = 0 := by
  have hpass : wanted.entries.foldlM (refresh k) (t, 0) = some (t, 0) :=
    foldlM_refresh_still fun name sec hmem => hwanted name sec (Dict.mem_entries_iff.mp hmem)
  have hkeys : t.objects.keys.filter (fun name => decide (name ∉ wanted.keys)) = [] := by
    apply List.filter_eq_nil_iff.mpr
    intro name hmem
    obtain ⟨a, ha⟩ := Dict.mem_keys_iff.mp hmem
    simp only [decide_eq_true_eq, not_not]
    cases hsec : wanted.get? name with
    | none =>
      have hnone := hgone name hsec
      rw [Table.get?, ha] at hnone
      exact absurd hnone (by simp)
    | some sec => exact Dict.mem_keys_iff.mpr ⟨sec, hsec⟩
  unfold load at hload
  simp only [hpass, hkeys, Option.map_some, Option.some.injEq, Prod.mk.injEq,
    List.length_nil] at hload
  exact hload.2.symm

/-- A load counts something exactly when some name then stands for something else,
provided that refilling from another section never gives back the same object. -/
theorem load_counts_iff {wanted : Dict N S} {t t' : Table N F A} {changed : Nat}
    (hload : load k wanted t = some (t', changed))
    (hmoves : ∀ name sec a a', wanted.get? name = some sec → t.get? name = some a →
      t.snapshots.get? name ≠ some (k.freeze sec) → k.fill sec (k.clear a) = some a' → a' ≠ a) :
    changed ≠ 0 ↔ ∃ name, t'.get? name ≠ t.get? name := by
  constructor
  · intro hchanged
    by_contra hsame
    simp only [not_exists, ne_eq, not_not] at hsame
    obtain ⟨hin, hout⟩ := load_spec hload
    apply hchanged
    apply load_still hload
    · intro name sec hsec
      obtain ⟨⟨a, ha, hobj⟩, -⟩ := hin name sec hsec
      rw [hsame name] at hobj
      refine ⟨a, hobj, ?_⟩
      by_contra hsnap
      rw [hobj, refreshed] at ha
      simp only [hsnap, ↓reduceIte] at ha
      exact hmoves name sec a a hsec hobj hsnap ha rfl
    · intro name hnone
      rw [← hsame name]
      exact hout name hnone
  · rintro ⟨name, hne⟩ hzero
    subst hzero
    exact hne (load_unchanged hload name)

section

universe y

variable {B : Type y}

/-- The table of what a view shows of each object. -/
def Table.view (f : A → B) (t : Table N F A) : Table N F B :=
  ⟨t.objects.mapValues fun _ => f, t.snapshots⟩

omit [DecidableEq F] in
@[simp] theorem Table.get?_view (f : A → B) (t : Table N F A) (name : N) :
    (t.view f).get? name = (t.get? name).map f :=
  Dict.get?_mapValues _ _ _

/-- One kind is what a view shows of another: each operation shows the same before and
after the view. -/
structure Kind.Shows (k : Kind S F A) (k' : Kind S F B) (f : A → B) : Prop where
  freeze : k.freeze = k'.freeze
  new : f k.new = k'.new
  clear : ∀ a, f (k.clear a) = k'.clear (f a)
  fill : ∀ sec a, (k.fill sec a).map f = k'.fill sec (f a)

variable {k' : Kind S F B} {f : A → B}

end

end Catalog
