/-
The fields an object says it supports: which names it finds, where asking raises, and that what
it supports can be built.
-/
import Packets.Query.RowCells
import Mathlib.Data.List.TakeWhile

namespace Packets.Query

open Packets.Inet
open DecimalText (isDigit value MAX_STR_DIGITS)

theorem idxOf?_append_cons {α : Type} [DecidableEq α] {a : α} {l : List α} (h : a ∉ l)
    (rest : List α) : (l ++ a :: rest).idxOf? a = some l.length := by
  induction l with
  | nil => simp [List.idxOf?_cons]
  | cons b l ih =>
    have hb : b ≠ a := fun heq => h (heq ▸ List.mem_cons_self ..)
    have hl : a ∉ l := fun hmem => h (List.mem_cons_of_mem _ hmem)
    rw [List.cons_append, List.idxOf?_cons, ih hl]
    simp [hb]

theorem isPload_iff (name : String) : isPload name ↔
    shortName name = "tcp.payload.offset".toList ∨
      shortName name = "udp.payload.offset".toList := by
  simp only [isPload, PLOAD_FIELDS, List.any_cons, List.any_nil, Bool.or_false, Bool.or_eq_true,
    beq_iff_eq]

/-- How a name is spelled that the expression matches. -/
structure OffsetName (name : String) (first last : List Char) : Prop where
  pload : isPload name
  spelled : ∃ tail, name.toList = shortName name ++ '[' :: (first ++ ':' :: (last ++ ']' :: tail))
  first : ∀ c ∈ first, isDigit c
  last : ∀ c ∈ last, isDigit c

theorem offsetRe_spelled {name : String} {first last : List Char}
    (h : offsetRe name = some (first, last)) : OffsetName name first last := by
  have hdigits (l : List Char) : ∀ c ∈ l.takeWhile isDigit, isDigit c :=
    fun c hc => List.mem_takeWhile_imp hc
  unfold offsetRe at h
  split at h
  · rename_i hpload
    split at h
    · rename_i rest hopen
      split at h
      · rename_i rest' hcolon
        have hhead : name.toList = shortName name ++ '[' :: rest := by
          rw [← hopen]
          exact (List.take_append_drop PLOAD_F_LEN name.toList).symm
        have hrest : rest = rest.takeWhile isDigit ++ ':' :: rest' := by
          rw [← hcolon, List.takeWhile_append_dropWhile]
        have hfound (tail : List Char) (htail : rest'.dropWhile isDigit = ']' :: tail) :
            OffsetName name (rest.takeWhile isDigit) (rest'.takeWhile isDigit) := by
          have hlast : rest' = rest'.takeWhile isDigit ++ ']' :: tail := by
            rw [← htail, List.takeWhile_append_dropWhile]
          exact ⟨hpload, ⟨tail, by rw [hhead, ← hlast, ← hrest]⟩, hdigits rest, hdigits rest'⟩
        split at h
        · rename_i htail
          cases h
          exact hfound _ htail
        · rename_i htail
          cases h
          exact hfound _ htail
        · cases h
      · cases h
    · cases h
  · cases h

/-- The layer reads the bounds the expression has found. -/
theorem offsets_of_spelled {name : String} {first last : List Char}
    (h : OffsetName name first last) : offsets name = intBounds first last := by
  obtain ⟨hpload, ⟨tail, hspelled⟩, hfirst, hlast⟩ := h
  have hshort : (shortName name).length = PLOAD_F_LEN ∧ ']' ∉ shortName name := by
    rcases (isPload_iff name).mp hpload with hs | hs <;> rw [hs] <;> decide
  obtain ⟨hlength, hnone⟩ := hshort
  have hne {l : List Char} (hl : ∀ c ∈ l, isDigit c) (d : Char) (hd : isDigit d = false) : d ∉ l :=
    fun hmem => DecimalText.digit_ne (hl d hmem) hd rfl
  let inner := first ++ ':' :: last
  let before := shortName name ++ '[' :: inner
  have hsplit : name.toList = before ++ ']' :: tail := by
    rw [hspelled]
    simp [before, inner]
  have hbefore : ']' ∉ before := by
    simp only [before, inner, List.mem_append, List.mem_cons, not_or]
    exact ⟨hnone, by decide, hne hfirst ']' (by decide), by decide, hne hlast ']' (by decide)⟩
  have hindex := idxOf?_append_cons hbefore tail
  have hslice : Slices.slice name.toList (PLOAD_F_LEN + 1) before.length = inner := by
    rw [hsplit, Slices.slice, List.take_left]
    have hhead : before = (shortName name ++ ['[']) ++ inner := by simp [before]
    have hlen : PLOAD_F_LEN + 1 = (shortName name ++ ['[']).length := by simp [hlength]
    rw [hhead, hlen, List.drop_left]
  have hcut : inner.splitOn ':' = [first, last] := by
    rw [List.splitOn_append_cons_self_of_not_mem (hne hfirst ':' (by decide)),
      List.splitOn_eq_singleton (hne hlast ':' (by decide))]
  unfold offsets
  rw [hsplit] at hslice ⊢
  simp only [hindex, hslice, hcut]

/-- Digits that `int()` reads. -/
def Fits (digits : List Char) : Prop := digits ≠ [] ∧ digits.length ≤ MAX_STR_DIGITS

/-- A name that is not registered, and that the expression matches, has two bounds that can be
read. -/
def BoundsFit (fields : FieldTable) (name : String) : Prop :=
  fields.contains name = false → ∀ first last, offsetRe name = some (first, last) →
    Fits first ∧ Fits last

/-- A name is registered, or spells a payload offset with its bounds in order. -/
def Supported (fields : FieldTable) (name : String) : Prop :=
  fields.contains name = true ∨ ∃ first last, offsetRe name = some (first, last) ∧
    value first < value last

theorem int_of_fits {digits : List Char} (hdigits : ∀ c ∈ digits, isDigit c) (h : Fits digits) :
    DecimalText.int digits = some (value digits : Int) := by
  unfold Fits at h
  rw [DecimalText.int_digits hdigits, if_pos h]

theorem int_of_not_fits {digits : List Char} (hdigits : ∀ c ∈ digits, isDigit c)
    (h : ¬Fits digits) : DecimalText.int digits = none := by
  unfold Fits at h
  rw [DecimalText.int_digits hdigits, if_neg h]

/-- The digits of a name that is not registered: both read, or an error. -/
theorem fieldFound_spelled {fields : FieldTable} {name : String} {first last : List Char}
    (hnot : fields.contains name = false) (hre : offsetRe name = some (first, last)) :
    (Fits first ∧ Fits last → fieldFound fields name = .ok (decide (value first < value last))) ∧
      (¬(Fits first ∧ Fits last) → fieldFound fields name = .error .valueError) := by
  obtain ⟨hpload, -, hfirst, hlast⟩ := offsetRe_spelled hre
  simp only [fieldFound, hnot, hpload, hre, Bool.not_false, Bool.and_self, if_true, groupInt]
  constructor
  · rintro ⟨hf, hl⟩
    rw [int_of_fits hfirst hf, int_of_fits hlast hl]
    simp [bind, Except.bind, pure, Except.pure]
  · intro hbad
    by_cases hf : Fits first
    · have hl : ¬Fits last := fun hl => hbad ⟨hf, hl⟩
      rw [int_of_fits hfirst hf, int_of_not_fits hlast hl]
      rfl
    · rw [int_of_not_fits hfirst hf]
      rfl

/-- One name is looked at without an error exactly when its bounds fit, and found when it is
supported. -/
theorem fieldFound_ok_iff (fields : FieldTable) (name : String) (b : Bool) :
    fieldFound fields name = .ok b ↔
      BoundsFit fields name ∧ (b = true ↔ Supported fields name) := by
  cases hreg : fields.contains name with
  | true =>
    have hfit : BoundsFit fields name := fun hnot => absurd hreg (by rw [hnot]; decide)
    have hsupported : Supported fields name := Or.inl hreg
    simp [fieldFound, hreg, hfit, hsupported, pure, Except.pure]
  | false =>
    cases hre : offsetRe name with
    | none =>
      have hfit : BoundsFit fields name := fun _ first last h => by rw [hre] at h; cases h
      have hnot : ¬Supported fields name := by
        rintro (hin | ⟨first, last, h, -⟩)
        · rw [hreg] at hin
          cases hin
        · rw [hre] at h
          cases h
      have hfound : fieldFound fields name = .ok false := by
        simp only [fieldFound, hreg, hre]
        split <;> rfl
      simp [hfound, hfit, hnot, eq_comm]
    | some bounds =>
      obtain ⟨first, last⟩ := bounds
      have hfit : BoundsFit fields name ↔ Fits first ∧ Fits last := by
        constructor
        · exact fun h => h hreg first last hre
        · rintro h - first' last' h'
          obtain ⟨rfl, rfl⟩ := Prod.mk.inj (Option.some.inj (hre.symm.trans h'))
          exact h
      have hsupported : Supported fields name ↔ value first < value last := by
        constructor
        · rintro (hin | ⟨first', last', h', hlt⟩)
          · rw [hreg] at hin
            cases hin
          · obtain ⟨rfl, rfl⟩ := Prod.mk.inj (Option.some.inj (hre.symm.trans h'))
            exact hlt
        · exact fun hlt => Or.inr ⟨first, last, hre, hlt⟩
      rw [hfit, hsupported]
      obtain ⟨hgood, hbad⟩ := fieldFound_spelled hreg hre
      by_cases hfits : Fits first ∧ Fits last
      · rw [hgood hfits]
        simp only [hfits, Except.ok.injEq, true_and, and_self]
        cases b <;> simp
      · rw [hbad hfits]
        simp [hfits]

/-- The list is looked at without an error exactly when every name is. -/
theorem fieldsSupported_ok_iff (fields : FieldTable) (names : List String) :
    (∃ b, fieldsSupported fields names = .ok b) ↔ ∀ name ∈ names, BoundsFit fields name := by
  have hone (name : String) : (∃ b, fieldFound fields name = .ok b) ↔ BoundsFit fields name := by
    constructor
    · rintro ⟨b, hb⟩
      exact ((fieldFound_ok_iff fields name b).mp hb).1
    · intro hfit
      by_cases hsupported : Supported fields name
      · exact ⟨true, (fieldFound_ok_iff fields name true).mpr ⟨hfit, by simp [hsupported]⟩⟩
      · exact ⟨false, (fieldFound_ok_iff fields name false).mpr ⟨hfit, by simp [hsupported]⟩⟩
  have hall : (∃ bs, names.mapM (fieldFound fields) = .ok bs) ↔
      ∀ name ∈ names, BoundsFit fields name := by
    rw [Mapped.exists_mapM_ok_iff]
    exact forall₂_congr fun name _ => hone name
  rw [← hall]
  unfold fieldsSupported
  cases names.mapM (fieldFound fields) with
  | error e => simp [bind, Except.bind]
  | ok bs => simp [bind, Except.bind, pure, Except.pure]

theorem fieldsSupported_true_iff (fields : FieldTable) (names : List String) :
    fieldsSupported fields names = .ok true ↔
      ∀ name ∈ names, BoundsFit fields name ∧ Supported fields name := by
  have hone (name : String) : fieldFound fields name = .ok true ↔
      BoundsFit fields name ∧ Supported fields name := by
    rw [fieldFound_ok_iff]
    simp
  have hall : fieldsSupported fields names = .ok true ↔
      ∀ name ∈ names, fieldFound fields name = .ok true := by
    unfold fieldsSupported
    constructor
    · intro h name hname
      cases hbs : names.mapM (fieldFound fields) with
      | error e => rw [hbs] at h; cases h
      | ok bs =>
        rw [hbs] at h
        have htrue : bs.all id = true := Except.ok.inj h
        obtain ⟨i, hi, rfl⟩ := List.mem_iff_getElem.mp hname
        have hread := Mapped.mapM_eq_ok_iff.mp hbs
        have hi' : i < bs.length := hread.length_eq ▸ hi
        have hget := hread.get hi hi'
        have hbit : bs[i] = true := List.all_eq_true.mp htrue _ (List.getElem_mem hi')
        simp only [List.get_eq_getElem] at hget
        rw [hget, hbit]
    · intro h
      have hbs : names.mapM (fieldFound fields) = .ok (names.map fun _ => true) :=
        Mapped.mapM_eq_ok_iff.mpr (List.forall₂_map_right_iff.mpr (List.forall₂_same.mpr h))
      rw [hbs]
      simp [bind, Except.bind, pure, Except.pure]
  rw [hall]
  exact forall₂_congr fun name _ => hone name

/-- Building describes every field that is supported. -/
theorem exists_describeAll {fields : FieldTable} {names : List String}
    (h : ∀ name ∈ names, ∃ t, fields.get? (fieldKey name) = some t) (order : List Nat) :
    ∃ r, describeAll fields order names = .ok r := by
  induction names generalizing order with
  | nil => exact ⟨(order, []), rfl⟩
  | cons name rest ih =>
    obtain ⟨t, ht⟩ := h name (List.mem_cons_self ..)
    obtain ⟨r, hr⟩ := ih (fun n hn => h n (List.mem_cons_of_mem _ hn))
      (if t ∈ order then order else order ++ [t])
    have hone : describe fields order name = .ok (if t ∈ order then order else order ++ [t],
        ⟨(if t ∈ order then order else order ++ [t]).idxOf t, name⟩) := by
      simp only [describe, ht]
    exact ⟨_, by simp only [describeAll, hone, bind, Except.bind, hr]; rfl⟩

/-- The placeholder of a payload offset field is registered. -/
theorem offering_of_pload (added : List PacketClass) {name : String} (h : isPload name) :
    ∃ t, offering added name = some t := by
  have hkey : fieldKey name = "tcp.payload.offset[x:y]" ∨
      fieldKey name = "udp.payload.offset[x:y]" := by
    unfold fieldKey
    rw [if_pos h]
    rcases (isPload_iff name).mp h with hshort | hshort
    · exact Or.inl (by rw [hshort]; decide)
    · exact Or.inr (by rw [hshort]; decide)
  have hfind : ∃ c ∈ defaultClasses, c.pfields.contains (fieldKey name) := by
    rcases hkey with hkey | hkey <;> rw [hkey]
    · exact ⟨.tcp, by decide, by decide⟩
    · exact ⟨.udp, by decide, by decide⟩
  obtain ⟨c, hc, hhas⟩ := hfind
  unfold offering
  cases hfound : (defaultClasses ++ added).reverse.find? fun c =>
      c.pfields.contains (fieldKey name) with
  | some c => exact ⟨c.ptype, rfl⟩
  | none =>
    have hmem : c ∈ (defaultClasses ++ added).reverse :=
      List.mem_reverse.mpr (List.mem_append_left _ hc)
    exact absurd hhas (List.find?_eq_none.mp hfound c hmem)

theorem offering_of_supported {added : List PacketClass} {name : String}
    (h : Supported (registered added) name) : ∃ t, offering added name = some t := by
  by_cases hpload : isPload name
  · exact offering_of_pload added hpload
  · rcases h with hreg | ⟨first, last, hre, -⟩
    · obtain ⟨t, ht⟩ := Dict.contains_iff.mp hreg
      have hkey : fieldKey name = name := by rw [fieldKey, if_neg hpload]
      exact ⟨t, by rw [← get?_registered, hkey, ht]⟩
    · exact absurd (offsetRe_spelled hre).pload hpload

theorem contains_registered (added : List PacketClass) (name : String) :
    (registered added).contains name =
      (defaultClasses ++ added).any fun c => c.pfields.contains name := by
  rw [Dict.contains, registered, get?_foldl_registerClass, Dict.get?_empty, Option.or_none,
    Option.isSome_map, Bool.eq_iff_iff, List.find?_isSome, List.any_eq_true]
  simp only [List.mem_reverse]

theorem exists_build {added : List PacketClass} {names : List String}
    (h : fieldsSupported (registered added) names = .ok true) :
    ∃ q, PcapQuery.build added names = .ok q := by
  have hsupported := (fieldsSupported_true_iff _ _).mp h
  obtain ⟨⟨order, ds⟩, hr⟩ := exists_describeAll
    (fun name hname => by
      obtain ⟨t, ht⟩ := offering_of_supported (hsupported name hname).2
      exact ⟨t, by rw [get?_registered, ht]⟩) []
  refine ⟨⟨registered added, order, ds, names⟩, ?_⟩
  simp only [PcapQuery.build, h, hr, bind, Except.bind, if_true]
  rfl

theorem supported_of_registered {fields : FieldTable} {names : List String}
    (h : ∀ name ∈ names, fields.contains name = true) : fieldsSupported fields names = .ok true :=
  (fieldsSupported_true_iff _ _).mpr fun name hname =>
    ⟨fun hnot => absurd (h name hname) (by rw [hnot]; decide), Or.inl (h name hname)⟩

end Packets.Query
