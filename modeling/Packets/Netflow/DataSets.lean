/-
Data sets built from records are read back, where what stops the reader is the padding, told
from a record by its length, which variable-length fields do not fix.
-/
import Packets.Netflow.Text
import Packets.Netflow.Unedited
import Packets.Rib.AddressText

namespace Packets.Netflow

/-- Some bytes are as long as the field says. -/
def TemplateField.Takes (f : TemplateField) (length : Nat) : Prop :=
  f.variableLength = true ∨ length = f.fieldLength

/-- An address of the length its type asks for as text, and any other as bytes. -/
def AddressOf (f : TemplateField) (width : Nat) (text : Bytes → List Char) (v : Value) : Prop :=
  ∃ s, f.Takes s.length ∧ v = if s.length = width then .text (text s) else .raw s

/-- A value of the field's own type, in the one form there is. -/
def Canonical (f : TemplateField) (v : Value) : Prop :=
  match f.dataType with
  | .unsigned => ∃ n, v = .int n
  | .ipv4 => AddressOf f 4 (fun s => (inetNtop4 s).toList) v
  | .ipv6 => AddressOf f 16 (fun s => (inetNtop6 s).toList) v
  | .mac => AddressOf f 6 decodeMac v
  | .string => ∃ text, v = .text text ∧ text.getLast? ≠ some '\x00'
  | .bytes => ∃ s, f.Takes s.length ∧ v = .raw s

/-- The bytes of a field: a fixed one is filled with zeros. -/
def filled (f : TemplateField) (encoded : Bytes) : Bytes :=
  if f.variableLength then encoded
  else encoded ++ List.replicate (f.fieldLength - encoded.length) 0

theorem encodeValue_eq_some {coerce : Coercion} {f : TemplateField} {v : Value} {s : Bytes}
    (h : encodeValue coerce f v = some s) :
    ∃ encoded, encodeRaw coerce f v = some encoded ∧
      ∀ original, Slot.Fits ⟨f, filled f encoded, original⟩ ∧
        s = Slot.wire ⟨f, filled f encoded, original⟩ := by
  rw [encodeValue] at h
  cases hraw : encodeRaw coerce f v with
  | none =>
    rw [hraw] at h
    cases h
  | some encoded =>
    rw [hraw] at h
    refine ⟨encoded, rfl, fun original => ?_⟩
    dsimp only at h
    cases hvariable : f.variableLength with
    | true =>
      rw [hvariable, if_pos rfl] at h
      split at h
      · cases h
      next hlong =>
        cases h
        simp only [Slot.Fits, Slot.wire, filled, hvariable, ↓reduceIte]
        exact ⟨Nat.not_lt.mp hlong, trivial⟩
    | false =>
      rw [hvariable, if_neg Bool.false_ne_true] at h
      split at h
      · cases h
      next hlong =>
        cases h
        simp only [Slot.Fits, Slot.wire, filled, hvariable, Bool.false_eq_true, ↓reduceIte,
          List.length_append, List.length_replicate]
        exact ⟨by omega, trivial⟩

theorem filled_of_takes {f : TemplateField} {s : Bytes} (h : f.Takes s.length) :
    filled f s = s := by
  rw [filled]
  rcases h with hvariable | hlength
  · rw [if_pos hvariable]
  · rw [hlength, Nat.sub_self, List.replicate_zero, List.append_nil, ite_self]

theorem hexByte_spells (b : UInt8) :
    ':' ∉ hexByte b ∧ (if (hexByte b).length = 2 then
      ((hexByte b).mapM hexDigit?).map fun digits =>
        UInt8.ofNat (digits.foldl (fun n d => n * 16 + d) 0) else none) = some b := by
  have hall : ∀ k < 256, ':' ∉ hexByte (UInt8.ofNat k) ∧
      (if (hexByte (UInt8.ofNat k)).length = 2 then
        ((hexByte (UInt8.ofNat k)).mapM hexDigit?).map fun digits =>
          UInt8.ofNat (digits.foldl (fun n d => n * 16 + d) 0) else none) =
        some (UInt8.ofNat k) := by decide +kernel
  have h := hall b.toNat b.toNat_lt
  rwa [UInt8.ofNat_toNat] at h

theorem encodeMac_decodeMac {s : Bytes} (h : s ≠ []) : encodeMac (decodeMac s) = some s := by
  have hsplit : (decodeMac s).splitOn ':' = s.map hexByte := by
    refine List.splitOn_intercalate ':' ?_ (by simpa using h)
    intro part hpart
    obtain ⟨b, -, rfl⟩ := List.mem_map.mp hpart
    exact (hexByte_spells b).1
  rw [encodeMac, hsplit, List.mapM_map, Mapped.mapM_eq_some_iff]
  exact List.forall₂_same.mpr fun b _ => (hexByte_spells b).2

/-- An address is encoded to its bytes. -/
theorem AddressOf.filled {f : TemplateField} {width : Nat} {text : Bytes → List Char} {v : Value}
    {encoded : Bytes} (h : AddressOf f width text v)
    (htext : ∀ s, s.length = width → v = .text (text s) → encoded = s)
    (hraw : ∀ s, v = .raw s → encoded = s) :
    (if (Netflow.filled f encoded).length = width then
      Value.text (text (Netflow.filled f encoded)) else .raw (Netflow.filled f encoded)) = v := by
  obtain ⟨s, htakes, hv⟩ := h
  have hencoded : encoded = s := by
    by_cases hwidth : s.length = width
    · rw [if_pos hwidth] at hv
      exact htext s hwidth hv
    · rw [if_neg hwidth] at hv
      exact hraw s hv
  rw [hencoded, filled_of_takes htakes, hv]

/-- A value of the field's type is decoded from what it is encoded to. -/
theorem decodeValue_filled {coerce : Coercion} {f : TemplateField} {v : Value} {encoded : Bytes}
    (h : Canonical f v) (hencode : encodeRaw coerce f v = some encoded) :
    decodeValue f (filled f encoded) = v := by
  have hraw : ∀ s, v = .raw s → encoded = s := by
    rintro s rfl
    exact (Option.some.inj hencode).symm
  rw [Canonical] at h
  rw [decodeValue]
  cases htype : f.dataType with
  | unsigned =>
    rw [htype] at h
    obtain ⟨n, rfl⟩ := h
    have htakes : f.Takes (if f.variableLength then byteLength n else f.fieldLength) := by
      cases hvariable : f.variableLength with
      | true => exact Or.inl hvariable
      | false => exact Or.inr rfl
    simp only [encodeRaw, htype, ↓reduceIte] at hencode
    generalize (if f.variableLength then byteLength n else f.fieldLength) = width at hencode htakes
    split at hencode
    next hfits =>
      cases hencode
      dsimp only
      rw [filled_of_takes (by rwa [BigEndian.length_ofNat]), BigEndian.toNat_ofNat hfits]
    next => cases hencode
  | ipv4 =>
    rw [htype] at h
    refine AddressOf.filled h ?_ hraw
    rintro s hs rfl
    simp only [encodeRaw, htype, inetPton4_inetNtop4 hs] at hencode
    exact (Option.some.inj hencode).symm
  | ipv6 =>
    rw [htype] at h
    refine AddressOf.filled h ?_ hraw
    rintro s hs rfl
    simp only [encodeRaw, htype, inetPton6_inetNtop6 hs] at hencode
    exact (Option.some.inj hencode).symm
  | mac =>
    rw [htype] at h
    refine AddressOf.filled h ?_ hraw
    rintro s hs rfl
    have hne : s ≠ [] := by
      rintro rfl
      exact absurd hs (by decide)
    simp only [encodeRaw, htype, encodeMac_decodeMac hne] at hencode
    exact (Option.some.inj hencode).symm
  | string =>
    rw [htype] at h
    obtain ⟨text, rfl, hlast⟩ := h
    simp only [encodeRaw, htype, Option.some.injEq] at hencode
    have hencoded : encoded = Utf8.encode text := hencode.symm
    dsimp only
    rw [filled, hencoded]
    split
    · have hzeros := decodeString_zeros (getLast?_encode hlast) 0
      rw [List.replicate_zero, List.append_nil] at hzeros
      rw [hzeros, decodeText_encode]
    · rw [decodeString_zeros (getLast?_encode hlast), decodeText_encode]
  | bytes =>
    rw [htype] at h
    obtain ⟨s, htakes, hv⟩ := h
    dsimp only
    rw [hraw s hv, filled_of_takes htakes, hv]

/-- What is decoded is a value of the field's type. -/
theorem canonical_decodeValue {f : TemplateField} {raw : Bytes} {original : Value}
    (h : Slot.Fits ⟨f, raw, original⟩) : Canonical f (decodeValue f raw) := by
  have htakes : f.Takes raw.length := by
    cases hvariable : f.variableLength with
    | true => exact Or.inl hvariable
    | false =>
      simp only [Slot.Fits, hvariable, Bool.false_eq_true, ↓reduceIte] at h
      exact Or.inr h
  rw [Canonical, decodeValue]
  cases f.dataType with
  | unsigned => exact ⟨_, rfl⟩
  | ipv4 => exact ⟨raw, htakes, rfl⟩
  | ipv6 => exact ⟨raw, htakes, rfl⟩
  | mac => exact ⟨raw, htakes, rfl⟩
  | string => exact ⟨_, rfl, getLast?_decodeString raw⟩
  | bytes => exact ⟨raw, htakes, rfl⟩

/-- The loop of `_write_record` over a record that was made, not read: the value of each
field. -/
def encodeRecord (coerce : Coercion) : List TemplateField → List Value → Option Bytes
  | [], [] => some []
  | f :: fields, v :: values => do
    let first ← encodeValue coerce f v
    let rest ← encodeRecord coerce fields values
    pure (first ++ rest)
  | _, _ => none

/-- The fields of a record as they stand in its bytes. -/
structure Laid (fields : List TemplateField) (values : List Value) (body : Bytes)
    (slots : List Slot) : Prop where
  field : slots.map Slot.field = fields
  spelled : body = slots.flatMap Slot.wire
  fits : ∀ slot ∈ slots, slot.Fits
  original : ∀ slot ∈ slots, slot.original = decodeValue slot.field slot.raw
  canonical : slots.map Slot.original = values ↔ ∀ p ∈ fields.zip values, Canonical p.1 p.2

theorem encodeRecord_laid {coerce : Coercion} (fields : List TemplateField) :
    ∀ {values : List Value} {body : Bytes}, encodeRecord coerce fields values = some body →
      ∃ slots, Laid fields values body slots := by
  induction fields with
  | nil =>
    intro values body h
    cases values with
    | nil =>
      cases h
      exact ⟨[], rfl, rfl, by simp, by simp, by simp⟩
    | cons v values => cases h
  | cons f fields ih =>
    intro values body h
    cases values with
    | nil => cases h
    | cons v values =>
      rw [encodeRecord] at h
      simp only [Option.bind_eq_bind, Option.bind_eq_some_iff, Option.pure_def,
        Option.some.injEq] at h
      obtain ⟨first, hfirst, rest, hrest, rfl⟩ := h
      obtain ⟨encoded, hencode, hslot⟩ := encodeValue_eq_some hfirst
      obtain ⟨slots, hlaid⟩ := ih hrest
      obtain ⟨hfits, hwire⟩ := hslot (decodeValue f (filled f encoded))
      refine ⟨⟨f, filled f encoded, decodeValue f (filled f encoded)⟩ :: slots, ?_, ?_, ?_, ?_, ?_⟩
      · rw [List.map_cons, hlaid.field]
      · rw [List.flatMap_cons, ← hwire, hlaid.spelled]
      · exact List.forall_mem_cons.mpr ⟨hfits, hlaid.fits⟩
      · exact List.forall_mem_cons.mpr ⟨rfl, hlaid.original⟩
      · rw [List.map_cons, List.zip_cons_cons, List.forall_mem_cons, List.cons.injEq,
          hlaid.canonical]
        refine and_congr_left fun _ => ⟨fun h => ?_, fun h => decodeValue_filled h hencode⟩
        have hcanonical := canonical_decodeValue hfits
        rwa [show decodeValue f (filled f encoded) = v from h] at hcanonical

theorem readValue_wire {slot : Slot} (h : slot.Fits) (rest : Bytes) :
    readValue slot.field (slot.wire ++ rest) = some (slot.raw, rest) := by
  rw [Slot.Fits] at h
  rw [readValue.eq_def, Slot.wire]
  cases hvariable : slot.field.variableLength with
  | false =>
    rw [hvariable, if_neg Bool.false_ne_true] at h
    rw [if_neg Bool.false_ne_true, if_neg Bool.false_ne_true]
    exact BigEndian.takeBytes_of_length h rest
  | true =>
    rw [hvariable, if_pos rfl] at h
    rw [if_pos rfl, if_pos rfl, lengthPrefix]
    by_cases hshort : slot.raw.length < 255
    · have hbyte : (UInt8.ofNat slot.raw.length).toNat = slot.raw.length :=
        UInt8.toNat_ofNat_of_lt' (show slot.raw.length < 256 by omega)
      have hne : UInt8.ofNat slot.raw.length ≠ 255 := by
        intro heq
        rw [heq] at hbyte
        exact absurd hbyte (show (255 : Nat) ≠ slot.raw.length by omega)
      rw [if_pos hshort]
      show (if UInt8.ofNat slot.raw.length = 255 then _ else _) = _
      rw [if_neg hne, hbyte]
      exact BigEndian.takeBytes_append slot.raw rest
    · rw [if_neg hshort, List.cons_append, List.cons_append]
      dsimp only
      rw [if_pos rfl, List.append_assoc,
        BigEndian.readInt_ofNat (show slot.raw.length < 256 ^ 2 by omega)]
      exact BigEndian.takeBytes_append slot.raw rest

theorem readSlots_wire {slots : List Slot} (hfits : ∀ slot ∈ slots, slot.Fits)
    (horiginal : ∀ slot ∈ slots, slot.original = decodeValue slot.field slot.raw) (rest : Bytes) :
    readSlots (slots.map Slot.field) (slots.flatMap Slot.wire ++ rest) = some (slots, rest) := by
  induction slots with
  | nil => rfl
  | cons slot slots ih =>
    obtain ⟨hfit, hfits⟩ := List.forall_mem_cons.mp hfits
    obtain ⟨hone, horiginal⟩ := List.forall_mem_cons.mp horiginal
    rw [List.map_cons, List.flatMap_cons, List.append_assoc, readSlots, readValue_wire hfit,
      Option.bind_eq_bind, Option.bind_some]
    dsimp only
    rw [ih hfits horiginal, Option.bind_eq_bind, Option.bind_some, ← hone]
    rfl

/-- A record with its values, one for each field of the template. -/
structure DataRecord.Carries (t : Template) (values : List Value) (r : DataRecord) : Prop where
  template : r.template = t
  slots : r.slots.map Slot.field = t.fields
  original : r.slots.map Slot.original = values
  values : r.values = assigned ((t.fields.map TemplateField.key).zip values)

/-- The bytes of a record are decoded as a record. -/
theorem Laid.decodeRecord {t : Template} {values : List Value} {body : Bytes} {slots : List Slot}
    (h : Laid t.fields values body slots) :
    ∃ r, (∀ rest, Netflow.decodeRecord t (body ++ rest) = some (r, rest)) ∧
      (r.Carries t values ↔ ∀ p ∈ t.fields.zip values, Canonical p.1 p.2) := by
  have hread := readSlots_wire h.fits h.original
  rw [h.field, ← h.spelled] at hread
  refine ⟨⟨t, body, slots, assigned (slots.map fun slot => (slot.field.key, slot.original)), none,
    none⟩, fun rest => ?_, ?_⟩
  · simp [Netflow.decodeRecord, hread]
  rw [← h.canonical]
  refine ⟨fun hcarries => hcarries.original, fun hvalues => ⟨rfl, h.field, hvalues, ?_⟩⟩
  have hpairs : slots.map (fun slot => (slot.field.key, slot.original)) =
      (t.fields.map TemplateField.key).zip values := by
    rw [← h.field, ← hvalues, List.map_map, List.zip_map']
    rfl
  exact congrArg assigned hpairs

/-- The bytes a field takes at least. -/
def TemplateField.leastLength (f : TemplateField) : Nat :=
  if f.variableLength then 1 else f.fieldLength

/-- The shortest record the template allows. -/
def Template.leastLength (t : Template) : Nat := (t.fields.map TemplateField.leastLength).sum

theorem leastLength_of_fixed {t : Template} {length : Nat} (h : t.fixedLength = some length) :
    t.leastLength = length := by
  rw [Template.fixedLength] at h
  split at h
  · cases h
  next hfixed =>
    cases h
    rw [Template.leastLength]
    refine congrArg List.sum (List.map_congr_left fun f hf => ?_)
    rw [TemplateField.leastLength, if_neg]
    exact fun hvariable => hfixed (List.any_eq_true.mpr ⟨f, hf, hvariable⟩)

theorem leastLength_le_of_readValue {f : TemplateField} {s raw rest : Bytes}
    (h : readValue f s = some (raw, rest)) : f.leastLength + rest.length ≤ s.length := by
  rw [readValue.eq_def] at h
  rw [TemplateField.leastLength]
  have htake : ∀ {n : Nat} {s raw rest : Bytes}, BigEndian.takeBytes n s = some (raw, rest) →
      n + rest.length = s.length := by
    intro n s raw rest htaken
    obtain ⟨hs, hlength⟩ := BigEndian.takeBytes_sound htaken
    rw [hs, List.length_append, hlength]
  split at h
  next hvariable =>
    rw [if_pos hvariable]
    cases s with
    | nil => cases h
    | cons b s =>
      dsimp only at h
      rw [List.length_cons]
      split at h
      · cases hlength : BigEndian.readInt 2 s with
        | none =>
          rw [hlength] at h
          cases h
        | some out =>
          obtain ⟨length, s'⟩ := out
          rw [hlength] at h
          obtain ⟨hs, -⟩ := BigEndian.readInt_sound hlength
          have hrest := htake h
          rw [hs, List.length_append]
          omega
      · have hrest := htake h
        omega
  next hfixed =>
    rw [if_neg hfixed]
    exact (htake h).le

theorem leastLength_le_of_readSlots {fields : List TemplateField} {s rest : Bytes}
    {slots : List Slot} (h : readSlots fields s = some (slots, rest)) :
    (fields.map TemplateField.leastLength).sum + rest.length ≤ s.length := by
  induction fields generalizing s slots with
  | nil =>
    cases h
    simp
  | cons f fields ih =>
    simp only [readSlots, Option.bind_eq_bind, Option.bind_eq_some_iff] at h
    obtain ⟨⟨raw, s₁⟩, hvalue, ⟨others, s₂⟩, hothers, hslots⟩ := h
    dsimp only at hothers hslots
    cases hslots
    have hfirst := leastLength_le_of_readValue hvalue
    have hrest := ih hothers
    rw [List.map_cons, List.sum_cons]
    omega

theorem leastLength_le_of_decodeRecord {t : Template} {s rest : Bytes} {r : DataRecord}
    (h : decodeRecord t s = some (r, rest)) : t.leastLength + rest.length ≤ s.length := by
  rw [decodeRecord] at h
  cases hslots : readSlots t.fields s with
  | none =>
    rw [hslots] at h
    cases h
  | some out =>
    obtain ⟨slots, left⟩ := out
    rw [hslots] at h
    cases h
    exact leastLength_le_of_readSlots hslots

theorem consumes_nextRecord (t : Template) : Records.Consumes (FlowSet.nextRecord t) := by
  intro s r rest h
  rw [FlowSet.nextRecord] at h
  split at h
  · cases h
  · cases hrecord : decodeRecord t s with
    | none =>
      rw [hrecord] at h
      cases h
    | some out =>
      obtain ⟨record, left⟩ := out
      rw [hrecord] at h
      dsimp only at h
      split at h
      next hlt =>
        cases h
        exact hlt
      next => cases h

/-- The last record looks like padding, and no length tells it from that. -/
def Guessed (t : Template) (bodies : List Bytes) (padding : Bytes) : Prop :=
  t.fixedLength = none ∧ ∃ body, bodies.getLast? = some body ∧ isPadding (body ++ padding) = true

theorem isPadding_of_append {s s' : Bytes} (h : isPadding (s ++ s') = true) :
    isPadding s' = true := by
  simp only [isPadding, Bool.and_eq_true, decide_eq_true_eq, List.length_append,
    List.all_append] at h ⊢
  exact ⟨by omega, h.2.2⟩

/-- Where a record is, the reader reads it, unless it takes it for padding. -/
theorem nextRecord_body {t : Template} {body rest : Bytes} {r : DataRecord}
    (hpositive : 0 < t.leastLength) (hread : decodeRecord t (body ++ rest) = some (r, rest)) :
    FlowSet.nextRecord t (body ++ rest) =
      if isPadding (body ++ rest) = true ∧ t.fixedLength = none then none else some (r, rest) := by
  have hleast := leastLength_le_of_decodeRecord hread
  have hfixed : t.fixedLength.all ((body ++ rest).length < ·) = true ↔ t.fixedLength = none := by
    cases hlength : t.fixedLength with
    | none => simp
    | some length =>
      rw [leastLength_of_fixed hlength] at hleast
      simp only [Option.all_some, decide_eq_true_eq, reduceCtorEq, iff_false]
      omega
  rw [FlowSet.nextRecord, hread]
  simp only [Bool.and_eq_true, hfixed]
  split
  · rfl
  · rw [if_pos (by omega)]

theorem nextRecord_padding {t : Template} {padding : Bytes} (h : padding.length < t.leastLength) :
    FlowSet.nextRecord t padding = none := by
  rw [FlowSet.nextRecord]
  split
  · rfl
  · cases hrecord : decodeRecord t padding with
    | none => rfl
    | some out =>
      have hleast := leastLength_le_of_decodeRecord hrecord
      omega

theorem Guessed.cons {t : Template} {body : Bytes} {bodies : List Bytes} {padding : Bytes}
    (h : Guessed t bodies padding) : Guessed t (body :: bodies) padding := by
  obtain ⟨hvariable, last, hlast, hzeros⟩ := h
  have hne : bodies ≠ [] := by
    rintro rfl
    cases hlast
  exact ⟨hvariable, last, by rwa [List.getLast?_cons_of_ne_nil hne], hzeros⟩

/-- Zeros from a record to the end of a set are the last record and the padding. -/
theorem guessed_of_isPadding {t : Template} {body : Bytes} {bodies : List Bytes} {padding : Bytes}
    (hzeros : isPadding (body ++ (bodies.flatten ++ padding)) = true)
    (hvariable : t.fixedLength = none) : Guessed t (body :: bodies) padding := by
  refine ⟨hvariable, ?_⟩
  obtain ⟨last, hlast⟩ : ∃ last, (body :: bodies).getLast? = some last :=
    Option.isSome_iff_exists.mp (by simp)
  refine ⟨last, hlast, ?_⟩
  obtain ⟨front, hfront⟩ := List.getLast?_eq_some_iff.mp hlast
  have hflat : body ++ (bodies.flatten ++ padding) = front.flatten ++ (last ++ padding) := by
    rw [← List.append_assoc, ← List.flatten_cons, hfront, List.flatten_append,
      List.flatten_singleton, List.append_assoc]
  rw [hflat] at hzeros
  exact isPadding_of_append hzeros

/-- Records that are not taken for padding are all read. -/
theorem readAll_decoded {t : Template} {padding : Bytes} (hpositive : 0 < t.leastLength)
    (hstop : FlowSet.nextRecord t padding = none) {bodies : List Bytes} {rs : List DataRecord}
    (hall : List.Forall₂ (fun body r => ∀ rest, decodeRecord t (body ++ rest) = some (r, rest))
      bodies rs) (hguess : ¬ Guessed t bodies padding) :
    Records.readAll (FlowSet.nextRecord t) (bodies.flatten ++ padding).length
      (bodies.flatten ++ padding) = (rs, padding) := by
  induction hall with
  | nil => exact Records.readAll_none hstop _
  | cons hone hall ih =>
    rename_i body r bodies rs
    have hnext := nextRecord_body hpositive (hone (bodies.flatten ++ padding))
    rw [if_neg fun h => hguess (guessed_of_isPadding h.1 h.2)] at hnext
    rw [List.flatten_cons, List.append_assoc, Records.readAll_cons (consumes_nextRecord t) hnext,
      ih fun h => hguess h.cons]

/-- A last record that is taken for padding is missing. -/
theorem length_readAll_guessed {t : Template} {padding : Bytes} (hpositive : 0 < t.leastLength)
    {bodies : List Bytes} {rs : List DataRecord}
    (hall : List.Forall₂ (fun body r => ∀ rest, decodeRecord t (body ++ rest) = some (r, rest))
      bodies rs) (hguess : Guessed t bodies padding) :
    (Records.readAll (FlowSet.nextRecord t) (bodies.flatten ++ padding).length
      (bodies.flatten ++ padding)).1.length < rs.length := by
  induction hall with
  | nil =>
    obtain ⟨-, body, hbody, -⟩ := hguess
    cases hbody
  | cons hone hall ih =>
    rename_i body r bodies rs
    have hnext := nextRecord_body hpositive (hone (bodies.flatten ++ padding))
    rw [List.flatten_cons, List.append_assoc, List.length_cons]
    by_cases hzeros : isPadding (body ++ (bodies.flatten ++ padding)) = true ∧ t.fixedLength = none
    · rw [if_pos hzeros] at hnext
      rw [Records.readAll_none hnext]
      exact Nat.succ_pos _
    · rw [if_neg hzeros] at hnext
      rw [Records.readAll_cons (consumes_nextRecord t) hnext, List.length_cons]
      refine Nat.succ_lt_succ (ih ?_)
      obtain ⟨hvariable, last, hlast, hlastzeros⟩ := hguess
      have hne : bodies ≠ [] := by
        rintro rfl
        cases hlast
        rw [List.flatten_nil, List.nil_append] at hzeros
        exact hzeros ⟨hlastzeros, hvariable⟩
      rw [List.getLast?_cons_of_ne_nil hne] at hlast
      exact ⟨hvariable, last, hlast, hlastzeros⟩

/-- Encoded records are decoded, each as what it carries. -/
theorem decoded_of_encoded {coerce : Coercion} {t : Template} {records : List (List Value)}
    {bodies : List Bytes}
    (hencoded : List.Forall₂ (fun values body => encodeRecord coerce t.fields values = some body)
      records bodies) :
    ∃ rs, List.Forall₂ (fun body r => ∀ rest, decodeRecord t (body ++ rest) = some (r, rest))
        bodies rs ∧
      List.Forall₂ (fun values r => r.Carries t values ↔
        ∀ p ∈ t.fields.zip values, Canonical p.1 p.2) records rs := by
  induction hencoded with
  | nil => exact ⟨[], .nil, .nil⟩
  | cons hone hall ih =>
    obtain ⟨rs, hdecoded, hcarries⟩ := ih
    obtain ⟨slots, hlaid⟩ := encodeRecord_laid t.fields hone
    obtain ⟨r, hread, hr⟩ := hlaid.decodeRecord
    exact ⟨r :: rs, .cons hread hdecoded, .cons hr hcarries⟩

theorem isPadding_zeros (n : Nat) : isPadding (List.replicate n 0) = true ↔ n ≤ 3 := by
  simp [isPadding]

/-- A set is read back exactly where its values are of their fields' types, its padding is at most
three bytes, and its last record does not look like padding. -/
theorem data_sets_round_trip (coerce : Coercion) (t : Template) (records : List (List Value))
    (bodies : List Bytes)
    (hencoded : List.Forall₂ (fun values body => encodeRecord coerce t.fields values = some body)
      records bodies)
    (zeros : Nat) (hshort : zeros < t.leastLength) (set : FlowSet)
    (hset : set.rawData = bodies.flatten ++ List.replicate zeros 0) :
    (List.Forall₂ (fun values r => r.Carries t values) records (set.decodeData t).records ∧
      (set.decodeData t).padding = List.replicate zeros 0 ∧
      (set.decodeData t).malformed = false) ↔
    (∀ values ∈ records, ∀ p ∈ t.fields.zip values, Canonical p.1 p.2) ∧ zeros ≤ 3 ∧
      ¬ Guessed t bodies (List.replicate zeros 0) := by
  have hpadding : (List.replicate zeros (0 : UInt8)).length < t.leastLength := by
    rwa [List.length_replicate]
  simp only [FlowSet.decodeData, hset]
  obtain ⟨rs, hdecoded, hcarries⟩ := decoded_of_encoded hencoded
  have hpositive : 0 < t.leastLength := by omega
  by_cases hguess : Guessed t bodies (List.replicate zeros 0)
  · have hmissing := length_readAll_guessed hpositive hdecoded hguess
    constructor
    · rintro ⟨hall, -, -⟩
      exact absurd (hall.length_eq.symm.trans hcarries.length_eq) hmissing.ne
    · rintro ⟨-, -, hnot⟩
      exact absurd hguess hnot
  · rw [readAll_decoded hpositive (nextRecord_padding hpadding) hdecoded hguess]
    rw [Mapped.forall₂_iff_forall_mem hcarries]
    simp only [true_and, Bool.not_eq_false', isPadding_zeros, hguess, not_false_eq_true, and_true]

/-- A port and a protocol. -/
def portTemplate : Template := ⟨9, 256, false, [], [.learned 7 2 none, .learned 4 1 none], false⟩

theorem data_sets_round_trip_port :
    let set : FlowSet := { version := 9, setId := 256, length := 8, rawData := [0, 80, 6, 0] }
    List.Forall₂ (fun values r => r.Carries portTemplate values) [[.int 80, .int 6]]
      (set.decodeData portTemplate).records ∧
      (set.decodeData portTemplate).padding = [0] ∧
      (set.decodeData portTemplate).malformed = false := by
  refine (data_sets_round_trip (fun _ _ => none) portTemplate [[.int 80, .int 6]] [[0, 80, 6]]
    (List.Forall₂.cons (by decide +kernel) List.Forall₂.nil) 1 (by decide +kernel) _ rfl).mpr
    ⟨?_, by decide, ?_⟩
  · intro values hvalues p hp
    rw [List.mem_singleton.mp hvalues] at hp
    rcases List.mem_cons.mp hp with rfl | hp
    · exact ⟨80, rfl⟩
    · rw [List.mem_singleton.mp hp]
      exact ⟨6, rfl⟩
  · rintro ⟨hvariable, -⟩
    exact absurd hvariable (by decide +kernel)

/-- The name of an interface, of any length. -/
def interfaceTemplate : Template := ⟨10, 256, false, [], [.learned 82 65535 none], false⟩

/-- An empty text at the end of a set is one zero byte, which is taken for padding. -/
theorem not_data_sets_round_trip : ¬ ∀ (coerce : Coercion) (t : Template)
    (records : List (List Value)) (bodies : List Bytes),
    List.Forall₂ (fun values body => encodeRecord coerce t.fields values = some body)
      records bodies →
    (∀ values ∈ records, ∀ p ∈ t.fields.zip values, Canonical p.1 p.2) →
    ∀ zeros < t.leastLength, (4 + bodies.flatten.length + zeros) % 4 = 0 →
    ∀ set : FlowSet, set.rawData = bodies.flatten ++ List.replicate zeros 0 →
      List.Forall₂ (fun values r => r.Carries t values) records (set.decodeData t).records ∧
        (set.decodeData t).padding = List.replicate zeros 0 ∧
        (set.decodeData t).malformed = false := by
  intro h
  have hencoded : List.Forall₂
      (fun values body => encodeRecord (fun _ _ => none) interfaceTemplate.fields values = some body)
      [[.text ['a', 'b']], [.text []]] [[2, 0x61, 0x62], [0]] :=
    List.Forall₂.cons (by decide +kernel) (List.Forall₂.cons (by decide +kernel) List.Forall₂.nil)
  have hcanonical : ∀ values ∈ [[.text ['a', 'b']], [.text []]],
      ∀ p ∈ interfaceTemplate.fields.zip values, Canonical p.1 p.2 := by
    intro values hvalues p hp
    rcases List.mem_cons.mp hvalues with rfl | hvalues
    · rw [List.mem_singleton.mp hp]
      exact ⟨['a', 'b'], rfl, by decide⟩
    · rw [List.mem_singleton.mp hvalues] at hp
      rw [List.mem_singleton.mp hp]
      exact ⟨[], rfl, by decide⟩
  obtain ⟨hall, -⟩ := h _ interfaceTemplate _ _ hencoded hcanonical 0 (by decide +kernel)
    (by decide)
    { version := 10, setId := 256, length := 8, rawData := [2, 0x61, 0x62, 0] } rfl
  exact absurd hall.length_eq (by decide +kernel)

end Packets.Netflow
