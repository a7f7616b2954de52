/-
The compiled codec of a template and the decoder that walks the template
(`NetflowCodecPlan`, `_parse_data_record` and `_decode_interpreted` in `protos/netflow.pyx`).

Both read one record at an offset of a body.  What only `encode` reads of a record is left
out of the plan.
-/
import Packets.Netflow.Text
import Packets.Netflow.Unedited
import Packets.Rib.AddressText

namespace Packets.Netflow

/-- `mv[i]`, where the length of the buffer has been looked at. -/
def byteAt (data : Bytes) (i : Nat) : UInt8 := data.getD i 0

/-- `data[start:start + length]` -/
def slice (data : Bytes) (start length : Nat) : Bytes := (data.drop start).take length

def rdU16 (data : Bytes) (i : Nat) : Nat :=
  (byteAt data i).toNat * 256 + (byteAt data (i + 1)).toNat

/-- `_decode_value` -/
def genericValue (f : TemplateField) (s : Bytes) : Value :=
  match f.dataType with
  | .unsigned => .int (BigEndian.toNat s)
  | .ipv4 => if s.length = 4 then .text (inetNtop4 s).toList else .raw s
  | .ipv6 => if s.length = 16 then .text (inetNtop6 s).toList else .raw s
  | .mac => if s.length = 6 then .text ([':'].intercalate (s.map hexByte)) else .raw s
  | .string => .text ((decodeText s).rdropWhile (· = '\x00'))
  | .bytes => .raw s

inductive CodecType where
  | CODEC_BYTES
  | CODEC_UNSIGNED
  | CODEC_IPV4
  | CODEC_IPV6
  | CODEC_MAC
  | CODEC_STRING
deriving DecidableEq, Repr

/-- `_codec_type` -/
def codecType : DataType → CodecType
  | .unsigned => .CODEC_UNSIGNED
  | .ipv4 => .CODEC_IPV4
  | .ipv6 => .CODEC_IPV6
  | .mac => .CODEC_MAC
  | .string => .CODEC_STRING
  | .bytes => .CODEC_BYTES

/-- The loop over the bytes of a number, in an `unsigned long long`. -/
def readUnsigned (data : Bytes) (start length : Nat) : UInt64 :=
  (List.range length).foldl (fun value i => (value <<< 8) ||| (byteAt data (start + i)).toUInt64) 0

/-- One octet of `_fmt_ipv4_buf`. -/
def fmtOctet (octet : UInt8) : List Char :=
  (if octet ≥ 100 then [Nat.digitChar (octet / 100).toNat] else []) ++
    (if octet ≥ 10 then [Nat.digitChar (octet / 10 % 10).toNat] else []) ++
      [Nat.digitChar (octet % 10).toNat]

/-- `_fmt_ipv4_buf` -/
def fmtIpv4Buf (data : Bytes) (start : Nat) : List Char :=
  fmtOctet (byteAt data start) ++ '.' :: fmtOctet (byteAt data (start + 1)) ++
    '.' :: fmtOctet (byteAt data (start + 2)) ++ '.' :: fmtOctet (byteAt data (start + 3))

/-- `_decode_mac`: the format has six places. -/
def decodeMacAt (data : Bytes) (start : Nat) : List Char :=
  hexByte (byteAt data start) ++ ':' :: hexByte (byteAt data (start + 1)) ++
    ':' :: hexByte (byteAt data (start + 2)) ++ ':' :: hexByte (byteAt data (start + 3)) ++
      ':' :: hexByte (byteAt data (start + 4)) ++ ':' :: hexByte (byteAt data (start + 5))

/-- The loop of `_decode_string`: the length without the zeros at the end. -/
def trimmedLength (data : Bytes) (start : Nat) : Nat → Nat
  | 0 => 0
  | length + 1 =>
    if byteAt data (start + length) = 0 then trimmedLength data start length
    else length + 1

/-- `_decode_string` -/
def decodeStringAt (data : Bytes) (start length : Nat) : List Char :=
  let trimmed := trimmedLength data start length
  if trimmed = 0 then [] else decodeText (slice data start trimmed)

/-- An entry of `operations`, with the C operation beside it.  There is no fixed offset
behind a field that varies. -/
structure Operation where
  field : TemplateField
  key : FieldKey
  identity : FieldKey
  fixedOffset : Option Nat
  variableLength : Bool
  codecType : CodecType
deriving DecidableEq

/-- `NetflowCodecPlan`.  The fixed length is `-1` where a field varies. -/
structure CodecPlan where
  operations : List Operation
  aliases : Dict FieldKey FieldKey
  fixedLength : Option Nat

namespace CodecPlan

def empty : CodecPlan := ⟨[], Dict.empty, some 0⟩

/-- One turn of the loop of `__init__`; `none` is an exception. -/
def addField (p : CodecPlan) (f : TemplateField) : Option CodecPlan :=
  if f.fieldLength = 0 then none
  else some {
    operations := p.operations ++ [{
      field := f
      key := f.key
      identity := f.identity
      fixedOffset := p.fixedLength
      variableLength := f.variableLength
      codecType := codecType f.dataType }]
    aliases := if f.identity ≠ f.key then p.aliases.set f.identity f.key else p.aliases
    fixedLength := if f.variableLength then none else p.fixedLength.map (· + f.fieldLength) }

/-- `__init__` -/
def init (fields : List TemplateField) : Option CodecPlan := fields.foldlM addField empty

def hasVariable (p : CodecPlan) : Bool := p.fixedLength.isNone

end CodecPlan

namespace Operation

/-- Where the value of an operation starts and how long it is. -/
def span (op : Operation) (data : Bytes) (offset : Nat) : Option (Nat × Nat) :=
  if op.variableLength then
    if data.length ≤ offset then none
    else if byteAt data offset = 255 then
      if data.length < offset + 1 + 2 then none
      else checked (offset + 3) (rdU16 data (offset + 1))
    else checked (offset + 1) (byteAt data offset).toNat
  else checked offset op.field.fieldLength
where
  checked (start length : Nat) : Option (Nat × Nat) :=
    if data.length < start + length then none else some (start, length)

/-- The value of an operation: a typed reader where its length is the type's own. -/
def value (op : Operation) (data : Bytes) (start length : Nat) : Value :=
  if op.codecType = .CODEC_UNSIGNED ∧ length ≤ 8 then
    .int (readUnsigned data start length).toNat
  else if op.codecType = .CODEC_IPV4 ∧ length = 4 then .text (fmtIpv4Buf data start)
  else if op.codecType = .CODEC_IPV6 ∧ length = 16 then
    .text (inetNtop6 (slice data start 16)).toList
  else if op.codecType = .CODEC_MAC ∧ length = 6 then .text (decodeMacAt data start)
  else if op.codecType = .CODEC_STRING then .text (decodeStringAt data start length)
  else genericValue op.field (slice data start length)

end Operation

/-- `NetflowFieldMap` -/
structure FieldMap (V : Type) where
  values : Dict FieldKey V
  aliases : Dict FieldKey FieldKey

/-- `NetflowFieldMap.get` -/
def FieldMap.get? {V : Type} (m : FieldMap V) (k : FieldKey) : Option V :=
  m.values.get? ((m.aliases.get? k).getD k)

/-- A record as a plan decodes it: what it holds, and where its bytes lie. -/
structure PlanRecord where
  templateId : Nat
  fields : FieldMap Value
  originalValues : List Value
  rawRanges : Option (List (Nat × Nat))
  rawOwner : Bytes
  rawStart : Nat
  rawLength : Nat
  template : Template
  codecPlan : CodecPlan

/-- What `_decode_record` has filled on its way. -/
structure PlanWalk where
  offset : Nat
  fields : Dict FieldKey Value
  originalValues : List Value
  rawRanges : List (Nat × Nat)

namespace CodecPlan

/-- One turn of the loop of `_decode_record`. -/
def decodeOperation (data : Bytes) (start : Nat) (walk : PlanWalk) (op : Operation) :
    Option PlanWalk :=
  (op.span data walk.offset).map fun (valueStart, valueLength) =>
    let value := op.value data valueStart valueLength
    { offset := valueStart + valueLength
      fields := walk.fields.set op.key value
      originalValues := walk.originalValues ++ [value]
      rawRanges := walk.rawRanges ++ [(valueStart - start, valueLength)] }

/-- `_decode_record` -/
def decodeRecord (p : CodecPlan) (data : Bytes) (start : Nat) (t : Template) :
    Option (PlanRecord × Nat) :=
  (p.operations.foldlM (decodeOperation data start) ⟨start, Dict.empty, [], []⟩).map
    fun walk =>
      ({ templateId := t.templateId
         fields := ⟨walk.fields, p.aliases⟩
         originalValues := walk.originalValues
         rawRanges := if p.hasVariable then some walk.rawRanges else none
         rawOwner := data
         rawStart := start
         rawLength := walk.offset - start
         template := t
         codecPlan := p }, walk.offset)

/-- `decode`: the record, the next offset and whether the record is valid. -/
def decode (p : CodecPlan) (data : Bytes) (offset : Nat) (t : Template) :
    Option PlanRecord × Nat × Bool :=
  match p.decodeRecord data offset t with
  | none => (none, offset, false)
  | some (record, resultOffset) => (some record, resultOffset, true)

end CodecPlan

namespace PlanRecord

/-- Where the bytes of a field lie in the record. -/
def rawRange (r : PlanRecord) (op : Operation) (index : Nat) : Nat × Nat :=
  match r.rawRanges with
  | none => (op.fixedOffset.getD 0, op.field.fieldLength)
  | some ranges => ranges.getD index (0, 0)

/-- `raw_fields`, which is built when it is first read. -/
def rawFields (r : PlanRecord) : Dict FieldKey Bytes :=
  r.codecPlan.operations.zipIdx.foldl
    (fun rawFields (op, index) =>
      let (rawStart, rawLength) := r.rawRange op index
      rawFields.set op.identity (slice r.rawOwner (r.rawStart + rawStart) rawLength))
    Dict.empty

end PlanRecord

/-- A record as `_decode_interpreted` leaves it. -/
structure WalkedRecord where
  templateId : Nat
  fields : Dict FieldKey Value
  rawFields : Dict FieldKey Bytes
  originalFields : Dict FieldKey Value
  rawData : Bytes
  template : Template

/-- What `_parse_data_record` has filled on its way. -/
structure FieldWalk where
  offset : Nat
  fields : Dict FieldKey Value
  rawFields : Dict FieldKey Bytes

/-- Where a value ends and its bytes. -/
def parseValue (f : TemplateField) (data : Bytes) (offset : Nat) : Option (Nat × Bytes) :=
  if f.variableLength then
    match data[offset]? with
    | none => none
    | some first =>
      if first.toNat = 255 then
        if offset + 1 + 2 > data.length then none
        else taken (offset + 3) (BigEndian.toNat (slice data (offset + 1) 2))
      else taken (offset + 1) first.toNat
  else taken offset f.fieldLength
where
  taken (offset length : Nat) : Option (Nat × Bytes) :=
    if offset + length > data.length then none
    else some (offset + length, slice data offset length)

/-- One turn of the loop of `_parse_data_record`. -/
def parseField (data : Bytes) (walk : FieldWalk) (f : TemplateField) : Option FieldWalk :=
  (parseValue f data walk.offset).map fun (offset, value) =>
    { offset := offset
      fields := walk.fields.set f.key (genericValue f value)
      rawFields := walk.rawFields.set f.key value }

/-- `_parse_data_record` -/
def parseDataRecord (t : Template) (data : Bytes) (start : Nat) : Option (WalkedRecord × Nat) :=
  (t.fields.foldlM (parseField data) ⟨start, Dict.empty, Dict.empty⟩).map fun walk =>
    ({ templateId := t.templateId
       fields := walk.fields
       rawFields := walk.rawFields
       originalFields := walk.fields
       rawData := slice data start (walk.offset - start)
       template := t }, walk.offset)

/-- One turn of the loop of `_decode_interpreted`; `none` is an exception. -/
def aliasField (r : WalkedRecord) (f : TemplateField) : Option WalkedRecord := do
  let value ← r.fields.get? f.key
  let fields := r.fields.set f.identity value
  let original ← fields.get? f.key
  let raw ← r.rawFields.get? f.key
  pure { r with
    fields := fields
    originalFields := r.originalFields.set f.identity original
    rawFields := r.rawFields.set f.identity raw }

/-- `_decode_interpreted`: the record, the next offset and whether the record is valid;
`none` is an exception. -/
def decodeInterpreted (t : Template) (data : Bytes) (offset : Nat) :
    Option (Option WalkedRecord × Nat × Bool) :=
  match parseDataRecord t data offset with
  | none => some (none, offset, false)
  | some (record, nextOffset) =>
    (t.fields.foldlM aliasField record).map fun record => (some record, nextOffset, true)

theorem length_slice {data : Bytes} {start length : Nat} (h : start + length ≤ data.length) :
    (slice data start length).length = length := by
  rw [slice, List.length_take, List.length_drop]
  omega

theorem slice_succ {data : Bytes} {start length : Nat} (h : start + length < data.length) :
    slice data start (length + 1) = slice data start length ++ [byteAt data (start + length)] := by
  rw [slice, slice, List.take_add_one, byteAt, List.getElem?_drop, List.getD_eq_getElem?_getD,
    List.getElem?_eq_getElem h]
  rfl

theorem slice_eq_map {data : Bytes} {start length : Nat} (h : start + length ≤ data.length) :
    slice data start length = (List.range length).map fun i => byteAt data (start + i) := by
  induction length with
  | zero => simp [slice]
  | succ length ih =>
    rw [slice_succ (by omega), ih (by omega), List.range_succ, List.map_append]
    rfl

theorem rdU16_eq {data : Bytes} {i : Nat} (h : i + 2 ≤ data.length) :
    rdU16 data i = BigEndian.toNat (slice data i 2) := by
  rw [slice_eq_map h]
  simp [List.range_succ, BigEndian.toNat, rdU16]

theorem genericValue_eq (f : TemplateField) (s : Bytes) : genericValue f s = decodeValue f s := by
  unfold genericValue decodeValue
  cases f.dataType with
  | string => rw [decodeString_eq_rstrip]
  | _ => rfl

theorem toNat_readUnsigned {data : Bytes} {start length : Nat} (hlength : length ≤ 8)
    (h : start + length ≤ data.length) :
    (readUnsigned data start length).toNat = BigEndian.toNat (slice data start length) := by
  induction length with
  | zero => simp [readUnsigned, slice, BigEndian.toNat]
  | succ length ih =>
    have hbefore := ih (by omega) (by omega)
    have hbound := BigEndian.toNat_lt (slice data start length)
    rw [length_slice (by omega), ← hbefore] at hbound
    have hsmall : (256 : Nat) ^ length ≤ 256 ^ 7 := Nat.pow_le_pow_right (by decide) (by omega)
    have hstep : readUnsigned data start (length + 1) =
        (readUnsigned data start length <<< 8) ||| (byteAt data (start + length)).toUInt64 := by
      simp [readUnsigned, List.range_succ]
    have hbyte : (byteAt data (start + length)).toNat < 2 ^ 8 := UInt8.toNat_lt _
    rw [hstep, slice_succ (by omega), BigEndian.toNat_append, ← hbefore, UInt64.toNat_or,
      UInt64.toNat_shiftLeft]
    simp only [UInt8.toNat_toUInt64, BigEndian.toNat, List.length_singleton, List.length_nil]
    have hshift : (readUnsigned data start length).toNat <<< ((8 : UInt64).toNat % 64) % 2 ^ 64 =
        2 ^ 8 * (readUnsigned data start length).toNat := by
      rw [Nat.shiftLeft_eq, Nat.mul_comm]
      have height : (2 : Nat) ^ ((8 : UInt64).toNat % 64) = 2 ^ 8 := by decide
      rw [height]
      exact Nat.mod_eq_of_lt (by norm_num at hsmall ⊢; omega)
    rw [hshift, ← Nat.two_pow_add_eq_or_of_lt hbyte]
    omega

theorem fmtOctet_eq (octet : UInt8) : fmtOctet octet = Nat.toDigits 10 octet.toNat := by
  have hall : ∀ n < 256, fmtOctet (UInt8.ofNat n) = Nat.toDigits 10 n := by decide +kernel
  have h := hall octet.toNat octet.toNat_lt
  rwa [UInt8.ofNat_toNat] at h

theorem fmtIpv4Buf_eq {data : Bytes} {start : Nat} (h : start + 4 ≤ data.length) :
    fmtIpv4Buf data start = (inetNtop4 (slice data start 4)).toList := by
  rw [slice_eq_map h, toList_inetNtop4]
  simp [List.range_succ, fmtIpv4Buf, fmtOctet_eq]

theorem decodeMacAt_eq {data : Bytes} {start : Nat} (h : start + 6 ≤ data.length) :
    decodeMacAt data start = decodeMac (slice data start 6) := by
  rw [slice_eq_map h]
  simp [List.range_succ, decodeMac, decodeMacAt]

theorem slice_trimmedLength {data : Bytes} {start length : Nat} (h : start + length ≤ data.length) :
    slice data start (trimmedLength data start length) =
      (slice data start length).rdropWhile (· = 0) := by
  induction length with
  | zero => simp [trimmedLength, slice]
  | succ length ih =>
    rw [slice_succ (by omega), List.rdropWhile_concat]
    by_cases hzero : byteAt data (start + length) = 0
    · rw [if_pos (decide_eq_true hzero), trimmedLength, if_pos hzero, ih (by omega)]
    · rw [if_neg (by simpa using hzero), trimmedLength, if_neg hzero, slice_succ (by omega)]

theorem decodeStringAt_eq {data : Bytes} {start length : Nat} (h : start + length ≤ data.length) :
    decodeStringAt data start length = decodeString (slice data start length) := by
  rw [decodeString_eq, ← slice_trimmedLength h, decodeStringAt]
  by_cases hzero : trimmedLength data start length = 0
  · simp [hzero, slice, decodeText, decodeUtf8]
  · rw [if_neg hzero]

/-- The operation of a field. -/
def Operation.ofField (f : TemplateField) (fixedOffset : Option Nat) : Operation where
  field := f
  key := f.key
  identity := f.identity
  fixedOffset := fixedOffset
  variableLength := f.variableLength
  codecType := Netflow.codecType f.dataType

/-- Every typed reader reads what the generic decoder would. -/
theorem value_ofField (f : TemplateField) (fixedOffset : Option Nat) {data : Bytes}
    {start length : Nat} (h : start + length ≤ data.length) :
    (Operation.ofField f fixedOffset).value data start length =
      decodeValue f (slice data start length) := by
  have hgeneric := genericValue_eq f (slice data start length)
  have hlength := length_slice h
  unfold Operation.value
  cases htype : f.dataType with
  | unsigned =>
    by_cases height : length ≤ 8
    · simp [Operation.ofField, htype, codecType, height, toNat_readUnsigned height h, decodeValue]
    · simp [Operation.ofField, htype, codecType, height, hgeneric]
  | ipv4 =>
    by_cases hfour : length = 4
    · subst hfour
      simp [Operation.ofField, htype, codecType, fmtIpv4Buf_eq h, decodeValue, hlength]
    · simp [Operation.ofField, htype, codecType, hfour, hgeneric]
  | ipv6 =>
    by_cases hsixteen : length = 16
    · subst hsixteen
      simp [Operation.ofField, htype, codecType, decodeValue, hlength]
    · simp [Operation.ofField, htype, codecType, hsixteen, hgeneric]
  | mac =>
    by_cases hsix : length = 6
    · subst hsix
      simp [Operation.ofField, htype, codecType, decodeMacAt_eq h, decodeValue, hlength]
    · simp [Operation.ofField, htype, codecType, hsix, hgeneric]
  | string => simp [Operation.ofField, htype, codecType, decodeStringAt_eq h, decodeValue]
  | bytes => simp [Operation.ofField, htype, codecType, hgeneric]

/-- Where the value of a field starts behind an offset, and how long it is. -/
def TemplateField.place (f : TemplateField) (data : Bytes) (offset : Nat) : Option (Nat × Nat) :=
  (Operation.ofField f none).span data offset

@[simp] theorem span_ofField (f : TemplateField) (fixedOffset : Option Nat) (data : Bytes)
    (offset : Nat) : (Operation.ofField f fixedOffset).span data offset = f.place data offset := rfl

theorem place_eq (f : TemplateField) (data : Bytes) (offset : Nat) : f.place data offset =
    if f.variableLength then
      if data.length ≤ offset then none
      else if byteAt data offset = 255 then
        if data.length < offset + 1 + 2 then none
        else Operation.span.checked data (offset + 3) (rdU16 data (offset + 1))
      else Operation.span.checked data (offset + 1) (byteAt data offset).toNat
    else Operation.span.checked data offset f.fieldLength := rfl

theorem place_within {f : TemplateField} {data : Bytes} {offset start length : Nat}
    (h : f.place data offset = some (start, length)) :
    offset ≤ start ∧ start + length ≤ data.length := by
  have hchecked : ∀ {s n : Nat}, Operation.span.checked data s n = some (start, length) →
      s = start ∧ start + length ≤ data.length := by
    intro s n hs
    rw [Operation.span.checked] at hs
    split at hs
    · cases hs
    next hle =>
      cases hs
      exact ⟨rfl, by omega⟩
  rw [place_eq] at h
  split at h
  · split at h
    · cases h
    split at h
    · split at h
      · cases h
      · have hs := hchecked h
        omega
    · have hs := hchecked h
      omega
  · have hs := hchecked h
    omega

theorem place_of_fixed {f : TemplateField} {data : Bytes} {offset start length : Nat}
    (hfixed : f.variableLength = false) (h : f.place data offset = some (start, length)) :
    start = offset ∧ length = f.fieldLength := by
  rw [place_eq, hfixed, if_neg Bool.false_ne_true, Operation.span.checked] at h
  split at h
  · cases h
  · cases h
    exact ⟨rfl, rfl⟩

/-- The loop of the other decoder finds the same bytes. -/
theorem parseValue_eq (f : TemplateField) (data : Bytes) (offset : Nat) :
    parseValue f data offset = (f.place data offset).map fun place =>
      (place.1 + place.2, slice data place.1 place.2) := by
  have htaken : ∀ start length, parseValue.taken data start length =
      (Operation.span.checked data start length).map fun place =>
        (place.1 + place.2, slice data place.1 place.2) := by
    intro start length
    rw [parseValue.taken, Operation.span.checked]
    split <;> rfl
  rw [parseValue, place_eq]
  by_cases hvar : f.variableLength = true
  · rw [if_pos hvar, if_pos hvar]
    by_cases hin : data.length ≤ offset
    · rw [if_pos hin, List.getElem?_eq_none hin]
      rfl
    · have hbyte : data[offset]? = some (byteAt data offset) := by
        rw [byteAt, List.getD_eq_getElem?_getD, List.getElem?_eq_getElem (by omega)]
        rfl
      rw [if_neg hin, hbyte]
      simp only
      have hlong : (byteAt data offset).toNat = 255 ↔ byteAt data offset = 255 :=
        ⟨fun h => UInt8.toNat_inj.mp h, fun h => h ▸ rfl⟩
      by_cases h255 : byteAt data offset = 255
      · rw [if_pos (hlong.mpr h255), if_pos h255]
        by_cases htwo : data.length < offset + 1 + 2
        · rw [if_pos htwo, if_pos htwo]
          rfl
        · rw [if_neg htwo, if_neg htwo, htaken, rdU16_eq (by omega)]
      · rw [if_neg (mt hlong.mp h255), if_neg h255, htaken]
  · rw [if_neg hvar, if_neg hvar, htaken]

/-- A field and where its value lies in the buffer. -/
structure Cut where
  field : TemplateField
  start : Nat
  length : Nat

namespace Cut

def raw (data : Bytes) (c : Cut) : Bytes := slice data c.start c.length

def value (data : Bytes) (c : Cut) : Value := decodeValue c.field (c.raw data)

end Cut

/-- Where the fields of a record lie, and where it ends. -/
def cuts (data : Bytes) : List TemplateField → Nat → Option (List Cut × Nat)
  | [], offset => some ([], offset)
  | f :: fields, offset => do
    let (start, length) ← f.place data offset
    let (rest, finish) ← cuts data fields (start + length)
    pure (⟨f, start, length⟩ :: rest, finish)

theorem cuts_cons {data : Bytes} {f : TemplateField} {fields : List TemplateField}
    {offset finish : Nat} {cs : List Cut} (h : cuts data (f :: fields) offset = some (cs, finish)) :
    ∃ start length rest, f.place data offset = some (start, length) ∧
      cuts data fields (start + length) = some (rest, finish) ∧ cs = ⟨f, start, length⟩ :: rest := by
  simp only [cuts, bind, Option.bind_eq_some_iff, Prod.exists, pure, Option.some.injEq,
    Prod.mk.injEq] at h
  obtain ⟨start, length, hplace, rest, finish', hrest, rfl, rfl⟩ := h
  exact ⟨start, length, rest, hplace, hrest, rfl⟩

theorem map_field_cuts {data : Bytes} {fields : List TemplateField} {offset finish : Nat}
    {cs : List Cut} (h : cuts data fields offset = some (cs, finish)) :
    cs.map Cut.field = fields := by
  induction fields generalizing offset cs with
  | nil =>
    cases h
    rfl
  | cons f fields ih =>
    obtain ⟨start, length, rest, -, hrest, rfl⟩ := cuts_cons h
    rw [List.map_cons, ih hrest]

/-- The loop of `_parse_data_record`. -/
theorem foldlM_parseField (data : Bytes) (fields : List TemplateField) (walk : FieldWalk) :
    fields.foldlM (parseField data) walk = (cuts data fields walk.offset).map fun place =>
      { offset := place.2
        fields := (place.1.map fun c => (c.field.key, c.value data)).foldl
          (fun d e => d.set e.1 e.2) walk.fields
        rawFields := (place.1.map fun c => (c.field.key, c.raw data)).foldl
          (fun d e => d.set e.1 e.2) walk.rawFields } := by
  induction fields generalizing walk with
  | nil => rfl
  | cons f fields ih =>
    rw [List.foldlM_cons, parseField, parseValue_eq, cuts]
    cases hplace : f.place data walk.offset with
    | none => rfl
    | some place =>
      simp only [Option.map_some, Option.bind_eq_bind, Option.bind_some]
      rw [ih]
      cases hrest : cuts data fields (place.1 + place.2) with
      | none => rfl
      | some rest =>
        simp only [Option.map_some, Option.bind_some, pure, List.map_cons,
          List.foldl_cons, genericValue_eq]
        rfl

/-- The operations of some fields, the first of them at a fixed offset or behind a field
that varies. -/
def planned : Option Nat → List TemplateField → List Operation
  | _, [] => []
  | fixed, f :: fields =>
    .ofField f fixed ::
      planned (if f.variableLength then none else fixed.map (· + f.fieldLength)) fields

/-- The loop of `_decode_record`. -/
theorem foldlM_decodeOperation (data : Bytes) (start : Nat) (fixed : Option Nat)
    (fields : List TemplateField) (walk : PlanWalk) :
    (planned fixed fields).foldlM (CodecPlan.decodeOperation data start) walk =
      (cuts data fields walk.offset).map fun place =>
        { offset := place.2
          fields := (place.1.map fun c => (c.field.key, c.value data)).foldl
            (fun d e => d.set e.1 e.2) walk.fields
          originalValues := walk.originalValues ++ place.1.map (Cut.value data)
          rawRanges := walk.rawRanges ++ place.1.map fun c => (c.start - start, c.length) } := by
  induction fields generalizing walk fixed with
  | nil => simp [planned, cuts]
  | cons f fields ih =>
    rw [planned, List.foldlM_cons, CodecPlan.decodeOperation, span_ofField, cuts]
    cases hplace : f.place data walk.offset with
    | none => rfl
    | some place =>
      simp only [Option.map_some, Option.bind_eq_bind, Option.bind_some]
      rw [ih]
      cases hrest : cuts data fields (place.1 + place.2) with
      | none => rfl
      | some rest =>
        simp only [Option.map_some, Option.bind_some, pure, List.map_cons,
          List.foldl_cons, value_ofField f fixed (place_within hplace).2,
          List.append_assoc, List.singleton_append]
        rfl

end Packets.Netflow
