/-
Templates and data records of NetFlow v9 and IPFIX (`protos/netflow.pyx`).

A record keeps the bytes it was read from.  `raw_data` and the caches of plans and record
classes are left out.
-/
import Packets.Lib.Dict
import Packets.Lib.Records
import Packets.Rib.Address

namespace Packets.Netflow

open BigEndian (readInt takeBytes)

/-- What a field holds; `bytes` is every type without a codec. -/
inductive DataType where
  | unsigned
  | ipv4
  | ipv6
  | mac
  | string
  | bytes
deriving DecidableEq, Repr

def INFORMATION_ELEMENTS : List (Nat × String × DataType) :=
  [(1, "octetDeltaCount", .unsigned), (2, "packetDeltaCount", .unsigned),
    (3, "deltaFlowCount", .unsigned), (4, "protocolIdentifier", .unsigned),
    (5, "ipClassOfService", .unsigned), (6, "tcpControlBits", .unsigned),
    (7, "sourceTransportPort", .unsigned), (8, "sourceIPv4Address", .ipv4),
    (9, "sourceIPv4PrefixLength", .unsigned), (10, "ingressInterface", .unsigned),
    (11, "destinationTransportPort", .unsigned), (12, "destinationIPv4Address", .ipv4),
    (13, "destinationIPv4PrefixLength", .unsigned), (14, "egressInterface", .unsigned),
    (15, "ipNextHopIPv4Address", .ipv4), (16, "bgpSourceAsNumber", .unsigned),
    (17, "bgpDestinationAsNumber", .unsigned), (18, "bgpNextHopIPv4Address", .ipv4),
    (21, "flowEndSysUpTime", .unsigned), (22, "flowStartSysUpTime", .unsigned),
    (23, "postOctetDeltaCount", .unsigned), (24, "postPacketDeltaCount", .unsigned),
    (27, "sourceIPv6Address", .ipv6), (28, "destinationIPv6Address", .ipv6),
    (29, "sourceIPv6PrefixLength", .unsigned),
    (30, "destinationIPv6PrefixLength", .unsigned), (31, "flowLabelIPv6", .unsigned),
    (32, "icmpTypeCodeIPv4", .unsigned), (34, "samplingInterval", .unsigned),
    (35, "samplingAlgorithm", .unsigned), (40, "exportedOctetTotalCount", .unsigned),
    (41, "exportedMessageTotalCount", .unsigned),
    (42, "exportedFlowRecordTotalCount", .unsigned), (44, "sourceIPv4Prefix", .ipv4),
    (45, "destinationIPv4Prefix", .ipv4), (56, "sourceMacAddress", .mac),
    (57, "postDestinationMacAddress", .mac), (58, "vlanId", .unsigned),
    (59, "postVlanId", .unsigned), (60, "ipVersion", .unsigned),
    (61, "flowDirection", .unsigned), (62, "ipNextHopIPv6Address", .ipv6),
    (63, "bgpNextHopIPv6Address", .ipv6), (80, "destinationMacAddress", .mac),
    (81, "postSourceMacAddress", .mac), (82, "interfaceName", .string),
    (83, "interfaceDescription", .string), (85, "octetTotalCount", .unsigned),
    (86, "packetTotalCount", .unsigned), (130, "exporterIPv4Address", .ipv4),
    (131, "exporterIPv6Address", .ipv6), (136, "flowEndReason", .unsigned),
    (138, "observationPointId", .unsigned), (139, "icmpTypeCodeIPv6", .unsigned),
    (144, "exportingProcessId", .unsigned), (145, "templateId", .unsigned),
    (147, "wlanSSID", .string), (148, "flowId", .unsigned),
    (149, "observationDomainId", .unsigned), (150, "flowStartSeconds", .unsigned),
    (151, "flowEndSeconds", .unsigned), (152, "flowStartMilliseconds", .unsigned),
    (153, "flowEndMilliseconds", .unsigned), (154, "flowStartMicroseconds", .unsigned),
    (155, "flowEndMicroseconds", .unsigned), (156, "flowStartDeltaMicroseconds", .unsigned),
    (157, "flowEndDeltaMicroseconds", .unsigned), (176, "icmpTypeIPv4", .unsigned),
    (177, "icmpCodeIPv4", .unsigned), (178, "icmpTypeIPv6", .unsigned),
    (179, "icmpCodeIPv6", .unsigned), (180, "udpSourcePort", .unsigned),
    (181, "udpDestinationPort", .unsigned), (182, "tcpSourcePort", .unsigned),
    (183, "tcpDestinationPort", .unsigned), (184, "tcpSequenceNumber", .unsigned),
    (185, "tcpAcknowledgementNumber", .unsigned), (186, "tcpWindowSize", .unsigned),
    (187, "tcpUrgentPointer", .unsigned), (188, "tcpHeaderLength", .unsigned),
    (189, "ipHeaderLength", .unsigned), (190, "totalLengthIPv4", .unsigned),
    (191, "payloadLengthIPv6", .unsigned), (192, "ipTTL", .unsigned),
    (193, "nextHeaderIPv6", .unsigned), (195, "ipDiffServCodePoint", .unsigned),
    (196, "ipPrecedence", .unsigned), (197, "fragmentFlags", .unsigned),
    (211, "collectorIPv4Address", .ipv4), (212, "collectorIPv6Address", .ipv6),
    (214, "exportProtocolVersion", .unsigned), (215, "exportTransportProtocol", .unsigned),
    (216, "collectorTransportPort", .unsigned), (217, "exporterTransportPort", .unsigned)]

structure TemplateField where
  elementId : Nat
  fieldLength : Nat
  enterpriseNumber : Option Nat
  name : Option String
  dataType : DataType
deriving DecidableEq

/-- A mapping key of a record: a pair, an element's name, or its number. -/
inductive FieldKey where
  | pair (enterprise element : Nat)
  | name (name : String)
  | element (element : Nat)
deriving DecidableEq

namespace TemplateField

/-- `_field_metadata` -/
def metadata (elementId : Nat) (enterprise : Option Nat) : Option String × DataType :=
  match enterprise, INFORMATION_ELEMENTS.lookup elementId with
  | none, some (name, dataType) => (some name, dataType)
  | _, _ => (none, .bytes)

/-- A field as it is learned from the wire. -/
def learned (elementId fieldLength : Nat) (enterprise : Option Nat) : TemplateField where
  elementId := elementId
  fieldLength := fieldLength
  enterpriseNumber := enterprise
  name := (metadata elementId enterprise).1
  dataType := (metadata elementId enterprise).2

/-- A plan refuses any other field as variable. -/
def variableLength (f : TemplateField) : Bool := f.fieldLength = 65535

/-- `_field_key` -/
def key (f : TemplateField) : FieldKey :=
  match f.enterpriseNumber, f.name with
  | some enterprise, _ => .pair enterprise f.elementId
  | none, some name => .name name
  | none, none => .element f.elementId

/-- `_field_identity` -/
def identity (f : TemplateField) : FieldKey := .pair (f.enterpriseNumber.getD 0) f.elementId

/-- `NetflowTemplateField._write` -/
def write (f : TemplateField) : Bytes :=
  BigEndian.ofNat 2 (if f.enterpriseNumber.isSome then f.elementId + 0x8000 else f.elementId) ++
    BigEndian.ofNat 2 f.fieldLength ++ (f.enterpriseNumber.elim [] (BigEndian.ofNat 4))

end TemplateField

inductive Value where
  | int (n : Nat)
  | text (chars : List Char)
  | raw (bytes : Bytes)
deriving DecidableEq

/-- How many continuation bytes follow, what the lead byte counts for, and the range of
the first of them. -/
def utf8Lead (b : UInt8) : Option (Nat × Nat × UInt8 × UInt8) :=
  if 0xc2 ≤ b ∧ b ≤ 0xdf then some (1, b.toNat % 32, 0x80, 0xbf)
  else if b = 0xe0 then some (2, 0, 0xa0, 0xbf)
  else if b = 0xed then some (2, 13, 0x80, 0x9f)
  else if 0xe1 ≤ b ∧ b ≤ 0xef then some (2, b.toNat % 16, 0x80, 0xbf)
  else if b = 0xf0 then some (3, 0, 0x90, 0xbf)
  else if 0xf1 ≤ b ∧ b ≤ 0xf3 then some (3, b.toNat % 8, 0x80, 0xbf)
  else if b = 0xf4 then some (3, 4, 0x80, 0x8f)
  else none

/-- The code point, or `none` and what follows the sequence that breaks off. -/
def utf8Rest : Nat → Nat → UInt8 → UInt8 → Bytes → Option Nat × Bytes
  | 0, point, _, _, s => (some point, s)
  | _ + 1, _, _, _, [] => (none, [])
  | n + 1, point, low, high, b :: rest =>
    if low ≤ b ∧ b ≤ high then utf8Rest n (point * 64 + b.toNat % 64) 0x80 0xbf rest
    else (none, b :: rest)

/-- `decode('utf-8', 'replace')` -/
def decodeUtf8 : Nat → Bytes → List Char
  | _, [] => []
  | 0, _ => []
  | fuel + 1, b :: rest =>
    if b < 0x80 then Char.ofNat b.toNat :: decodeUtf8 fuel rest
    else
      match utf8Lead b with
      | none => Char.ofNat 0xfffd :: decodeUtf8 fuel rest
      | some (n, point, low, high) =>
        let (read, rest) := utf8Rest n point low high rest
        Char.ofNat (read.getD 0xfffd) :: decodeUtf8 fuel rest

/-- `_decode_string`: trailing zeros are no part of the text. -/
def decodeString (s : Bytes) : List Char :=
  let text := (s.reverse.dropWhile (· = 0)).reverse
  decodeUtf8 text.length text

def hexByte (b : UInt8) : List Char := [Nat.digitChar (b.toNat / 16), Nat.digitChar (b.toNat % 16)]

/-- `_decode_mac` -/
def decodeMac (s : Bytes) : List Char := [':'].intercalate (s.map hexByte)

/-- `_decode_value`, and the typed operations of a plan. -/
def decodeValue (f : TemplateField) (s : Bytes) : Value :=
  match f.dataType with
  | .unsigned => .int (BigEndian.toNat s)
  | .ipv4 => if s.length = 4 then .text (inetNtop4 s).toList else .raw s
  | .ipv6 => if s.length = 16 then .text (inetNtop6 s).toList else .raw s
  | .mac => if s.length = 6 then .text (decodeMac s) else .raw s
  | .string => .text (decodeString s)
  | .bytes => .raw s

/-- What Python makes of a value not of its field's type (`int`, `bytes`, `inet_aton` of a text
that is no dotted quad); `none` is an exception. -/
abbrev Coercion := DataType → Value → Option Bytes

/-- The bytes `to_bytes` needs for a variable-length number. -/
def byteLength (n : Nat) : Nat := if n = 0 then 1 else n.log2 / 8 + 1

def encodeMac (text : List Char) : Option Bytes :=
  (text.splitOn ':').mapM fun part =>
    if part.length = 2 then
      (part.mapM hexDigit?).map fun digits => UInt8.ofNat (digits.foldl (fun n d => n * 16 + d) 0)
    else none

/-- The bytes of a value, before they are fitted into the field. -/
def encodeRaw (coerce : Coercion) (f : TemplateField) : Value → Option Bytes
  | .raw s => some s
  | .int n =>
    if f.dataType = .unsigned then
      let width := if f.variableLength then byteLength n else f.fieldLength
      if n < 256 ^ width then some (BigEndian.ofNat width n) else none
    else coerce f.dataType (.int n)
  | .text chars =>
    match f.dataType with
    | .ipv4 => (inetPton4 chars).orElse fun _ => coerce .ipv4 (.text chars)
    | .ipv6 => inetPton6 chars
    | .mac => (encodeMac chars).orElse fun _ => coerce .mac (.text chars)
    | .string => some (String.ofList chars).toUTF8.data.toList
    | dataType => coerce dataType (.text chars)

/-- The length in front of a variable-length value. -/
def lengthPrefix (length : Nat) : Bytes :=
  if length < 255 then [UInt8.ofNat length] else 255 :: BigEndian.ofNat 2 length

/-- `_encode_value`; `none` is an exception. -/
def encodeValue (coerce : Coercion) (f : TemplateField) (value : Value) : Option Bytes :=
  match encodeRaw coerce f value with
  | none => none
  | some encoded =>
    if f.variableLength then
      if 65535 < encoded.length then none
      else some (lengthPrefix encoded.length ++ encoded)
    else if f.fieldLength < encoded.length then none
    else some (encoded ++ List.replicate (f.fieldLength - encoded.length) 0)

/-- `NetflowTemplate` and `NetflowOptionsTemplate`; a data template has no scope. -/
structure Template where
  version : Nat
  templateId : Nat
  options : Bool
  scopeFields : List TemplateField
  optionFields : List TemplateField
  withdrawn : Bool
deriving DecidableEq

namespace Template

def fields (t : Template) : List TemplateField := t.scopeFields ++ t.optionFields

/-- The two numbers of an options template: lengths for v9, counts for IPFIX. -/
def scopeHeader (t : Template) : Nat × Nat :=
  if t.withdrawn then (0, 0)
  else if t.version = 9 then
    ((t.scopeFields.map fun f => f.write.length).sum,
      (t.optionFields.map fun f => f.write.length).sum)
  else (t.fields.length, t.scopeFields.length)

/-- `_write` -/
def write (t : Template) : Bytes :=
  let body := if t.withdrawn then [] else t.fields.flatMap TemplateField.write
  if t.options then
    BigEndian.ofNat 2 t.templateId ++ BigEndian.ofNat 2 t.scopeHeader.1 ++
      BigEndian.ofNat 2 t.scopeHeader.2 ++ body
  else
    BigEndian.ofNat 2 t.templateId ++
      BigEndian.ofNat 2 (if t.withdrawn then 0 else t.fields.length) ++ body

/-- The length of a record, unless a field varies. -/
def fixedLength (t : Template) : Option Nat :=
  if t.fields.any TemplateField.variableLength then none
  else some (t.fields.map TemplateField.fieldLength).sum

end Template

/-- One turn of `_parse_template_fields`.  Only IPFIX has an enterprise bit. -/
def readField (version : Nat) (s : Bytes) : Option (TemplateField × Bytes) := do
  let (rawId, s) ← readInt 2 s
  let (length, s) ← readInt 2 s
  if length = 0 then none
  else if version = 10 ∧ 0x8000 ≤ rawId then
    let (enterprise, s) ← readInt 4 s
    pure (.learned (rawId - 0x8000) length (some enterprise), s)
  else pure (.learned rawId length none, s)

/-- `_parse_template_fields` -/
def readFields (version : Nat) : Nat → Bytes → Option (List TemplateField × Bytes)
  | 0, s => some ([], s)
  | count + 1, s => do
    let (field, s) ← readField version s
    let (fields, s) ← readFields version count s
    pure (field :: fields, s)

/-- The fields of a v9 scope or option part, which is given by its length. -/
def readFieldsWithin (version : Nat) : Nat → Nat → Bytes → Option (List TemplateField × Bytes)
  | _, 0, s => some ([], s)
  | 0, _ + 1, _ => none
  | fuel + 1, left, s => do
    let (field, rest) ← readField version s
    let used := s.length - rest.length
    if left < used then none
    else
      let (fields, rest) ← readFieldsWithin version fuel (left - used) rest
      pure (field :: fields, rest)

/-- One turn of `_decode_templates` for a data template. -/
def readTemplate (version : Nat) (s : Bytes) : Option (Template × Bytes) := do
  let (id, s) ← readInt 2 s
  let (count, s) ← readInt 2 s
  let (fields, s) ← readFields version count s
  pure (⟨version, id, false, [], fields, count = 0⟩, s)

/-- One turn of `_decode_templates` for an options template. -/
def readOptionsTemplate (version : Nat) (s : Bytes) : Option (Template × Bytes) := do
  let (id, s) ← readInt 2 s
  let (first, s) ← readInt 2 s
  let (second, s) ← readInt 2 s
  if version = 9 then
    if s.length < first + second then none
    else
      let (scope, s) ← readFieldsWithin version first first s
      let (options, s) ← readFieldsWithin version second second s
      pure (⟨version, id, true, scope, options, first = 0 ∧ second = 0⟩, s)
  else if first < second then none
  else
    let (fields, s) ← readFields version first s
    pure (⟨version, id, true, fields.take second, fields.drop second, first = 0 ∧ second = 0⟩, s)

/-- One field of a record as it was read. -/
structure Slot where
  field : TemplateField
  raw : Bytes
  original : Value
deriving DecidableEq

/-- `NetflowDataRecord`, as decoding leaves it.  `rawFields` and `originalFields` are built
when they are first read. -/
structure DataRecord where
  template : Template
  wire : Bytes
  slots : List Slot
  values : Dict FieldKey Value
  rawFields : Option (Dict FieldKey Bytes)
  originalFields : Option (Dict FieldKey Value)

/-- The bytes of one field of a record. -/
def readValue (f : TemplateField) (s : Bytes) : Option (Bytes × Bytes) :=
  if f.variableLength then
    match s with
    | [] => none
    | b :: rest =>
      if b = 255 then
        match readInt 2 rest with
        | none => none
        | some (length, rest) => takeBytes length rest
      else takeBytes b.toNat rest
  else takeBytes f.fieldLength s

def readSlots : List TemplateField → Bytes → Option (List Slot × Bytes)
  | [], s => some ([], s)
  | f :: rest, s => do
    let (raw, s) ← readValue f s
    let (slots, s) ← readSlots rest s
    pure (⟨f, raw, decodeValue f raw⟩ :: slots, s)

/-- Assignments to a mapping, in the order of the fields. -/
def assigned {V : Type} (pairs : List (FieldKey × V)) : Dict FieldKey V :=
  pairs.foldl (fun d e => d.set e.1 e.2) Dict.empty

/-- `_decode_record` -/
def decodeRecord (t : Template) (s : Bytes) : Option (DataRecord × Bytes) :=
  match readSlots t.fields s with
  | none => none
  | some (slots, rest) =>
    some ({
      template := t
      wire := s.take (s.length - rest.length)
      slots := slots
      values := assigned (slots.map fun slot => (slot.field.key, slot.original))
      rawFields := none
      originalFields := none }, rest)

namespace DataRecord

/-- The properties of a record that a reader may ask for. -/
inductive Read where
  | fields
  | rawData
  | rawFields
  | originalFields
deriving DecidableEq

/-- The mapping `raw_fields` builds. -/
def builtRawFields (r : DataRecord) : Dict FieldKey Bytes :=
  assigned (r.slots.map fun slot => (slot.field.identity, slot.raw))

/-- The mapping `original_fields` builds. -/
def builtOriginalFields (r : DataRecord) : Dict FieldKey Value :=
  assigned (r.slots.flatMap fun slot =>
    [(slot.field.key, slot.original), (slot.field.identity, slot.original)])

/-- Reading a property. -/
def read (r : DataRecord) : Read → DataRecord
  | .fields | .rawData => r
  | .rawFields => { r with rawFields := some (r.rawFields.getD r.builtRawFields) }
  | .originalFields =>
    { r with originalFields := some (r.originalFields.getD r.builtOriginalFields) }

/-- What the value of a field is compared with. -/
def originalOf (r : DataRecord) (slot : Slot) : Option Value :=
  match r.originalFields with
  | none => some slot.original
  | some originals =>
    (originals.get? slot.field.key).orElse fun _ => originals.get? slot.field.identity

def rawOf (r : DataRecord) (slot : Slot) : Option Bytes :=
  match r.rawFields with
  | none => some slot.raw
  | some raws => raws.get? slot.field.identity

/-- One turn of the field-by-field loop of `_write_record`; `none` is an exception. -/
def writeSlot (coerce : Coercion) (r : DataRecord) (slot : Slot) : Option Bytes :=
  match r.values.get? slot.field.key with
  | none => none
  | some value =>
    match r.rawOf slot with
    | some raw =>
      if r.originalOf slot = some value then
        some (if slot.field.variableLength then lengthPrefix raw.length ++ raw else raw)
      else encodeValue coerce slot.field value
    | none => encodeValue coerce slot.field value

/-- Whether nothing was edited, and neither mapping was built. -/
def unchanged (r : DataRecord) : Bool :=
  r.rawFields.isNone && r.originalFields.isNone &&
    r.slots.all fun slot => r.values.get? slot.field.key = some slot.original

/-- `_write_record` -/
def write (coerce : Coercion) (r : DataRecord) : Option Bytes :=
  if r.unchanged then some r.wire
  else (r.slots.mapM (r.writeSlot coerce)).map List.flatten

end DataRecord

end Packets.Netflow
