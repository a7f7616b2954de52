/-
Datagrams and the templates learned from them (`protos/netflow.pyx`).

The flattened list of records is left out.  An exporter is what it is hashed by.
-/
import Packets.Netflow.Record

namespace Packets.Netflow

open BigEndian (readInt takeBytes)

/-- The names and widths of consecutive integers. -/
abbrev Layout := List (String × Nat)

structure FixedField where
  name : String
  width : Nat
  value : Nat
deriving DecidableEq

def readLayout : Layout → Bytes → Option (List FixedField × Bytes)
  | [], s => some ([], s)
  | (name, width) :: rest, s => do
    let (value, s) ← readInt width s
    let (fields, s) ← readLayout rest s
    pure (⟨name, width, value⟩ :: fields, s)

def writeFixed (fields : List FixedField) : Bytes :=
  fields.flatMap fun f => BigEndian.ofNat f.width f.value

/-- The value of a field that the layout names. -/
def fixedValue (fields : List FixedField) (name : String) : Nat :=
  ((fields.find? fun f => f.name = name).map FixedField.value).getD 0

def V1_HEADER : Layout :=
  [("version", 2), ("count", 2), ("sys_uptime", 4), ("unix_secs", 4), ("unix_nsecs", 4)]

def V5_HEADER : Layout :=
  V1_HEADER ++ [("flow_sequence", 4), ("engine_type", 1), ("engine_id", 1),
    ("sampling_interval", 2)]

def V7_HEADER : Layout := V1_HEADER ++ [("flow_sequence", 4), ("reserved", 4)]

def V9_HEADER : Layout :=
  [("version", 2), ("count", 2), ("sys_uptime", 4), ("unix_secs", 4), ("sequence", 4),
    ("source_id", 4)]

/-- `source_id` is another name of `observation_domain_id`. -/
def IPFIX_HEADER : Layout :=
  [("version", 2), ("length", 2), ("export_time", 4), ("sequence", 4), ("source_id", 4)]

/-- What the records of v1, v5 and v7 begin with.  An address is the number its four
octets spell. -/
def COMMON_RECORD : Layout :=
  [("src_addr", 4), ("dst_addr", 4), ("next_hop", 4), ("input_snmp", 2), ("output_snmp", 2),
    ("packets", 4), ("octets", 4), ("first", 4), ("last", 4), ("src_port", 2), ("dst_port", 2)]

def V1_RECORD : Layout :=
  COMMON_RECORD ++ [("pad1", 2), ("protocol", 1), ("tos", 1), ("pad2", 4), ("reserved", 4)]

def V5_RECORD : Layout :=
  COMMON_RECORD ++ [("pad1", 1), ("tcp_flags", 1), ("protocol", 1), ("tos", 1), ("src_as", 2),
    ("dst_as", 2), ("src_mask", 1), ("dst_mask", 1), ("pad2", 2)]

def V7_RECORD : Layout := V5_RECORD ++ [("router_sc", 4)]

/-- `NetflowDecodeContext` with its registry: by version, exporter, domain and template. -/
structure Context (E : Type) where
  templates : Dict (Nat × E × Nat × Nat) Template
  forceSimple : Bool

namespace Context

variable {E : Type} [DecidableEq E]

/-- `withdraw_templates` -/
def withdrawAll (c : Context E) (version : Nat) (exporter : E) (source : Nat)
    (options : Bool) : Context E :=
  { c with templates := c.templates.filter fun key t =>
      !(key.1 = version && key.2.1 = exporter && key.2.2.1 = source && t.options = options) }

/-- What `_decode_templates` does with a template it has read. -/
def learn (c : Context E) (exporter : E) (source : Nat) (t : Template) : Context E :=
  if t.withdrawn then
    if (t.version = 10 ∧ !t.options ∧ t.templateId = 2) ∨
        (t.version = 9 ∧ !t.options ∧ t.templateId = 0) then
      c.withdrawAll t.version exporter source false
    else if (t.version = 10 ∧ t.options ∧ t.templateId = 3) ∨
        (t.version = 9 ∧ t.options ∧ t.templateId = 1) then
      c.withdrawAll t.version exporter source true
    else
      { c with templates := c.templates.erase (t.version, exporter, source, t.templateId) }
  else
    { c with templates := c.templates.set (t.version, exporter, source, t.templateId) t }

end Context

/-- `NetflowFlowSet` -/
structure FlowSet where
  version : Nat
  setId : Nat
  length : Nat
  templates : List Template := []
  records : List DataRecord := []
  rawData : Bytes
  padding : Bytes := []
  malformed : Bool := false

/-- Up to three zero bytes. -/
def isPadding (s : Bytes) : Bool := s.length ≤ 3 && s.all (· = 0)

/-- One turn of the loop over sets: its number, its length and its body. -/
def readSet (s : Bytes) : Option ((Nat × Nat × Bytes) × Bytes) := do
  let (setId, rest) ← readInt 2 s
  let (length, rest) ← readInt 2 rest
  if length < 4 then none
  else
    let (body, rest) ← takeBytes (length - 4) rest
    pure ((setId, length, body), rest)

/-- The sets of a datagram, and what is left behind them.  A set that is not framed takes
all the rest. -/
def frameSets (version : Nat) (s : Bytes) : List FlowSet × Bytes :=
  let run := Records.readAll readSet s.length s
  let framed : List FlowSet := run.1.map fun set =>
    { version := version, setId := set.1, length := set.2.1, rawData := set.2.2 }
  match readInt 2 run.2 with
  | none => (framed, run.2)
  | some (setId, rest) =>
    match readInt 2 rest with
    | none => (framed, run.2)
    | some (length, rest) =>
      (framed ++ [{
        version := version, setId := setId, length := length, rawData := rest,
        malformed := true }], [])

namespace FlowSet

/-- Whether a set holds templates, and if so of which kind. -/
def templateKind (set : FlowSet) : Option Bool :=
  if set.malformed then none
  else if (set.version = 9 ∧ set.setId = 0) ∨ (set.version = 10 ∧ set.setId = 2) then some false
  else if (set.version = 9 ∧ set.setId = 1) ∨ (set.version = 10 ∧ set.setId = 3) then some true
  else none

def nextTemplate (version : Nat) (options : Bool) (s : Bytes) : Option (Template × Bytes) :=
  if isPadding s then none
  else if options then readOptionsTemplate version s
  else readTemplate version s

/-- `_decode_templates`, without the registry. -/
def decodeTemplates (set : FlowSet) : FlowSet :=
  match set.templateKind with
  | none => set
  | some options =>
    let run := Records.readAll (nextTemplate set.version options) set.rawData.length set.rawData
    { set with
      templates := run.1
      rawData := []
      padding := run.2
      malformed := !isPadding run.2 }

/-- Whether a set holds data records. -/
def isData (set : FlowSet) : Bool := !set.malformed && 256 ≤ set.setId

/-- One turn of `_decode_data`: trailing zeros that no record fits into are padding. -/
def nextRecord (t : Template) (s : Bytes) : Option (DataRecord × Bytes) :=
  if isPadding s && t.fixedLength.all (s.length < ·) then none
  else
    match decodeRecord t s with
    | none => none
    | some (record, rest) => if rest.length < s.length then some (record, rest) else none

/-- `_decode_data`, with the template that was resolved. -/
def decodeData (set : FlowSet) (t : Template) : FlowSet :=
  let run := Records.readAll (nextRecord t) set.rawData.length set.rawData
  { set with
    records := run.1
    rawData := []
    padding := run.2
    malformed := !isPadding run.2 }

/-- `_write`.  A length that is not set is patched; `none` is an exception. -/
def write (coerce : Coercion) (set : FlowSet) : Option Bytes := do
  let content ←
    if set.templates.isEmpty && set.records.isEmpty then some set.rawData
    else (set.records.mapM (DataRecord.write coerce)).map fun records =>
      set.templates.flatMap Template.write ++ records.flatten
  let body := content ++ set.padding
  let length := if set.length = 0 then 4 + body.length else set.length
  if 65535 < length then none
  else pure (BigEndian.ofNat 2 set.setId ++ BigEndian.ofNat 2 length ++ body)

end FlowSet

/-- `Netflow`.  `records` are those of v1, v5 and v7. -/
structure Datagram where
  version : Nat
  header : Option (List FixedField)
  records : List (List FixedField)
  flowsets : List FlowSet
  rawData : Bytes
  wireData : Bytes
  requiresSimple : Bool

section Parse

variable {E : Type} [DecidableEq E]

/-- A datagram that is not understood. -/
def opaqueDatagram (version : Nat) (data : Bytes) : Datagram :=
  ⟨version, none, [], [], data, data, false⟩

/-- v1, v5 and v7: as many records as are counted and there. -/
def parseFixed (version : Nat) (header record : Layout) (data : Bytes) : Datagram :=
  match readLayout header data with
  | none => opaqueDatagram version data
  | some (fields, rest) =>
    let run := Records.readAll (readLayout record) (fixedValue fields "count") rest
    ⟨version, some fields, run.1, [], run.2, data, false⟩

/-- The template a data set is decoded with. -/
def Context.resolve (c : Context E) (exporter : E) (source : Nat) (set : FlowSet) :
    Option Template :=
  (c.templates.get? (set.version, exporter, source, set.setId)).filter fun t => !t.withdrawn

/-- The second pass over one set. -/
def decodeSet (c : Context E) (exporter : E) (source : Nat) (set : FlowSet) : FlowSet :=
  if set.isData then
    match c.resolve exporter source set with
    | none => set
    | some t => set.decodeData t
  else set

/-- `_parse_flowsets`: all template sets, and then the data sets. -/
def parseFlowsets (c : Context E) (exporter : E) (version source : Nat) (s : Bytes) :
    (List FlowSet × Bytes × Bool) × Context E :=
  let (framed, left) := frameSets version s
  let learned := framed.map FlowSet.decodeTemplates
  let c := (learned.flatMap FlowSet.templates).foldl (Context.learn · exporter source) c
  let sets := learned.map (decodeSet c exporter source)
  let missing := learned.any fun set => set.isData && (c.resolve exporter source set).isNone
  ((sets, left, missing || sets.any FlowSet.malformed), c)

/-- `_parse` of a datagram with the context and the exporter it came from. -/
def parse (c : Context E) (exporter : E) (data : Bytes) : Datagram × Context E :=
  match readInt 2 data with
  | none => (opaqueDatagram 0 data, c)
  | some (version, _) =>
    if version = 1 then (parseFixed version V1_HEADER V1_RECORD data, c)
    else if version = 5 then (parseFixed version V5_HEADER V5_RECORD data, c)
    else if version = 7 then (parseFixed version V7_HEADER V7_RECORD data, c)
    else if version = 9 then
      match readLayout V9_HEADER data with
      | none => (opaqueDatagram version data, c)
      | some (fields, rest) =>
        let parsed := parseFlowsets c exporter version (fixedValue fields "source_id") rest
        (⟨version, some fields, [], parsed.1.1, parsed.1.2.1, data, parsed.1.2.2⟩, parsed.2)
    else if version = 10 then
      match readLayout IPFIX_HEADER data with
      | none => (opaqueDatagram version data, c)
      | some (fields, rest) =>
        let length := fixedValue fields "length"
        if length < 16 then (⟨version, some fields, [], [], rest, data, false⟩, c)
        else
          let inside := rest.take (length - 16)
          let parsed := parseFlowsets c exporter version (fixedValue fields "source_id") inside
          (⟨version, some fields, [], parsed.1.1, parsed.1.2.1 ++ rest.drop (length - 16),
            data, parsed.1.2.2⟩, parsed.2)
    else (opaqueDatagram version data, c)

/-- `dispatch`: whether a datagram comes back as a `NetflowSimple`. -/
def dispatch (c : Context E) (exporter : E) (data : Bytes) : Option Datagram × Context E :=
  if c.forceSimple then (none, c)
  else
    let parsed := parse c exporter data
    (if parsed.1.requiresSimple then none else some parsed.1, parsed.2)

end Parse

namespace Datagram

/-- `pkt2net({})`; `none` is an exception. -/
def write (coerce : Coercion) (d : Datagram) : Option Bytes :=
  match d.header with
  | none => some d.wireData
  | some header =>
    if d.version = 1 ∨ d.version = 5 ∨ d.version = 7 then
      some (writeFixed header ++ d.records.flatMap writeFixed ++ d.rawData)
    else
      (d.flowsets.mapM (FlowSet.write coerce)).map fun sets =>
        writeFixed header ++ sets.flatten ++ d.rawData

end Datagram

open BigEndian (readInt readInt_sound readInt_ofNat takeBytes_sound takeBytes_append)

theorem readLayout_sound {layout : Layout} {s rest : Bytes} {fields : List FixedField}
    (h : readLayout layout s = some (fields, rest)) : s = writeFixed fields ++ rest := by
  induction layout generalizing s fields with
  | nil =>
    simp only [readLayout, Option.some.injEq, Prod.mk.injEq] at h
    obtain ⟨rfl, rfl⟩ := h
    rfl
  | cons entry layout ih =>
    obtain ⟨name, width⟩ := entry
    simp only [readLayout, bind, Option.bind_eq_some_iff, Prod.exists, pure,
      Option.some.injEq, Prod.mk.injEq] at h
    obtain ⟨value, s₁, hvalue, tail, s₂, htail, rfl, rfl⟩ := h
    rw [(readInt_sound hvalue).1, ih htail]
    simp [writeFixed, List.append_assoc]

theorem readField_sound {version : Nat} {s rest : Bytes} {field : TemplateField}
    (h : readField version s = some (field, rest)) : s = field.write ++ rest := by
  simp only [readField, bind, Option.bind_eq_some_iff, Prod.exists] at h
  obtain ⟨rawId, s₁, hid, length, s₂, hlength, h⟩ := h
  have hs := (readInt_sound hid).1
  have hs₁ := (readInt_sound hlength).1
  split at h
  · cases h
  split at h
  · rename_i henterprise
    simp only [Option.bind_eq_some_iff, Prod.exists, pure, Option.some.injEq, Prod.mk.injEq] at h
    obtain ⟨enterprise, s₃, hread, rfl, rfl⟩ := h
    have hs₂ := (readInt_sound hread).1
    have hnumber : rawId - 0x8000 + 0x8000 = rawId := Nat.sub_add_cancel henterprise.2
    rw [hs, hs₁, hs₂]
    simp [TemplateField.write, TemplateField.learned, hnumber, List.append_assoc]
  · simp only [pure, Option.some.injEq, Prod.mk.injEq] at h
    obtain ⟨rfl, rfl⟩ := h
    rw [hs, hs₁]
    simp [TemplateField.write, TemplateField.learned, List.append_assoc]

theorem readFields_sound {version count : Nat} {s rest : Bytes} {fields : List TemplateField}
    (h : readFields version count s = some (fields, rest)) :
    s = fields.flatMap TemplateField.write ++ rest ∧ fields.length = count := by
  induction count generalizing s fields with
  | zero =>
    simp only [readFields, Option.some.injEq, Prod.mk.injEq] at h
    obtain ⟨rfl, rfl⟩ := h
    exact ⟨rfl, rfl⟩
  | succ count ih =>
    simp only [readFields, bind, Option.bind_eq_some_iff, Prod.exists, pure,
      Option.some.injEq, Prod.mk.injEq] at h
    obtain ⟨field, s₁, hfield, tail, s₂, htail, rfl, rfl⟩ := h
    obtain ⟨hs₁, hcount⟩ := ih htail
    rw [readField_sound hfield, hs₁]
    simp [List.append_assoc, hcount]

theorem readFieldsWithin_sound {version fuel left : Nat} {s rest : Bytes}
    {fields : List TemplateField} (h : readFieldsWithin version fuel left s = some (fields, rest)) :
    s = fields.flatMap TemplateField.write ++ rest ∧
      (fields.map fun f => f.write.length).sum = left := by
  induction fuel generalizing left s fields with
  | zero =>
    cases left with
    | zero =>
      simp only [readFieldsWithin, Option.some.injEq, Prod.mk.injEq] at h
      obtain ⟨rfl, rfl⟩ := h
      exact ⟨rfl, rfl⟩
    | succ left => simp [readFieldsWithin] at h
  | succ fuel ih =>
    cases left with
    | zero =>
      simp only [readFieldsWithin, Option.some.injEq, Prod.mk.injEq] at h
      obtain ⟨rfl, rfl⟩ := h
      exact ⟨rfl, rfl⟩
    | succ left =>
      simp only [readFieldsWithin, bind, Option.bind_eq_some_iff, Prod.exists] at h
      obtain ⟨field, s₁, hfield, h⟩ := h
      split at h
      · cases h
      · rename_i hused
        simp only [Option.bind_eq_some_iff, Prod.exists, pure, Option.some.injEq,
          Prod.mk.injEq] at h
        obtain ⟨tail, s₂, htail, rfl, rfl⟩ := h
        have hs := readField_sound hfield
        obtain ⟨hs₁, hsum⟩ := ih htail
        have hlength : s.length - s₁.length = field.write.length := by
          rw [hs, List.length_append, Nat.add_sub_cancel]
        rw [hlength] at hsum hused
        constructor
        · rw [hs, hs₁]
          simp [List.append_assoc]
        · rw [List.map_cons, List.sum_cons, hsum]
          omega

theorem readTemplate_sound {version : Nat} {s rest : Bytes} {t : Template}
    (h : readTemplate version s = some (t, rest)) : s = t.write ++ rest := by
  simp only [readTemplate, bind, Option.bind_eq_some_iff, Prod.exists, pure,
    Option.some.injEq, Prod.mk.injEq] at h
  obtain ⟨id, s₁, hid, count, s₂, hcount, fields, s₃, hfields, rfl, rfl⟩ := h
  obtain ⟨hs₂, hlength⟩ := readFields_sound hfields
  rw [(readInt_sound hid).1, (readInt_sound hcount).1, hs₂]
  by_cases hzero : count = 0
  · have hnil : fields = [] := List.eq_nil_of_length_eq_zero (hlength.trans hzero)
    simp [Template.write, hzero, hnil]
  · simp [Template.write, Template.fields, hzero, hlength]

theorem readOptionsTemplate_sound {version : Nat} {s rest : Bytes} {t : Template}
    (h : readOptionsTemplate version s = some (t, rest)) : s = t.write ++ rest := by
  simp only [readOptionsTemplate, bind, Option.bind_eq_some_iff, Prod.exists] at h
  obtain ⟨id, s₁, hid, first, s₂, hfirst, second, s₃, hsecond, h⟩ := h
  rw [(readInt_sound hid).1, (readInt_sound hfirst).1, (readInt_sound hsecond).1]
  split at h
  · rename_i hnine
    split at h
    · cases h
    · simp only [Option.bind_eq_some_iff, Prod.exists, pure, Option.some.injEq, Prod.mk.injEq] at h
      obtain ⟨scope, s₄, hscope, options, s₅, hoptions, rfl, rfl⟩ := h
      obtain ⟨hs₃, hscopeLength⟩ := readFieldsWithin_sound hscope
      obtain ⟨hs₄, hoptionsLength⟩ := readFieldsWithin_sound hoptions
      by_cases hzero : first = 0 ∧ second = 0
      · obtain ⟨rfl, rfl⟩ := hzero
        simp only [readFieldsWithin, Option.some.injEq, Prod.mk.injEq] at hscope hoptions
        obtain ⟨rfl, rfl⟩ := hscope
        obtain ⟨rfl, rfl⟩ := hoptions
        simp [Template.write, Template.scopeHeader]
      · rw [hs₃, hs₄]
        simp [Template.write, Template.scopeHeader, Template.fields, hzero, hnine,
          hscopeLength, hoptionsLength, List.append_assoc]
  · rename_i hnine
    split at h
    · cases h
    · rename_i hle
      simp only [Option.bind_eq_some_iff, Prod.exists, pure, Option.some.injEq, Prod.mk.injEq] at h
      obtain ⟨fields, s₄, hfields, rfl, rfl⟩ := h
      obtain ⟨hs₃, hlength⟩ := readFields_sound hfields
      rw [hs₃]
      by_cases hzero : first = 0 ∧ second = 0
      · have hnil : fields = [] := List.eq_nil_of_length_eq_zero (hlength.trans hzero.1)
        simp [Template.write, Template.scopeHeader, hzero, hnil]
      · have htake : (fields.take second).length = second :=
          List.length_take_of_le (by omega)
        simp only [Template.write, Template.scopeHeader, Template.fields, hzero, hnine,
          List.take_append_drop, htake, hlength]
        simp

/-- The bytes of a set that was framed. -/
def framedWire (set : Nat × Nat × Bytes) : Bytes :=
  BigEndian.ofNat 2 set.1 ++ BigEndian.ofNat 2 set.2.1 ++ set.2.2

theorem readSet_sound {s rest body : Bytes} {setId length : Nat}
    (h : readSet s = some ((setId, length, body), rest)) :
    s = BigEndian.ofNat 2 setId ++ BigEndian.ofNat 2 length ++ body ++ rest ∧ length < 65536 := by
  simp only [readSet, bind, Option.bind_eq_some_iff, Prod.exists] at h
  obtain ⟨id, s₁, hid, len, s₂, hlength, h⟩ := h
  obtain ⟨hs, -⟩ := readInt_sound hid
  obtain ⟨hs₁, hlt⟩ := readInt_sound hlength
  split at h
  · cases h
  · simp only [Option.bind_eq_some_iff, Prod.exists, pure, Option.some.injEq, Prod.mk.injEq] at h
    obtain ⟨content, s₃, hbody, ⟨rfl, rfl, rfl⟩, rfl⟩ := h
    rw [hs, hs₁, (takeBytes_sound hbody).1]
    exact ⟨by simp [List.append_assoc], hlt⟩

theorem nextTemplate_sound {version : Nat} {options : Bool} {s rest : Bytes} {t : Template}
    (h : FlowSet.nextTemplate version options s = some (t, rest)) : s = t.write ++ rest := by
  simp only [FlowSet.nextTemplate] at h
  split at h
  · cases h
  split at h
  · exact readOptionsTemplate_sound h
  · exact readTemplate_sound h

theorem nextTemplate_consumes (version : Nat) (options : Bool) :
    Records.Consumes (FlowSet.nextTemplate version options) := by
  intro s t rest h
  have hwrite : 0 < t.write.length := by
    simp only [Template.write]
    split <;> simp
  rw [nextTemplate_sound h, List.length_append]
  omega

theorem readSet_append {setId length : Nat} {body : Bytes} (hid : setId < 65536)
    (hlength : length < 65536) (hbody : length = 4 + body.length) (rest : Bytes) :
    readSet (BigEndian.ofNat 2 setId ++ BigEndian.ofNat 2 length ++ body ++ rest) =
      some ((setId, length, body), rest) := by
  have hless : ¬length < 4 := by omega
  have htake : length - 4 = body.length := by omega
  simp only [readSet, List.append_assoc]
  rw [readInt_ofNat hid]
  simp only [Option.bind_eq_bind, Option.bind_some]
  rw [readInt_ofNat hlength]
  simp only [Option.bind_some, hless, ↓reduceIte, htake]
  rw [takeBytes_append]
  rfl

theorem readSet_consumes : Records.Consumes readSet := by
  rintro s ⟨setId, length, body⟩ rest h
  obtain ⟨hs, -⟩ := readSet_sound h
  rw [hs]
  simp only [List.length_append, BigEndian.length_ofNat]
  omega

end Packets.Netflow
