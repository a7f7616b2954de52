/-
What exporters send: v9 and IPFIX messages, and the templates they leave in force.

A message is well formed for the templates in force once its own have been read.
-/
import Packets.Netflow.Datagram

namespace Packets.Netflow

/-- A field as a template announces it. -/
structure FieldSpecifier where
  element : Nat
  length : Nat
  enterprise : Option Nat
deriving DecidableEq

namespace FieldSpecifier

def toField (f : FieldSpecifier) : TemplateField := .learned f.element f.length f.enterprise

/-- Only IPFIX has enterprise numbers, and marks them in the element's number. -/
structure WellFormed (version : Nat) (f : FieldSpecifier) : Prop where
  pos : 0 < f.length
  length : f.length < 65536
  element : f.element < if version = 10 then 32768 else 65536
  enterprise : ∀ n ∈ f.enterprise, version = 10 ∧ n < 4294967296

def encode (f : FieldSpecifier) : Bytes :=
  match f.enterprise with
  | none => BigEndian.ofNat 2 f.element ++ BigEndian.ofNat 2 f.length
  | some n =>
    BigEndian.ofNat 2 (32768 + f.element) ++ BigEndian.ofNat 2 f.length ++ BigEndian.ofNat 4 n

end FieldSpecifier

def encodeFields (fields : List FieldSpecifier) : Bytes := fields.flatMap FieldSpecifier.encode

/-- A record of a template set.  The scope of a data template is empty. -/
inductive TemplateRecord where
  | define (id : Nat) (scope fields : List FieldSpecifier)
  | withdraw (id : Nat)
  | withdrawAll
deriving DecidableEq

namespace TemplateRecord

structure Defines (version : Nat) (options : Bool) (id : Nat)
    (scope fields : List FieldSpecifier) : Prop where
  low : 256 ≤ id
  high : id < 65536
  unscoped : options = false → scope = []
  nonempty : scope ++ fields ≠ []
  specifiers : ∀ f ∈ scope ++ fields, f.WellFormed version

def WellFormed (version : Nat) (options : Bool) : TemplateRecord → Prop
  | define id scope fields => Defines version options id scope fields
  | withdraw id => 256 ≤ id ∧ id < 65536
  | withdrawAll => True

/-- The number of the sets of a kind, which also stands for all templates of that kind. -/
def setId (version : Nat) (options : Bool) : Nat :=
  if version = 9 then (if options then 1 else 0) else if options then 3 else 2

/-- A withdrawal in IPFIX has no second count, whatever the kind. -/
def encodeWithdrawal (version : Nat) (options : Bool) (id : Nat) : Bytes :=
  BigEndian.ofNat 2 id ++ BigEndian.ofNat 2 0 ++
    if version = 9 ∧ options then BigEndian.ofNat 2 0 else []

def encode (version : Nat) (options : Bool) : TemplateRecord → Bytes
  | define id scope fields =>
    let counts :=
      if options then
        if version = 9 then
          BigEndian.ofNat 2 (encodeFields scope).length ++
            BigEndian.ofNat 2 (encodeFields fields).length
        else
          BigEndian.ofNat 2 (scope.length + fields.length) ++ BigEndian.ofNat 2 scope.length
      else BigEndian.ofNat 2 fields.length
    BigEndian.ofNat 2 id ++ counts ++ encodeFields scope ++ encodeFields fields
  | withdraw id => encodeWithdrawal version options id
  | withdrawAll => encodeWithdrawal version options (setId version options)

end TemplateRecord

/-- The bytes of a field with a content. -/
inductive Carries (f : TemplateField) : Bytes → Bytes → Prop where
  | fixed {raw : Bytes} (hfixed : f.variableLength = false)
      (hlength : raw.length = f.fieldLength) : Carries f raw raw
  | short {raw : Bytes} (hvariable : f.variableLength = true) (hlength : raw.length < 255) :
      Carries f raw (UInt8.ofNat raw.length :: raw)
  | long {raw : Bytes} (hvariable : f.variableLength = true) (hlength : raw.length < 65536) :
      Carries f raw (255 :: (BigEndian.ofNat 2 raw.length ++ raw))

/-- The bytes of a record with the contents of its fields. -/
inductive Spells : List TemplateField → List Bytes → Bytes → Prop where
  | nil : Spells [] [] []
  | cons {f : TemplateField} {fields : List TemplateField} {raw s rest : Bytes}
      {raws : List Bytes} (head : Carries f raw s) (tail : Spells fields raws rest) :
      Spells (f :: fields) (raw :: raws) (s ++ rest)

def IsRecord (t : Template) (s : Bytes) : Prop := ∃ raws, Spells t.fields raws s

/-- A set of a message. -/
inductive MessageSet where
  | templates (options : Bool) (records : List TemplateRecord) (padding : Bytes)
  | data (setId : Nat) (records : List Bytes) (padding : Bytes)

namespace MessageSet

def setId (version : Nat) : MessageSet → Nat
  | templates options _ _ => TemplateRecord.setId version options
  | data setId _ _ => setId

def body (version : Nat) : MessageSet → Bytes
  | templates options records padding =>
    records.flatMap (TemplateRecord.encode version options) ++ padding
  | data _ records padding => records.flatten ++ padding

def encode (version : Nat) (set : MessageSet) : Bytes :=
  BigEndian.ofNat 2 (set.setId version) ++ BigEndian.ofNat 2 (4 + (set.body version).length) ++
    set.body version

/-- In v9 padding reaches the next multiple of four octets, and should be zeros.  In IPFIX
it is zeros, and shorter than any record of the set. -/
def Padded (version : Nat) (fits : Bytes → Prop) (padding : Bytes) : Prop :=
  if version = 9 then padding.length ≤ 3
  else (∀ b ∈ padding, b = 0) ∧ ∀ s, fits s → padding.length < s.length

/-- `inForce` gives the templates of the message's exporter and domain by their numbers. -/
def WellFormed (version : Nat) (inForce : Nat → Option Template) : MessageSet → Prop
  | templates options records padding =>
    (∀ record ∈ records, record.WellFormed version options) ∧
      Padded version (fun s => ∃ record : TemplateRecord,
        record.WellFormed version options ∧ s = record.encode version options) padding
  | data setId records padding =>
    256 ≤ setId ∧ setId < 65536 ∧
      ∀ t, inForce setId = some t →
        (∀ s ∈ records, IsRecord t s) ∧ Padded version (IsRecord t) padding

end MessageSet

/-- The count and the uptime are those of v9. -/
structure Message where
  version : Nat
  count : Nat
  uptime : Nat
  seconds : Nat
  sequence : Nat
  source : Nat
  sets : List MessageSet

namespace Message

def content (m : Message) : Bytes := m.sets.flatMap (MessageSet.encode m.version)

def encode (m : Message) : Bytes :=
  if m.version = 9 then
    BigEndian.ofNat 2 9 ++ (BigEndian.ofNat 2 m.count ++ (BigEndian.ofNat 4 m.uptime ++
      (BigEndian.ofNat 4 m.seconds ++ (BigEndian.ofNat 4 m.sequence ++
        (BigEndian.ofNat 4 m.source ++ m.content)))))
  else
    BigEndian.ofNat 2 10 ++ (BigEndian.ofNat 2 (16 + m.content.length) ++
      (BigEndian.ofNat 4 m.seconds ++ (BigEndian.ofNat 4 m.sequence ++
        (BigEndian.ofNat 4 m.source ++ m.content))))

structure WellFormed (inForce : Nat → Option Template) (m : Message) : Prop where
  version : m.version = 9 ∨ m.version = 10
  count : m.count < 65536
  uptime : m.uptime < 4294967296
  seconds : m.seconds < 4294967296
  sequence : m.sequence < 4294967296
  source : m.source < 4294967296
  sets : ∀ set ∈ m.sets, set.WellFormed m.version inForce ∧ 4 + (set.body m.version).length < 65536
  length : m.version = 10 → 16 + m.content.length < 65536

end Message

/-- By version, exporter, domain and number. -/
abbrev Registry (E : Type) := Nat → E → Nat → Nat → Option Template

namespace Registry

variable {E : Type} [DecidableEq E]

/-- A definition replaces the template of its number, and a withdrawal takes it back. -/
def apply (registry : Registry E) (version : Nat) (exporter : E) (source : Nat)
    (options : Bool) (record : TemplateRecord) : Registry E :=
  fun v e s id =>
    if v = version ∧ e = exporter ∧ s = source then
      match record with
      | .define defined scope fields =>
        if id = defined then
          some ⟨version, id, options, scope.map FieldSpecifier.toField,
            fields.map FieldSpecifier.toField, false⟩
        else registry v e s id
      | .withdraw withdrawn => if id = withdrawn then none else registry v e s id
      | .withdrawAll => (registry v e s id).filter fun t => t.options ≠ options
    else registry v e s id

def applySet (registry : Registry E) (version : Nat) (exporter : E) (source : Nat) :
    MessageSet → Registry E
  | .templates options records _ =>
    records.foldl (fun registry => registry.apply version exporter source options) registry
  | .data _ _ _ => registry

/-- The templates in force once the template sets of a message have been read. -/
def after (registry : Registry E) (exporter : E) (m : Message) : Registry E :=
  m.sets.foldl (fun registry => registry.applySet m.version exporter m.source) registry

/-- The templates in force after messages from exporters. -/
def afterAll (registry : Registry E) (messages : List (E × Message)) : Registry E :=
  messages.foldl (fun registry m => registry.after m.1 m.2) registry

end Registry

/-- A condition on every message of a run, with the templates in force for it. -/
def Along {E : Type} [DecidableEq E] (condition : (Nat → Option Template) → Message → Prop) :
    Registry E → List (E × Message) → Prop
  | _, [] => True
  | registry, (exporter, m) :: rest =>
    let registry := registry.after exporter m
    condition (registry m.version exporter m.source) m ∧ Along condition registry rest

end Packets.Netflow
