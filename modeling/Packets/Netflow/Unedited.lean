/-
A datagram that was read and not edited is written as it came.

A record is written from the bytes it was read from, unless a property was read or a value
differs from the one decoded; then field by field.
-/
import Packets.Netflow.Datagram
import Packets.Lib.Commuting
import Mathlib.Data.List.Induction

namespace Packets.Netflow

open BigEndian (readInt readInt_sound takeBytes_sound)

/-- A key that is assigned to holds one of the values assigned to it. -/
theorem get?_assigned {V : Type} {pairs : List (FieldKey × V)} {key : FieldKey}
    (hkey : ∃ v, (key, v) ∈ pairs) :
    ∃ v, (assigned pairs).get? key = some v ∧ (key, v) ∈ pairs := by
  induction pairs using List.reverseRecOn with
  | nil =>
    obtain ⟨v, hv⟩ := hkey
    simp at hv
  | append_singleton pairs last ih =>
    have hset : assigned (pairs ++ [last]) = (assigned pairs).set last.1 last.2 := by
      simp [assigned, List.foldl_append]
    by_cases hlast : key = last.1
    · exact ⟨last.2, by rw [hset, Dict.get?_set, if_pos hlast], by simp [hlast]⟩
    · have hbefore : ∃ v, (key, v) ∈ pairs := by
        obtain ⟨v, hv⟩ := hkey
        rcases List.mem_append.mp hv with hmem | hmem
        · exact ⟨v, hmem⟩
        · rw [List.mem_singleton] at hmem
          exact absurd (congrArg Prod.fst hmem) hlast
      obtain ⟨v, hget, hmem⟩ := ih hbefore
      exact ⟨v, by rw [hset, Dict.get?_set, if_neg hlast, hget], List.mem_append_left _ hmem⟩

/-- A value with the shortest length in front that says how long it is. -/
def Slot.wire (slot : Slot) : Bytes :=
  if slot.field.variableLength then lengthPrefix slot.raw.length ++ slot.raw else slot.raw

/-- The bytes a field of a record can have. -/
def Slot.Fits (slot : Slot) : Prop :=
  if slot.field.variableLength then slot.raw.length ≤ 65535
  else slot.raw.length = slot.field.fieldLength

theorem Slot.Fits.encodeValue {slot : Slot} (h : slot.Fits) (coerce : Coercion) :
    encodeValue coerce slot.field (.raw slot.raw) = some slot.wire := by
  simp only [Slot.Fits] at h
  by_cases hvariable : slot.field.variableLength = true
  · rw [if_pos hvariable] at h
    simp [Netflow.encodeValue, encodeRaw, Slot.wire, hvariable, Nat.not_lt.mpr h]
  · rw [if_neg hvariable] at h
    simp [Netflow.encodeValue, encodeRaw, Slot.wire, hvariable, h]

theorem readValue_sound {f : TemplateField} {s raw rest : Bytes}
    (h : readValue f s = some (raw, rest)) :
    (∃ front, s = front ++ rest) ∧
      (if f.variableLength then raw.length ≤ 65535 else raw.length = f.fieldLength) := by
  simp only [readValue] at h
  split at h
  · rename_i hvariable
    rw [if_pos hvariable]
    cases s with
    | nil => cases h
    | cons b s =>
      dsimp only at h
      split at h
      · cases hlength : readInt 2 s with
        | none => simp [hlength] at h
        | some out =>
          obtain ⟨length, s₁⟩ := out
          rw [hlength] at h
          obtain ⟨hs, hlt⟩ := readInt_sound hlength
          obtain ⟨hs₁, hraw⟩ := takeBytes_sound h
          constructor
          · exact ⟨b :: (BigEndian.ofNat 2 length ++ raw), by simp [hs, hs₁]⟩
          · omega
      · obtain ⟨hs, hraw⟩ := takeBytes_sound h
        have hlt := b.toNat_lt
        exact ⟨⟨b :: raw, by simp [hs]⟩, by omega⟩
  · rename_i hvariable
    rw [if_neg hvariable]
    obtain ⟨hs, hraw⟩ := takeBytes_sound h
    exact ⟨⟨raw, hs⟩, hraw⟩

theorem readSlots_sound {fields : List TemplateField} {s rest : Bytes} {slots : List Slot}
    (h : readSlots fields s = some (slots, rest)) :
    (∃ front, s = front ++ rest) ∧ ∀ slot ∈ slots, slot.Fits := by
  induction fields generalizing s slots with
  | nil =>
    simp only [readSlots, Option.some.injEq, Prod.mk.injEq] at h
    obtain ⟨rfl, rfl⟩ := h
    exact ⟨⟨[], rfl⟩, by simp⟩
  | cons f fields ih =>
    simp only [readSlots, bind, Option.bind_eq_some_iff, Prod.exists, pure,
      Option.some.injEq, Prod.mk.injEq] at h
    obtain ⟨raw, s₁, hvalue, tail, s₂, htail, rfl, rfl⟩ := h
    obtain ⟨⟨front, hs⟩, hfits⟩ := readValue_sound hvalue
    obtain ⟨⟨behind, hs₁⟩, htailFits⟩ := ih htail
    constructor
    · exact ⟨front ++ behind, by rw [hs, hs₁, List.append_assoc]⟩
    · intro slot hslot
      rcases List.mem_cons.mp hslot with rfl | hslot
      · exact hfits
      · exact htailFits slot hslot

namespace DataRecord

/-- Nothing but reads happened to a record since it was decoded. -/
structure Unedited (r : DataRecord) : Prop where
  values : r.values = assigned (r.slots.map fun slot => (slot.field.key, slot.original))
  fits : ∀ slot ∈ r.slots, slot.Fits
  rawFields : r.rawFields = none ∨ r.rawFields = some r.builtRawFields
  originalFields : r.originalFields = none ∨ r.originalFields = some r.builtOriginalFields

/-- The mappings tell fields apart, and no length takes more octets than it needs.  Fields of
one key have one value, of one identity the same bytes, and a field found under another's
identity has its value, or is not interpreted. -/
structure Kept (r : DataRecord) : Prop where
  shortest : r.wire = r.slots.flatMap Slot.wire
  values : ∀ slot ∈ r.slots, ∀ other ∈ r.slots, slot.field.key = other.field.key →
    slot.original = other.original
  bytes : ∀ slot ∈ r.slots, ∀ other ∈ r.slots,
    slot.field.identity = other.field.identity → slot.raw = other.raw
  found : ∀ slot ∈ r.slots, ∀ other ∈ r.slots, slot.field.key = other.field.identity →
    slot.original = other.original ∨ slot.original = .raw slot.raw

instance (r : DataRecord) : Decidable r.Kept :=
  decidable_of_iff
    (r.wire = r.slots.flatMap Slot.wire ∧
      (∀ slot ∈ r.slots, ∀ other ∈ r.slots, slot.field.key = other.field.key →
        slot.original = other.original) ∧
      (∀ slot ∈ r.slots, ∀ other ∈ r.slots,
        slot.field.identity = other.field.identity → slot.raw = other.raw) ∧
      ∀ slot ∈ r.slots, ∀ other ∈ r.slots, slot.field.key = other.field.identity →
        slot.original = other.original ∨ slot.original = .raw slot.raw)
    ⟨fun h => ⟨h.1, h.2.1, h.2.2.1, h.2.2.2⟩, fun h => ⟨h.1, h.2, h.3, h.4⟩⟩

theorem Unedited.read {r : DataRecord} (h : r.Unedited) (what : Read) : (r.read what).Unedited := by
  cases what with
  | fields => exact h
  | rawData => exact h
  | rawFields =>
    refine ⟨h.values, h.fits, Or.inr ?_, h.originalFields⟩
    rcases h.rawFields with hnone | hbuilt
    · simp [DataRecord.read, hnone, builtRawFields]
    · simp [DataRecord.read, hbuilt, builtRawFields]
  | originalFields =>
    refine ⟨h.values, h.fits, h.rawFields, Or.inr ?_⟩
    rcases h.originalFields with hnone | hbuilt
    · simp [DataRecord.read, hnone, builtOriginalFields]
    · simp [DataRecord.read, hbuilt, builtOriginalFields]

@[simp] theorem wire_read (r : DataRecord) (what : Read) : (r.read what).wire = r.wire := by
  cases what <;> rfl

@[simp] theorem slots_read (r : DataRecord) (what : Read) : (r.read what).slots = r.slots := by
  cases what <;> rfl

theorem Kept.read {r : DataRecord} (h : r.Kept) (what : Read) : (r.read what).Kept := by
  constructor
  · simpa using h.shortest
  · simpa using h.values
  · simpa using h.bytes
  · simpa using h.found

section Write

variable {r : DataRecord} (hr : r.Unedited) (hkept : r.Kept) {slot : Slot}
  (hslot : slot ∈ r.slots)

include hr hkept hslot

theorem get?_values : r.values.get? slot.field.key = some slot.original := by
  have hkey : ∃ v, (slot.field.key, v) ∈
      r.slots.map fun other => (other.field.key, other.original) :=
    ⟨slot.original, List.mem_map_of_mem hslot⟩
  obtain ⟨v, hget, hmem⟩ := get?_assigned hkey
  obtain ⟨other, hother, heq⟩ := List.mem_map.mp hmem
  simp only [Prod.mk.injEq] at heq
  obtain ⟨hkeys, rfl⟩ := heq
  rw [hr.values, hget, hkept.values slot hslot other hother hkeys.symm]

theorem rawOf_kept : r.rawOf slot = some slot.raw := by
  rcases hr.rawFields with hnone | hbuilt
  · simp [rawOf, hnone]
  · have hkey : ∃ v, (slot.field.identity, v) ∈
        r.slots.map fun other => (other.field.identity, other.raw) :=
      ⟨slot.raw, List.mem_map_of_mem hslot⟩
    obtain ⟨v, hget, hmem⟩ := get?_assigned hkey
    obtain ⟨other, hother, heq⟩ := List.mem_map.mp hmem
    simp only [Prod.mk.injEq] at heq
    obtain ⟨hidentities, rfl⟩ := heq
    simp only [rawOf, hbuilt, builtRawFields]
    rw [hget, hkept.bytes slot hslot other hother hidentities.symm]

/-- A value that differs from the one it is compared with is not interpreted. -/
theorem originalOf_kept :
    r.originalOf slot = some slot.original ∨ slot.original = .raw slot.raw := by
  rcases hr.originalFields with hnone | hbuilt
  · exact Or.inl (by simp [originalOf, hnone])
  · have hkey : ∃ v, (slot.field.key, v) ∈ r.slots.flatMap fun other =>
        [(other.field.key, other.original), (other.field.identity, other.original)] :=
      ⟨slot.original, List.mem_flatMap.mpr ⟨slot, hslot, by simp⟩⟩
    obtain ⟨v, hget, hmem⟩ := get?_assigned hkey
    have hfound : r.originalOf slot = some v := by
      simp [originalOf, hbuilt, builtOriginalFields, hget]
    obtain ⟨other, hother, heq⟩ := List.mem_flatMap.mp hmem
    simp only [List.mem_cons, Prod.mk.injEq, List.not_mem_nil, or_false] at heq
    rcases heq with ⟨hkeys, rfl⟩ | ⟨hidentity, rfl⟩
    · rw [hfound, hkept.values slot hslot other hother hkeys]
      exact Or.inl rfl
    · rcases hkept.found slot hslot other hother hidentity with hsame | hraw
      · rw [hfound, hsame]
        exact Or.inl rfl
      · exact Or.inr hraw

theorem writeSlot_kept (coerce : Coercion) : r.writeSlot coerce slot = some slot.wire := by
  have hvalue := get?_values hr hkept hslot
  have hraw := rawOf_kept hr hkept hslot
  simp only [writeSlot, hvalue, hraw]
  by_cases horiginal : r.originalOf slot = some slot.original
  · rw [if_pos horiginal]
    rfl
  · rw [if_neg horiginal]
    have huninterpreted := (originalOf_kept hr hkept hslot).resolve_left horiginal
    rw [huninterpreted]
    exact (hr.fits slot hslot).encodeValue coerce

end Write

theorem write_kept {r : DataRecord} (hr : r.Unedited) (hkept : r.Kept) (coerce : Coercion) :
    r.write coerce = some r.wire := by
  by_cases hunchanged : r.unchanged = true
  · simp [write, hunchanged]
  · have hslots : r.slots.mapM (r.writeSlot coerce) = some (r.slots.map Slot.wire) :=
      CommutingMonad.mapM_of_pure fun slot hslot => writeSlot_kept hr hkept hslot coerce
    simp [write, hunchanged, hslots, hkept.shortest, List.flatMap_def]

end DataRecord

theorem decodeRecord_sound {t : Template} {s rest : Bytes} {r : DataRecord}
    (h : decodeRecord t s = some (r, rest)) : s = r.wire ++ rest ∧ r.Unedited := by
  simp only [decodeRecord] at h
  cases hslots : readSlots t.fields s with
  | none => simp [hslots] at h
  | some out =>
    obtain ⟨slots, left⟩ := out
    simp only [hslots, Option.some.injEq, Prod.mk.injEq] at h
    obtain ⟨rfl, rfl⟩ := h
    obtain ⟨⟨front, hs⟩, hfits⟩ := readSlots_sound hslots
    constructor
    · simp [hs]
    · exact ⟨rfl, hfits, Or.inl rfl, Or.inl rfl⟩

/-- The bytes of a set. -/
def FlowSet.wire (set : FlowSet) : Bytes :=
  BigEndian.ofNat 2 set.setId ++ BigEndian.ofNat 2 set.length ++
    (set.rawData ++ set.templates.flatMap Template.write ++
      set.records.flatMap DataRecord.wire ++ set.padding)

/-- Reading a property of one of the records of a set. -/
def FlowSet.read (set : FlowSet) (record : Nat) (what : DataRecord.Read) : FlowSet :=
  { set with records := set.records.modify record (DataRecord.read · what) }

/-- A framed set nothing of which is decoded. -/
structure FlowSet.Fresh (set : FlowSet) : Prop where
  length : set.length < 65536
  templates : set.templates = []
  records : set.records = []
  padding : set.padding = []

/-- What is decoded of a set is no longer kept undecoded. -/
structure FlowSet.Unedited (set : FlowSet) : Prop where
  length : set.length < 65536
  rawData : (set.templates = [] ∧ set.records = []) ∨ set.rawData = []
  records : ∀ r ∈ set.records, r.Unedited

/-- The length of a set is there, and its records are written as they came. -/
structure FlowSet.Kept (set : FlowSet) : Prop where
  length : set.length ≠ 0
  records : ∀ r ∈ set.records, r.Kept

instance (set : FlowSet) : Decidable set.Kept :=
  decidable_of_iff (set.length ≠ 0 ∧ ∀ r ∈ set.records, r.Kept)
    ⟨fun h => ⟨h.1, h.2⟩, fun h => ⟨h.1, h.2⟩⟩

theorem frameSets_sound (version : Nat) (s : Bytes) :
    s = (frameSets version s).1.flatMap FlowSet.wire ++ (frameSets version s).2 ∧
      ∀ set ∈ (frameSets version s).1, set.Fresh := by
  have hread := Records.readAll_sound readSet framedWire
    (fun _ _ _ hnext => (readSet_sound hnext).1) s.length s
  have hlength := Records.readAll_forall readSet (fun set => set.2.1 < 65536)
    (fun _ _ _ hnext => (readSet_sound hnext).2) s.length s
  simp only [frameSets]
  generalize Records.readAll readSet s.length s = run at hread hlength
  obtain ⟨framed, left⟩ := run
  dsimp only at hread hlength ⊢
  have hwire : (framed.map fun set : Nat × Nat × Bytes =>
      ({ version := version, setId := set.1, length := set.2.1,
         rawData := set.2.2 } : FlowSet)).flatMap FlowSet.wire = framed.flatMap framedWire := by
    rw [List.flatMap_map]
    congr 1
    funext set
    simp [FlowSet.wire, framedWire]
  have hfresh : ∀ set ∈ framed.map fun set : Nat × Nat × Bytes =>
      ({ version := version, setId := set.1, length := set.2.1,
         rawData := set.2.2 } : FlowSet), set.Fresh := by
    intro set hset
    obtain ⟨entry, hentry, rfl⟩ := List.mem_map.mp hset
    exact ⟨hlength entry hentry, rfl, rfl, rfl⟩
  cases hid : readInt 2 left with
  | none => exact ⟨by rw [hwire]; exact hread, hfresh⟩
  | some out =>
    obtain ⟨setId, left₁⟩ := out
    dsimp only
    cases hlen : readInt 2 left₁ with
    | none => exact ⟨by rw [hwire]; exact hread, hfresh⟩
    | some out =>
      obtain ⟨length, left₂⟩ := out
      obtain ⟨hleft, -⟩ := readInt_sound hid
      obtain ⟨hleft₁, hlt⟩ := readInt_sound hlen
      dsimp only
      constructor
      · rw [List.flatMap_append, hwire]
        conv_lhs => rw [hread, hleft, hleft₁]
        simp [FlowSet.wire, List.append_assoc]
      · intro set hset
        rcases List.mem_append.mp hset with hset | hset
        · exact hfresh set hset
        · rw [List.mem_singleton.mp hset]
          exact ⟨hlt, rfl, rfl, rfl⟩

theorem FlowSet.Fresh.unedited {set : FlowSet} (h : set.Fresh) : set.Unedited := by
  refine ⟨h.length, Or.inl ⟨h.templates, h.records⟩, ?_⟩
  simp [h.records]

theorem FlowSet.Fresh.decodeTemplates {set : FlowSet} (h : set.Fresh) :
    set.decodeTemplates.wire = set.wire ∧ set.decodeTemplates.Unedited ∧
      (set.decodeTemplates.isData → set.decodeTemplates.Fresh) := by
  simp only [FlowSet.decodeTemplates]
  cases hkind : set.templateKind with
  | none => exact ⟨rfl, h.unedited, fun _ => h⟩
  | some options =>
    have hread := Records.readAll_sound (FlowSet.nextTemplate set.version options)
      Template.write (fun _ _ _ => nextTemplate_sound) set.rawData.length set.rawData
    have hsmall : set.setId < 256 := by
      simp only [FlowSet.templateKind] at hkind
      split_ifs at hkind <;> omega
    refine ⟨?_, ⟨h.length, Or.inr rfl, by simp [h.records]⟩, ?_⟩
    · simp only [FlowSet.wire, h.templates, h.records, h.padding, List.flatMap_nil,
        List.append_nil, List.nil_append]
      conv_rhs => rw [hread]
    · intro hdata
      simp only [FlowSet.isData, Bool.and_eq_true, decide_eq_true_eq] at hdata
      omega

theorem nextRecord_sound {t : Template} {s rest : Bytes} {r : DataRecord}
    (h : FlowSet.nextRecord t s = some (r, rest)) : s = r.wire ++ rest ∧ r.Unedited := by
  simp only [FlowSet.nextRecord] at h
  split at h
  · cases h
  split at h
  · cases h
  · rename_i record left hrecord
    split at h
    · simp only [Option.some.injEq, Prod.mk.injEq] at h
      obtain ⟨rfl, rfl⟩ := h
      exact decodeRecord_sound hrecord
    · cases h

theorem FlowSet.Fresh.decodeData {set : FlowSet} (h : set.Fresh) (t : Template) :
    (set.decodeData t).wire = set.wire ∧ (set.decodeData t).Unedited := by
  have hread := Records.readAll_sound (FlowSet.nextRecord t) DataRecord.wire
    (fun _ _ _ hnext => (nextRecord_sound hnext).1) set.rawData.length set.rawData
  have hrecords := Records.readAll_forall (FlowSet.nextRecord t) DataRecord.Unedited
    (fun _ _ _ hnext => (nextRecord_sound hnext).2) set.rawData.length set.rawData
  refine ⟨?_, h.length, Or.inr rfl, hrecords⟩
  simp only [FlowSet.decodeData, FlowSet.wire, h.templates, h.records, h.padding,
    List.flatMap_nil, List.append_nil, List.nil_append]
  conv_rhs => rw [hread]

/-- A set is written as it came. -/
theorem FlowSet.write_kept {set : FlowSet} (h : set.Unedited) (hkept : set.Kept)
    (coerce : Coercion) : set.write coerce = some set.wire := by
  have hrecords : set.records.mapM (DataRecord.write coerce) =
      some (set.records.map DataRecord.wire) :=
    CommutingMonad.mapM_of_pure fun r hr =>
      DataRecord.write_kept (h.records r hr) (hkept.records r hr) coerce
  have hlength : ¬65535 < set.length := by have := h.length; omega
  simp only [FlowSet.write, hrecords, hkept.length, ↓reduceIte, hlength]
  rcases h.rawData with ⟨htemplates, hnone⟩ | hraw
  · simp [htemplates, hnone, FlowSet.wire]
  · by_cases hempty : set.templates.isEmpty && set.records.isEmpty
    · simp only [Bool.and_eq_true, List.isEmpty_iff] at hempty
      simp [hempty.1, hempty.2, FlowSet.wire]
    · simp [hempty, hraw, FlowSet.wire, List.flatMap_def]

namespace Datagram

/-- Reading a property of a record of a set. -/
def read (d : Datagram) (set record : Nat) (what : DataRecord.Read) : Datagram :=
  { d with flowsets := d.flowsets.modify set (FlowSet.read · record what) }

/-- Reading one property after another. -/
def readAll (d : Datagram) (reads : List (Nat × Nat × DataRecord.Read)) : Datagram :=
  reads.foldl (fun d what => d.read what.1 what.2.1 what.2.2) d

/-- The bytes of a datagram. -/
def wire (d : Datagram) : Bytes :=
  match d.header with
  | none => d.wireData
  | some header =>
    writeFixed header ++
      (if d.version = 1 ∨ d.version = 5 ∨ d.version = 7 then d.records.flatMap writeFixed
      else d.flowsets.flatMap FlowSet.wire) ++ d.rawData

def Unedited (d : Datagram) : Prop := ∀ set ∈ d.flowsets, set.Unedited

/-- Every set says how long it is, and every record of a set is written as it came. -/
def Kept (d : Datagram) : Prop := ∀ set ∈ d.flowsets, set.Kept

instance (d : Datagram) : Decidable d.Kept :=
  inferInstanceAs (Decidable (∀ set ∈ d.flowsets, set.Kept))

theorem write_kept {d : Datagram} (h : d.Unedited) (hkept : d.Kept) (coerce : Coercion) :
    d.write coerce = some d.wire := by
  have hsets : d.flowsets.mapM (FlowSet.write coerce) = some (d.flowsets.map FlowSet.wire) :=
    CommutingMonad.mapM_of_pure fun set hset =>
      FlowSet.write_kept (h set hset) (hkept set hset) coerce
  simp only [write, wire, hsets]
  cases d.header with
  | none => rfl
  | some header =>
    dsimp only
    split
    · rfl
    · simp [List.flatMap_def]

end Datagram

theorem forall_modify {α : Type} {P : α → Prop} {f : α → α} (hf : ∀ a, P a → P (f a))
    {l : List α} (h : ∀ a ∈ l, P a) (i : Nat) : ∀ a ∈ l.modify i f, P a := by
  induction l generalizing i with
  | nil => simp
  | cons head rest ih =>
    have hhead := h head List.mem_cons_self
    have hrest := fun a ha => h a (List.mem_cons_of_mem head ha)
    intro a ha
    cases i with
    | zero =>
      rcases List.mem_cons.mp ha with rfl | ha
      · exact hf head hhead
      · exact hrest a ha
    | succ i =>
      rcases List.mem_cons.mp ha with rfl | ha
      · exact hhead
      · exact ih hrest i a ha

theorem flatMap_modify {α β : Type} {g : α → List β} {f : α → α} (hf : ∀ a, g (f a) = g a)
    (l : List α) (i : Nat) : (l.modify i f).flatMap g = l.flatMap g := by
  induction l generalizing i with
  | nil => simp
  | cons head rest ih =>
    cases i with
    | zero => simp [hf]
    | succ i => simp [ih]

namespace FlowSet

theorem wire_read (set : FlowSet) (record : Nat) (what : DataRecord.Read) :
    (set.read record what).wire = set.wire := by
  simp only [wire, read]
  rw [flatMap_modify (DataRecord.wire_read · what)]

theorem Unedited.read {set : FlowSet} (h : set.Unedited) (record : Nat)
    (what : DataRecord.Read) : (set.read record what).Unedited := by
  refine ⟨h.length, ?_, forall_modify (fun _ hr => hr.read what) h.records record⟩
  rcases h.rawData with ⟨htemplates, hnone⟩ | hraw
  · exact Or.inl ⟨htemplates, by simp [FlowSet.read, hnone]⟩
  · exact Or.inr hraw

theorem Kept.read {set : FlowSet} (h : set.Kept) (record : Nat) (what : DataRecord.Read) :
    (set.read record what).Kept :=
  ⟨h.length, forall_modify (fun _ hr => hr.read what) h.records record⟩

end FlowSet

namespace Datagram

theorem wire_read (d : Datagram) (set record : Nat) (what : DataRecord.Read) :
    (d.read set record what).wire = d.wire := by
  simp only [wire, read]
  rw [flatMap_modify (FlowSet.wire_read · record what)]
  cases d.header <;> rfl

theorem write_readAll {d : Datagram} (h : d.Unedited) (hkept : d.Kept) (coerce : Coercion)
    (reads : List (Nat × Nat × DataRecord.Read)) :
    (d.readAll reads).write coerce = some d.wire := by
  induction reads generalizing d with
  | nil => exact write_kept h hkept coerce
  | cons what reads ih =>
    have hread := ih (d := d.read what.1 what.2.1 what.2.2)
      (forall_modify (fun _ hset => hset.read what.2.1 what.2.2) h what.1)
      (forall_modify (fun _ hset => hset.read what.2.1 what.2.2) hkept what.1)
    rwa [wire_read] at hread

end Datagram

section Parse

variable {E : Type} [DecidableEq E]

theorem parseFixed_sound (version : Nat) (header record : Layout) (data : Bytes)
    (hversion : version = 1 ∨ version = 5 ∨ version = 7) :
    (parseFixed version header record data).Unedited ∧
      (parseFixed version header record data).wire = data := by
  simp only [parseFixed]
  cases hheader : readLayout header data with
  | none => exact ⟨by simp [Datagram.Unedited, opaqueDatagram], rfl⟩
  | some out =>
    obtain ⟨fields, rest⟩ := out
    have hread := Records.readAll_sound (readLayout record) writeFixed
      (fun _ _ _ => readLayout_sound) (fixedValue fields "count") rest
    refine ⟨by simp [Datagram.Unedited], ?_⟩
    simp only [Datagram.wire, hversion, ↓reduceIte]
    conv_rhs => rw [readLayout_sound hheader, hread]
    simp [List.append_assoc]

theorem decodeSet_sound (c : Context E) (exporter : E) (source : Nat) {set : FlowSet}
    (h : set.Unedited) (hfresh : set.isData → set.Fresh) :
    (decodeSet c exporter source set).wire = set.wire ∧
      (decodeSet c exporter source set).Unedited := by
  simp only [decodeSet]
  split
  · rename_i hdata
    split
    · exact ⟨rfl, h⟩
    · exact (hfresh hdata).decodeData _
  · exact ⟨rfl, h⟩

/-- The sets and what is left behind them spell what was parsed. -/
theorem parseFlowsets_sound (c : Context E) (exporter : E) (version source : Nat) (s : Bytes) :
    (∀ set ∈ (parseFlowsets c exporter version source s).1.1, set.Unedited) ∧
      (parseFlowsets c exporter version source s).1.1.flatMap FlowSet.wire ++
        (parseFlowsets c exporter version source s).1.2.1 = s := by
  obtain ⟨hread, hfresh⟩ := frameSets_sound version s
  simp only [parseFlowsets]
  generalize List.foldl _ c _ = learned
  generalize frameSets version s = framed at hread hfresh
  obtain ⟨sets, left⟩ := framed
  dsimp only at hread hfresh ⊢
  have hsound : ∀ set ∈ sets,
      (decodeSet learned exporter source set.decodeTemplates).wire = set.wire ∧
        (decodeSet learned exporter source set.decodeTemplates).Unedited := by
    intro set hset
    obtain ⟨hwire, hunedited, hdata⟩ := (hfresh set hset).decodeTemplates
    obtain ⟨hdecoded, hfinal⟩ := decodeSet_sound learned exporter source hunedited hdata
    exact ⟨hdecoded.trans hwire, hfinal⟩
  constructor
  · intro set hset
    simp only [List.map_map, List.mem_map, Function.comp_apply] at hset
    obtain ⟨framedSet, hmem, rfl⟩ := hset
    exact (hsound framedSet hmem).2
  · rw [hread, List.map_map, List.flatMap_map]
    congr 1
    exact List.flatMap_congr fun set hset => (hsound set hset).1

theorem wire_flowsets {version : Nat} {fields : List FixedField} {sets : List FlowSet}
    {left data : Bytes} {simple : Bool} (hversion : ¬(version = 1 ∨ version = 5 ∨ version = 7)) :
    (⟨version, some fields, [], sets, left, data, simple⟩ : Datagram).wire =
      writeFixed fields ++ (sets.flatMap FlowSet.wire ++ left) := by
  simp [Datagram.wire, hversion, List.append_assoc]

theorem opaqueDatagram_sound (version : Nat) (data : Bytes) :
    (opaqueDatagram version data).Unedited ∧ (opaqueDatagram version data).wire = data :=
  ⟨by simp [Datagram.Unedited, opaqueDatagram], rfl⟩

/-- Every datagram is parsed into what spells it. -/
theorem parse_sound (c : Context E) (exporter : E) (data : Bytes) :
    (parse c exporter data).1.Unedited ∧ (parse c exporter data).1.wire = data := by
  simp only [parse]
  cases readInt 2 data with
  | none => exact opaqueDatagram_sound 0 data
  | some out =>
    obtain ⟨version, _⟩ := out
    dsimp only
    split_ifs with h1 h5 h7 h9 h10
    · exact parseFixed_sound version _ _ data (by omega)
    · exact parseFixed_sound version _ _ data (by omega)
    · exact parseFixed_sound version _ _ data (by omega)
    · cases hheader : readLayout V9_HEADER data with
      | none => exact opaqueDatagram_sound version data
      | some out =>
        obtain ⟨fields, rest⟩ := out
        obtain ⟨hsets, hwire⟩ := parseFlowsets_sound c exporter version
          (fixedValue fields "source_id") rest
        refine ⟨hsets, ?_⟩
        rw [wire_flowsets (by omega), hwire, ← readLayout_sound hheader]
    · cases hheader : readLayout IPFIX_HEADER data with
      | none => exact opaqueDatagram_sound version data
      | some out =>
        obtain ⟨fields, rest⟩ := out
        dsimp only
        split_ifs
        · refine ⟨by simp [Datagram.Unedited], ?_⟩
          rw [wire_flowsets (by omega)]
          exact (readLayout_sound hheader).symm
        · obtain ⟨hsets, hwire⟩ := parseFlowsets_sound c exporter version
            (fixedValue fields "source_id") (rest.take (fixedValue fields "length" - 16))
          have hrest := List.take_append_drop (fixedValue fields "length" - 16) rest
          rw [← hwire, List.append_assoc] at hrest
          refine ⟨hsets, ?_⟩
          rw [wire_flowsets (by omega), hrest, ← readLayout_sound hheader]
    · exact opaqueDatagram_sound version data

/-- **A datagram that was only read is written as it came**, if every set says how long it
is and every record is kept. -/
theorem parse_readAll_write (coerce : Coercion) (c : Context E) (exporter : E) (data : Bytes)
    (reads : List (Nat × Nat × DataRecord.Read)) (hkept : (parse c exporter data).1.Kept) :
    ((parse c exporter data).1.readAll reads).write coerce = some data := by
  obtain ⟨hunedited, hwire⟩ := parse_sound c exporter data
  rw [Datagram.write_readAll hunedited hkept coerce reads, hwire]

end Parse

/-- A v9 datagram that defines template 256 of the given elements, each with its length,
and has one record of it. -/
def templateAndRecord (elements : List (Nat × Nat)) (record : Bytes) : Bytes :=
  [0, 9, 0, 2] ++ List.replicate 16 0 ++ [0, 0] ++ BigEndian.ofNat 2 (8 + 4 * elements.length) ++
    [1, 0] ++ BigEndian.ofNat 2 elements.length ++
    (elements.flatMap fun e => BigEndian.ofNat 2 e.1 ++ BigEndian.ofNat 2 e.2) ++
    [1, 0] ++ BigEndian.ofNat 2 (4 + record.length) ++ record

/-- An address and an interface, read in every way. -/
theorem parse_readAll_write_record :
    ((parse (⟨Dict.empty, false⟩ : Context Unit) ()
        (templateAndRecord [(8, 4), (10, 2)] [10, 0, 0, 1, 0, 7])).1.readAll
      [(1, 0, .fields), (1, 0, .rawFields), (1, 0, .originalFields)]).write (fun _ _ => none) =
      some (templateAndRecord [(8, 4), (10, 2)] [10, 0, 0, 1, 0, 7]) :=
  parse_readAll_write _ _ _ _ _ (by decide +kernel)

/-- An element that occurs twice is written with its last value both times. -/
theorem not_parse_readAll_write :
    ¬∀ (coerce : Coercion) (c : Context Unit) (data : Bytes)
      (reads : List (Nat × Nat × DataRecord.Read)),
      ((parse c () data).1.readAll reads).write coerce = some data := by
  intro hwrite
  have htwice := hwrite (fun _ _ => none) ⟨Dict.empty, false⟩
    (templateAndRecord [(10, 2), (10, 2)] [0, 1, 0, 2]) []
  have hsame : some (templateAndRecord [(10, 2), (10, 2)] [0, 2, 0, 2]) =
      some (templateAndRecord [(10, 2), (10, 2)] [0, 1, 0, 2]) :=
    htwice ▸ (by decide +kernel)
  exact absurd hsame (by decide)

end Packets.Netflow
