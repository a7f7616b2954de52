/-
Every data set is decoded with its own template.
-/
import Packets.Netflow.Messages

namespace Packets.Netflow

open BigEndian (readInt readInt_ofNat takeBytes_append)

theorem readField_encode {version : Nat} {f : FieldSpecifier} (h : f.WellFormed version)
    (rest : Bytes) : readField version (f.encode ++ rest) = some (f.toField, rest) := by
  have hpos := h.pos
  have helement := h.element
  have hzero : f.length ≠ 0 := by omega
  cases henterprise : f.enterprise with
  | none =>
    have hlow : ¬(version = 10 ∧ 32768 ≤ f.element) := by
      rintro ⟨hversion, hle⟩
      rw [if_pos hversion] at helement
      omega
    have hsmall : f.element < 65536 := by split at helement <;> omega
    simp only [FieldSpecifier.encode, henterprise, List.append_assoc, readField]
    rw [readInt_ofNat hsmall]
    simp only [Option.bind_eq_bind, Option.bind_some]
    rw [readInt_ofNat h.length]
    simp [hzero, hlow, FieldSpecifier.toField, henterprise]
  | some n =>
    obtain ⟨hversion, hn⟩ := h.enterprise n henterprise
    rw [if_pos hversion] at helement
    have hsmall : 32768 + f.element < 65536 := by omega
    simp only [FieldSpecifier.encode, henterprise, List.append_assoc, readField]
    rw [readInt_ofNat hsmall]
    simp only [Option.bind_eq_bind, Option.bind_some]
    rw [readInt_ofNat h.length]
    simp only [Option.bind_some, hzero, ↓reduceIte, hversion, Nat.le_add_right, and_self]
    rw [readInt_ofNat hn]
    simp [FieldSpecifier.toField, henterprise]

theorem readFields_encode {version : Nat} {fields : List FieldSpecifier}
    (h : ∀ f ∈ fields, f.WellFormed version) (rest : Bytes) :
    readFields version fields.length (encodeFields fields ++ rest) =
      some (fields.map FieldSpecifier.toField, rest) := by
  induction fields with
  | nil => rfl
  | cons f fields ih =>
    have hhead := readField_encode (h f List.mem_cons_self) (encodeFields fields ++ rest)
    have htail := ih fun g hg => h g (List.mem_cons_of_mem f hg)
    have hsplit : encodeFields (f :: fields) ++ rest =
        f.encode ++ (encodeFields fields ++ rest) := by
      simp [encodeFields]
    simp [hsplit, readFields, hhead, htail]

theorem encode_length_pos (f : FieldSpecifier) : 0 < f.encode.length := by
  cases henterprise : f.enterprise <;> simp [FieldSpecifier.encode, henterprise]

theorem readFieldsWithin_encode {version fuel : Nat} {fields : List FieldSpecifier}
    (h : ∀ f ∈ fields, f.WellFormed version) (rest : Bytes)
    (hfuel : (encodeFields fields).length ≤ fuel) :
    readFieldsWithin version fuel (encodeFields fields).length (encodeFields fields ++ rest) =
      some (fields.map FieldSpecifier.toField, rest) := by
  induction fields generalizing fuel with
  | nil => cases fuel <;> rfl
  | cons f fields ih =>
    have hhead := readField_encode (h f List.mem_cons_self) (encodeFields fields ++ rest)
    have hpos := encode_length_pos f
    have hsplit : encodeFields (f :: fields) ++ rest =
        f.encode ++ (encodeFields fields ++ rest) := by
      simp [encodeFields]
    have hlength : (encodeFields (f :: fields)).length =
        f.encode.length + (encodeFields fields).length := by
      simp [encodeFields]
    obtain ⟨left, hleft⟩ : ∃ left, (encodeFields (f :: fields)).length = left + 1 :=
      Nat.exists_eq_succ_of_ne_zero (by omega)
    obtain ⟨fuel, rfl⟩ : ∃ n, fuel = n + 1 := Nat.exists_eq_succ_of_ne_zero (by omega)
    have htail : readFieldsWithin version fuel (encodeFields fields).length
        (encodeFields fields ++ rest) = some (fields.map FieldSpecifier.toField, rest) :=
      ih (fun g hg => h g (List.mem_cons_of_mem f hg)) (by omega)
    have hnot : ¬left + 1 < f.encode.length := by omega
    have hrest : left + 1 - f.encode.length = (encodeFields fields).length := by omega
    rw [hleft, hsplit]
    simp [readFieldsWithin, hhead, hnot, hrest, htail]

theorem isPadding_of_three_lt {s : Bytes} (h : 3 < s.length) : isPadding s = false := by
  have hlong : ¬s.length ≤ 3 := by omega
  simp only [isPadding, hlong, decide_false, Bool.false_and]

theorem isPadding_append_right {front s : Bytes} (h : isPadding (front ++ s) = true) :
    isPadding s = true := by
  simp only [isPadding, Bool.and_eq_true, decide_eq_true_eq, List.length_append,
    List.all_append] at h ⊢
  exact ⟨by omega, h.2.2⟩

namespace TemplateRecord

/-- The template a record is read as. -/
def template (version : Nat) (options : Bool) : TemplateRecord → Template
  | define id scope fields =>
    ⟨version, id, options, scope.map FieldSpecifier.toField,
      fields.map FieldSpecifier.toField, false⟩
  | withdraw id => ⟨version, id, options, [], [], true⟩
  | withdrawAll => ⟨version, setId version options, options, [], [], true⟩

/-- IPFIX options templates are not withdrawn. -/
def Supported (version : Nat) (options : Bool) (record : TemplateRecord) : Prop :=
  version = 10 → options = true → ∃ id scope fields, record = define id scope fields

theorem length_encodeFields_le (fields : List FieldSpecifier) :
    fields.length ≤ (encodeFields fields).length := by
  induction fields with
  | nil => exact Nat.le_refl 0
  | cons f fields ih =>
    have hpos := encode_length_pos f
    simp only [encodeFields, List.flatMap_cons, List.length_append, List.length_cons] at ih ⊢
    omega

theorem read_withdrawal {version id : Nat} {options : Bool}
    (hversion : version = 9 ∨ version = 10) (hid : id < 65536)
    (hsupported : ¬(version = 10 ∧ options = true)) (rest : Bytes) :
    (if options then readOptionsTemplate version (encodeWithdrawal version options id ++ rest)
      else readTemplate version (encodeWithdrawal version options id ++ rest)) =
      some (⟨version, id, options, [], [], true⟩, rest) := by
  cases options with
  | false =>
    simp only [encodeWithdrawal, Bool.false_eq_true, and_false, ↓reduceIte, List.append_nil,
      List.append_assoc, readTemplate]
    rw [readInt_ofNat hid]
    simp only [Option.bind_eq_bind, Option.bind_some]
    rw [readInt_ofNat (by omega)]
    simp [readFields]
  | true =>
    have hnine : version = 9 := by
      rcases hversion with h | h
      · exact h
      · exact absurd ⟨h, rfl⟩ hsupported
    subst hnine
    simp only [encodeWithdrawal, and_self, ↓reduceIte, List.append_assoc, readOptionsTemplate]
    rw [readInt_ofNat hid]
    simp only [Option.bind_eq_bind, Option.bind_some]
    rw [readInt_ofNat (by omega)]
    simp only [Option.bind_some]
    rw [readInt_ofNat (by omega)]
    simp [readFieldsWithin]

theorem read_define {version id : Nat} {options : Bool} {scope fields : List FieldSpecifier}
    (hversion : version = 9 ∨ version = 10) (h : Defines version options id scope fields)
    (hlength : (encode version options (define id scope fields)).length < 65536) (rest : Bytes) :
    (if options then
        readOptionsTemplate version (encode version options (define id scope fields) ++ rest)
      else readTemplate version (encode version options (define id scope fields) ++ rest)) =
      some (template version options (define id scope fields), rest) := by
  have hscope := length_encodeFields_le scope
  have hfields := length_encodeFields_le fields
  have hcount : scope.length + fields.length ≠ 0 := by
    have hne := List.length_pos_iff.mpr h.nonempty
    rw [List.length_append] at hne
    omega
  have htotal : (encodeFields scope).length + (encodeFields fields).length < 65536 := by
    simp only [encode, List.length_append] at hlength
    omega
  cases options with
  | false =>
    have hnil := h.unscoped rfl
    subst hnil
    have hread := readFields_encode (fun f hf => h.specifiers f (by simpa using hf)) rest
    have hsome : fields ≠ [] := by simpa using h.nonempty
    simp only [encode, Bool.false_eq_true, ↓reduceIte, List.append_assoc, readTemplate]
    rw [readInt_ofNat h.high]
    simp only [Option.bind_eq_bind, Option.bind_some]
    rw [readInt_ofNat (by omega)]
    simp [encodeFields] at hread ⊢
    simp [hread, template, hsome]
  | true =>
    simp only [encode, ↓reduceIte, List.append_assoc, readOptionsTemplate]
    rw [readInt_ofNat h.high]
    simp only [Option.bind_eq_bind, Option.bind_some]
    rcases hversion with rfl | rfl
    · have hscopeRead := readFieldsWithin_encode
        (fun f hf => h.specifiers f (List.mem_append_left fields hf))
        (encodeFields fields ++ rest) (Nat.le_refl (encodeFields scope).length)
      have hfieldsRead := readFieldsWithin_encode
        (fun f hf => h.specifiers f (List.mem_append_right scope hf)) rest
        (Nat.le_refl (encodeFields fields).length)
      simp only [↓reduceIte, List.append_assoc]
      rw [readInt_ofNat (by omega)]
      simp only [Option.bind_some]
      rw [readInt_ofNat (by omega)]
      have henough : ¬(encodeFields scope ++ (encodeFields fields ++ rest)).length <
          (encodeFields scope).length + (encodeFields fields).length := by
        simp only [List.length_append]
        omega
      have hdefined : ¬((encodeFields scope).length = 0 ∧ (encodeFields fields).length = 0) := by
        omega
      simp only [Option.bind_some, henough, ↓reduceIte, hscopeRead, hfieldsRead, hdefined,
        decide_false, template]
      rfl
    · have hread := readFields_encode (fun f hf => h.specifiers f hf) rest
      simp only [show ¬(10 : Nat) = 9 by decide, ↓reduceIte, List.append_assoc]
      rw [readInt_ofNat (by omega)]
      simp only [Option.bind_some]
      rw [readInt_ofNat (by omega)]
      have hboth : encodeFields (scope ++ fields) = encodeFields scope ++ encodeFields fields :=
        List.flatMap_append
      have henough : ¬scope.length + fields.length < scope.length := by omega
      have hdefined : ¬(scope.length + fields.length = 0 ∧ scope.length = 0) := by omega
      rw [hboth, List.length_append, List.append_assoc] at hread
      simp only [Option.bind_some, henough, ↓reduceIte, hread, hdefined, decide_false,
        template, List.map_append]
      simp

theorem four_le_length_encode (version : Nat) (options : Bool) (record : TemplateRecord) :
    4 ≤ (record.encode version options).length := by
  cases record with
  | define id scope fields =>
    simp only [encode, List.length_append, BigEndian.length_ofNat]
    split_ifs <;> simp <;> omega
  | withdraw id => simp [encode, encodeWithdrawal]; omega
  | withdrawAll => simp [encode, encodeWithdrawal]; omega

/-- A record is taken off the front of a set. -/
theorem nextTemplate_encode {version : Nat} {options : Bool} {record : TemplateRecord}
    (hversion : version = 9 ∨ version = 10) (hwf : record.WellFormed version options)
    (hsupported : record.Supported version options)
    (hlength : (record.encode version options).length < 65536) (rest : Bytes) :
    FlowSet.nextTemplate version options (record.encode version options ++ rest) =
      some (record.template version options, rest) := by
  have hfour := four_le_length_encode version options record
  have hpadding : isPadding (record.encode version options ++ rest) = false :=
    isPadding_of_three_lt (by rw [List.length_append]; omega)
  simp only [FlowSet.nextTemplate, hpadding, Bool.false_eq_true, ↓reduceIte]
  have hwithdrawal : (∀ id scope fields, record ≠ define id scope fields) →
      ¬(version = 10 ∧ options = true) := by
    rintro hne ⟨hten, hoptions⟩
    obtain ⟨id, scope, fields, hdefine⟩ := hsupported hten hoptions
    exact hne id scope fields hdefine
  cases record with
  | define id scope fields => exact read_define hversion hwf hlength rest
  | withdraw id => exact read_withdrawal hversion hwf.2 (hwithdrawal (by simp)) rest
  | withdrawAll =>
    have hid : setId version options < 65536 := by
      simp only [setId]
      split_ifs <;> omega
    exact read_withdrawal hversion hid (hwithdrawal (by simp)) rest

end TemplateRecord

/-- A set as the decoder frames it. -/
def MessageSet.framed (version : Nat) (set : MessageSet) : FlowSet where
  version := version
  setId := set.setId version
  length := 4 + (set.body version).length
  rawData := set.body version

theorem templateKind_framed {version : Nat} (hversion : version = 9 ∨ version = 10)
    (options : Bool) (records : List TemplateRecord) (padding : Bytes) :
    ((MessageSet.templates options records padding).framed version).templateKind =
      some options := by
  rcases hversion with rfl | rfl <;> cases options <;>
    simp [MessageSet.framed, MessageSet.setId, TemplateRecord.setId, FlowSet.templateKind]

/-- A template set is read as its records. -/
theorem decodeTemplates_templates {version : Nat} {options : Bool} {records : List TemplateRecord}
    {padding : Bytes} (hversion : version = 9 ∨ version = 10)
    (hwf : ∀ record ∈ records, record.WellFormed version options)
    (hsupported : ∀ record ∈ records, record.Supported version options)
    (hpadding : isPadding padding = true)
    (hlength : ((MessageSet.templates options records padding).body version).length < 65536) :
    ((MessageSet.templates options records padding).framed version).decodeTemplates =
      { (MessageSet.templates options records padding).framed version with
        templates := records.map (TemplateRecord.template version options)
        rawData := []
        padding := padding } := by
  have hshort : ∀ record ∈ records, (record.encode version options).length < 65536 := by
    intro record hrecord
    have hle := (List.sublist_flatten_of_mem
      (List.mem_map_of_mem (f := TemplateRecord.encode version options) hrecord)).length_le
    rw [← List.flatMap_def] at hle
    simp only [MessageSet.body, List.length_append] at hlength
    omega
  have hnext : ∀ record ∈ records, ∀ rest,
      FlowSet.nextTemplate version options (record.encode version options ++ rest) =
        some (record.template version options, rest) := fun record hrecord =>
    TemplateRecord.nextTemplate_encode hversion (hwf record hrecord)
      (hsupported record hrecord) (hshort record hrecord)
  have hwrite : ∀ record ∈ records,
      record.encode version options = (record.template version options).write := by
    intro record hrecord
    simpa using nextTemplate_sound (hnext record hrecord [])
  have hbody : (MessageSet.templates options records padding).body version =
      (records.map (TemplateRecord.template version options)).flatMap Template.write ++
        padding := by
    simp only [MessageSet.body, List.flatMap_map]
    congr 1
    exact List.flatMap_congr hwrite
  have hnone : FlowSet.nextTemplate version options padding = none := by
    simp [FlowSet.nextTemplate, hpadding]
  have hback : ∀ t ∈ records.map (TemplateRecord.template version options), ∀ rest,
      FlowSet.nextTemplate version options (t.write ++ rest) = some (t, rest) := by
    intro t ht rest
    obtain ⟨record, hrecord, rfl⟩ := List.mem_map.mp ht
    rw [← hwrite record hrecord]
    exact hnext record hrecord rest
  have hread := Records.readAll_flatMap (nextTemplate_consumes version options) hback hnone
  simp only [FlowSet.decodeTemplates, templateKind_framed hversion]
  simp only [MessageSet.framed] at hread ⊢
  rw [hbody, hread]
  simp [hpadding]

/-- A template the decoder can use. -/
structure Template.Usable (t : Template) : Prop where
  defined : t.withdrawn = false
  nonempty : t.fields ≠ []
  positive : ∀ f ∈ t.fields, 0 < f.fieldLength

/-- A record decoded with a template from its bytes. -/
structure RecordDecodes (t : Template) (s : Bytes) (r : DataRecord) : Prop where
  template : r.template = t
  wire : r.wire = s
  fields : r.slots.map Slot.field = t.fields
  contents : Spells t.fields (r.slots.map Slot.raw) s

theorem readValue_carries {f : TemplateField} {raw s : Bytes} (h : Carries f raw s)
    (rest : Bytes) : readValue f (s ++ rest) = some (raw, rest) := by
  cases h with
  | fixed hfixed hlength =>
    simp only [readValue, hfixed, Bool.false_eq_true, ↓reduceIte, ← hlength]
    exact takeBytes_append raw rest
  | short hvariable hlength =>
    have hbyte : (UInt8.ofNat raw.length).toNat = raw.length := by
      rw [UInt8.toNat_ofNat']
      omega
    have hne : ¬UInt8.ofNat raw.length = 255 := by
      intro heq
      have hnat := congrArg UInt8.toNat heq
      rw [hbyte] at hnat
      simp at hnat
      omega
    simp only [readValue, hvariable, ↓reduceIte, List.cons_append, hne, hbyte]
    exact takeBytes_append raw rest
  | long hvariable hlength =>
    simp only [readValue, hvariable, ↓reduceIte, List.cons_append, List.append_assoc]
    rw [readInt_ofNat hlength]
    exact takeBytes_append raw rest

theorem readSlots_spells {fields : List TemplateField} {raws : List Bytes} {s : Bytes}
    (h : Spells fields raws s) (rest : Bytes) :
    ∃ slots, readSlots fields (s ++ rest) = some (slots, rest) ∧
      slots.map Slot.field = fields ∧ slots.map Slot.raw = raws := by
  induction h with
  | nil => exact ⟨[], rfl, rfl, rfl⟩
  | @cons f fields raw s tail raws head _ ih =>
    obtain ⟨slots, hread, hfields, hraws⟩ := ih
    refine ⟨⟨f, raw, decodeValue f raw⟩ :: slots, ?_, by simp [hfields], by simp [hraws]⟩
    rw [List.append_assoc]
    simp [readSlots, readValue_carries head, hread]

theorem Carries.length_pos {f : TemplateField} {raw s : Bytes} (h : Carries f raw s)
    (hpos : 0 < f.fieldLength) : 0 < s.length := by
  cases h with
  | fixed _ hlength => omega
  | short => simp
  | long => simp

theorem IsRecord.length_pos {t : Template} (ht : t.Usable) {s : Bytes} (h : IsRecord t s) :
    0 < s.length := by
  obtain ⟨raws, hspells⟩ := h
  have hnonempty := ht.nonempty
  have hpositive := ht.positive
  generalize t.fields = fields at hspells hnonempty hpositive
  cases hspells with
  | nil => exact absurd rfl hnonempty
  | cons head _ =>
    have hhead := head.length_pos (hpositive _ List.mem_cons_self)
    rw [List.length_append]
    omega

/-- Without a variable field, every record has the length of the template. -/
theorem IsRecord.length_fixed {t : Template} {s : Bytes} (h : IsRecord t s) {n : Nat}
    (hfixed : t.fixedLength = some n) : s.length = n := by
  simp only [Template.fixedLength] at hfixed
  split at hfixed
  · cases hfixed
  · rename_i hnone
    rw [Option.some.injEq] at hfixed
    obtain ⟨raws, hspells⟩ := h
    simp only [List.any_eq_true, not_exists, not_and, Bool.not_eq_true] at hnone
    subst hfixed
    generalize t.fields = fields at hspells hnone
    induction hspells with
    | nil => rfl
    | cons head _ ih =>
      have htail := ih fun f hf => hnone f (List.mem_cons_of_mem _ hf)
      have hfixed := hnone _ List.mem_cons_self
      cases head with
      | fixed _ hlength => simp [htail, hlength]
      | short hvariable => rw [hfixed] at hvariable; cases hvariable
      | long hvariable => rw [hfixed] at hvariable; cases hvariable

namespace FlowSet

theorem nextRecord_consumes (t : Template) : Records.Consumes (nextRecord t) := by
  intro s r rest h
  simp only [nextRecord] at h
  split at h
  · cases h
  split at h
  · cases h
  · split at h
    · rename_i hless
      simp only [Option.some.injEq, Prod.mk.injEq] at h
      obtain ⟨-, rfl⟩ := h
      exact hless
    · cases h

/-- A record is taken off the front, unless it passes for padding. -/
theorem nextRecord_append {t : Template} (ht : t.Usable) {s rest : Bytes} (hs : IsRecord t s)
    (hnot : ¬(isPadding (s ++ rest) && t.fixedLength.all ((s ++ rest).length < ·))) :
    ∃ r, nextRecord t (s ++ rest) = some (r, rest) ∧ RecordDecodes t s r := by
  have hpos := hs.length_pos ht
  obtain ⟨raws, hspells⟩ := hs
  obtain ⟨slots, hread, hfields, hraws⟩ := readSlots_spells hspells rest
  have hless : rest.length < (s ++ rest).length := by
    rw [List.length_append]
    omega
  have hwire : (s ++ rest).take ((s ++ rest).length - rest.length) = s := by
    rw [List.length_append, Nat.add_sub_cancel, List.take_left]
  refine ⟨_, by simp only [nextRecord, hnot, decodeRecord, hread, hless]; rfl, ?_⟩
  exact ⟨rfl, hwire, hfields, by rw [hraws]; exact hspells⟩

end FlowSet

/-- What a data set has to meet: padding that is taken for padding, and with a variable
field no last record that is. -/
structure DataSupported (t : Template) (records : List Bytes) (padding : Bytes) : Prop where
  taken : isPadding padding = true
  shorter : ∀ n, t.fixedLength = some n → padding.length < n
  last : t.fixedLength = none → ∀ s ∈ records.getLast?, isPadding (s ++ padding) = false

theorem DataSupported.tail {t : Template} {s : Bytes} {records : List Bytes} {padding : Bytes}
    (h : DataSupported t (s :: records) padding) : DataSupported t records padding := by
  refine ⟨h.taken, h.shorter, fun hnone last hlast => h.last hnone last ?_⟩
  cases records with
  | nil => simp at hlast
  | cons => simpa using hlast

/-- What is left of a data set at the start of a record does not pass for padding. -/
theorem DataSupported.not_padding {t : Template} {s : Bytes} {records : List Bytes}
    {padding : Bytes} (h : DataSupported t (s :: records) padding) (hs : IsRecord t s) :
    ¬(isPadding (s ++ (records.flatten ++ padding)) &&
      t.fixedLength.all ((s ++ (records.flatten ++ padding)).length < ·)) := by
  cases hfixed : t.fixedLength with
  | some n =>
    have hlength := hs.length_fixed hfixed
    simp only [Option.all_some, List.length_append, Bool.and_eq_true, decide_eq_true_eq]
    omega
  | none =>
    have hlast : ∃ front last, last ∈ (s :: records).getLast? ∧
        s ++ (records.flatten ++ padding) = front ++ (last ++ padding) := by
      obtain ⟨front, last, heq⟩ := List.eq_nil_or_concat (s :: records) |>.resolve_left
        (List.cons_ne_nil s records)
      refine ⟨front.flatten, last, by simp [heq], ?_⟩
      have hflatten := congrArg List.flatten heq
      simp only [List.flatten_cons] at hflatten
      rw [← List.append_assoc, hflatten]
      simp
    obtain ⟨front, last, hmem, heq⟩ := hlast
    have hnot := h.last hfixed last hmem
    intro hboth
    simp only [Bool.and_eq_true] at hboth
    rw [heq] at hboth
    rw [isPadding_append_right hboth.1] at hnot
    cases hnot

/-- A data set is read as its records. -/
theorem readAll_nextRecord {t : Template} (ht : t.Usable) {records : List Bytes} {padding : Bytes}
    (hrecords : ∀ s ∈ records, IsRecord t s) (h : DataSupported t records padding) :
    ∃ decoded, Records.readAll (FlowSet.nextRecord t) (records.flatten ++ padding).length
        (records.flatten ++ padding) = (decoded, padding) ∧
      List.Forall₂ (RecordDecodes t) records decoded := by
  induction records with
  | nil =>
    have hall : t.fixedLength.all (padding.length < ·) = true := by
      cases hfixed : t.fixedLength with
      | none => rfl
      | some n => simpa using h.shorter n hfixed
    have hnone : FlowSet.nextRecord t padding = none := by simp [FlowSet.nextRecord, h.taken, hall]
    exact ⟨[], Records.readAll_none hnone _, .nil⟩
  | cons s records ih =>
    obtain ⟨decoded, hread, hdecoded⟩ :=
      ih (fun u hu => hrecords u (List.mem_cons_of_mem s hu)) h.tail
    have hs := hrecords s List.mem_cons_self
    obtain ⟨r, hnext, hr⟩ := FlowSet.nextRecord_append ht hs (h.not_padding hs)
    refine ⟨r :: decoded, ?_, .cons hr hdecoded⟩
    rw [List.flatten_cons, List.append_assoc,
      Records.readAll_cons (FlowSet.nextRecord_consumes t) hnext, hread]

section Learn

variable {E : Type} [DecidableEq E]

/-- The registry of a decoder holds the templates in force. -/
structure Refines (c : Context E) (registry : Registry E) : Prop where
  same : ∀ version exporter source id,
    c.templates.get? (version, exporter, source, id) = registry version exporter source id
  usable : ∀ version exporter source id t, registry version exporter source id = some t → t.Usable
  parsing : c.forceSimple = false

theorem TemplateRecord.Defines.usable {version id : Nat} {options : Bool}
    {scope fields : List FieldSpecifier} (h : Defines version options id scope fields) :
    (template version options (define id scope fields)).Usable := by
  have hfields : (template version options (define id scope fields)).fields =
      (scope ++ fields).map FieldSpecifier.toField := by
    simp [template, Template.fields]
  refine ⟨rfl, ?_, ?_⟩
  · rw [hfields]
    simpa using h.nonempty
  · rw [hfields]
    intro field hfield
    obtain ⟨f, hf, rfl⟩ := List.mem_map.mp hfield
    exact (h.specifiers f hf).pos

/-- A template in force was there before or is the one defined. -/
theorem apply_eq_some {registry : Registry E} {version : Nat} {exporter : E} {source : Nat}
    {options : Bool} {record : TemplateRecord} {v : Nat} {e : E} {s id : Nat} {t : Template}
    (h : registry.apply version exporter source options record v e s id = some t) :
    registry v e s id = some t ∨
      t = record.template version options ∧ ∃ id scope fields, record = .define id scope fields := by
  simp only [Registry.apply] at h
  split at h
  · cases record with
    | define defined scope fields =>
      simp only at h
      split at h
      · rename_i hid
        rw [Option.some.injEq] at h
        exact Or.inr ⟨by rw [← h, hid]; rfl, defined, scope, fields, rfl⟩
      · exact Or.inl h
    | withdraw withdrawn =>
      simp only at h
      split at h
      · cases h
      · exact Or.inl h
    | withdrawAll => exact Or.inl (Option.filter_eq_some_iff.mp h).1
  · exact Or.inl h

/-- Learning a record that was read is what the record asks for. -/
theorem Refines.learn {c : Context E} {registry : Registry E} (h : Refines c registry)
    {version : Nat} (hversion : version = 9 ∨ version = 10) (exporter : E) (source : Nat)
    {options : Bool} {record : TemplateRecord} (hwf : record.WellFormed version options) :
    Refines (c.learn exporter source (record.template version options))
      (registry.apply version exporter source options record) := by
  constructor
  · intro v e s id
    have hsame := h.same v e s id
    cases record with
    | define defined scope fields =>
      by_cases hscope : v = version ∧ e = exporter ∧ s = source
      · obtain ⟨rfl, rfl, rfl⟩ := hscope
        by_cases hid : id = defined
        · simp [Context.learn, TemplateRecord.template, Registry.apply, hid]
        · simp [Context.learn, TemplateRecord.template, Registry.apply, hid, hsame]
      · have hkey : ¬(v = version ∧ e = exporter ∧ s = source ∧ id = defined) :=
          fun heq => hscope ⟨heq.1, heq.2.1, heq.2.2.1⟩
        simp [Context.learn, TemplateRecord.template, Registry.apply, hscope, hkey, hsame]
    | withdraw withdrawn =>
      have hlow := hwf.1
      have hid : withdrawn ≠ 0 ∧ withdrawn ≠ 1 ∧ withdrawn ≠ 2 ∧ withdrawn ≠ 3 := by omega
      by_cases hscope : v = version ∧ e = exporter ∧ s = source
      · obtain ⟨rfl, rfl, rfl⟩ := hscope
        simp [Context.learn, TemplateRecord.template, Registry.apply, hid, hsame]
      · have hkey : ¬(v = version ∧ e = exporter ∧ s = source ∧ id = withdrawn) :=
          fun heq => hscope ⟨heq.1, heq.2.1, heq.2.2.1⟩
        simp [Context.learn, TemplateRecord.template, Registry.apply, hid, hscope, hkey, hsame]
    | withdrawAll =>
      have hall : c.learn exporter source (TemplateRecord.withdrawAll.template version options) =
          c.withdrawAll version exporter source options := by
        rcases hversion with rfl | rfl <;> cases options <;>
          simp [Context.learn, TemplateRecord.template, TemplateRecord.setId]
      rw [hall]
      simp only [Context.withdrawAll, Dict.get?_filter, hsame, Registry.apply]
      by_cases hscope : v = version ∧ e = exporter ∧ s = source
      · simp [hscope]
      · rw [if_neg hscope]
        cases registry v e s id with
        | none => rfl
        | some t =>
          apply Option.filter_eq_some_iff.mpr
          simp only [true_and, Bool.not_eq_true', Bool.and_eq_false_iff, decide_eq_false_iff_not]
          tauto
  · intro v e s id t ht
    rcases apply_eq_some ht with hold | ⟨rfl, defined, scope, fields, rfl⟩
    · exact h.usable v e s id t hold
    · exact TemplateRecord.Defines.usable hwf
  · have hforce := h.parsing
    simp only [Context.learn, Context.withdrawAll]
    split_ifs <;> exact hforce

/-- The templates a set is read as. -/
def MessageSet.learned (version : Nat) : MessageSet → List Template
  | templates options records _ => records.map (TemplateRecord.template version options)
  | data _ _ _ => []

theorem Refines.records {version : Nat} (hversion : version = 9 ∨ version = 10) (exporter : E)
    (source : Nat) {options : Bool} {records : List TemplateRecord}
    (hwf : ∀ record ∈ records, record.WellFormed version options) {c : Context E}
    {registry : Registry E} (h : Refines c registry) :
    Refines ((records.map (TemplateRecord.template version options)).foldl
        (Context.learn · exporter source) c)
      (records.foldl (fun registry => registry.apply version exporter source options)
        registry) := by
  induction records generalizing c registry with
  | nil => exact h
  | cons record records ih =>
    have hrecord := h.learn hversion exporter source (hwf record List.mem_cons_self)
    exact ih (fun r hr => hwf r (List.mem_cons_of_mem record hr)) hrecord

/-- Learning the templates of all sets gives the templates in force after them. -/
theorem Refines.sets {version : Nat} (hversion : version = 9 ∨ version = 10) (exporter : E)
    (source : Nat) {inForce : Nat → Option Template} {sets : List MessageSet}
    (hwf : ∀ set ∈ sets, set.WellFormed version inForce) {c : Context E}
    {registry : Registry E} (h : Refines c registry) :
    Refines ((sets.flatMap (MessageSet.learned version)).foldl (Context.learn · exporter source) c)
      (sets.foldl (fun registry => registry.applySet version exporter source) registry) := by
  induction sets generalizing c registry with
  | nil => exact h
  | cons set sets ih =>
    have hrest := fun s hs => hwf s (List.mem_cons_of_mem set hs)
    rw [List.flatMap_cons, List.foldl_append, List.foldl_cons]
    cases set with
    | templates options records padding =>
      have hset := hwf _ List.mem_cons_self
      exact ih hrest (h.records hversion exporter source hset.1)
    | data setId records padding => exact ih hrest h

end Learn

/-- What a set has to meet to be decoded.  No options template is withdrawn in IPFIX, and
what may be taken for padding is the padding. -/
def MessageSet.Supported (version : Nat) (inForce : Nat → Option Template) : MessageSet → Prop
  | templates options records padding =>
    (∀ record ∈ records, record.Supported version options) ∧ isPadding padding = true
  | data setId records padding => ∀ t, inForce setId = some t → DataSupported t records padding

def Message.Supported (inForce : Nat → Option Template) (m : Message) : Prop :=
  ∀ set ∈ m.sets, set.Supported m.version inForce

/-- Whether a set is a data set that has no template. -/
def MessageSet.Lacks (inForce : Nat → Option Template) : MessageSet → Prop
  | templates _ _ _ => False
  | data setId _ _ => inForce setId = none

/-- A set is not taken for malformed, and its records are decoded with the template in
force for it. -/
structure SetDecodes (inForce : Nat → Option Template) (set : MessageSet)
    (decoded : FlowSet) : Prop where
  accepted : decoded.malformed = false
  records : match set with
    | .templates _ _ _ => decoded.records = []
    | .data setId records _ =>
      match inForce setId with
      | none => decoded.records = []
      | some t => List.Forall₂ (RecordDecodes t) records decoded.records

/-- Every set is decoded, and the answer is the simple one only for want of a template. -/
structure Message.Decodes (inForce : Nat → Option Template) (m : Message) (d : Datagram)
    (answer : Option Datagram) : Prop where
  sets : List.Forall₂ (SetDecodes inForce) m.sets d.flowsets
  full : (∀ set ∈ m.sets, ¬set.Lacks inForce) → answer = some d
  simple : (∃ set ∈ m.sets, set.Lacks inForce) → answer = none

theorem MessageSet.setId_lt {version : Nat} {inForce : Nat → Option Template}
    {set : MessageSet} (h : set.WellFormed version inForce) : set.setId version < 65536 := by
  cases set with
  | templates options records padding =>
    simp only [MessageSet.setId, TemplateRecord.setId]
    split_ifs <;> omega
  | data setId records padding => exact h.2.1

/-- The sets of a message are framed as they were sent. -/
theorem frameSets_encode {version : Nat} {sets : List MessageSet}
    (h : ∀ set ∈ sets, set.setId version < 65536 ∧ 4 + (set.body version).length < 65536) :
    frameSets version (sets.flatMap (MessageSet.encode version)) =
      (sets.map (MessageSet.framed version), []) := by
  let entry (set : MessageSet) : Nat × Nat × Bytes :=
    (set.setId version, 4 + (set.body version).length, set.body version)
  have hcontent : sets.flatMap (MessageSet.encode version) =
      (sets.map entry).flatMap framedWire ++ [] := by
    rw [List.flatMap_map, List.append_nil]
    rfl
  have hback : ∀ e ∈ sets.map entry, ∀ rest, readSet (framedWire e ++ rest) = some (e, rest) := by
    intro e he rest
    obtain ⟨set, hset, rfl⟩ := List.mem_map.mp he
    exact readSet_append (h set hset).1 (h set hset).2 rfl rest
  have hend : readSet [] = none := rfl
  have hread := Records.readAll_flatMap readSet_consumes hback hend
  rw [← hcontent] at hread
  simp only [frameSets, hread]
  have hnone : readInt 2 [] = none := rfl
  simp only [hnone, List.map_map]
  rfl

theorem templateKind_data {set : FlowSet} (h : 256 ≤ set.setId) : set.templateKind = none := by
  simp only [FlowSet.templateKind]
  split_ifs <;> first | rfl | omega

theorem decodeTemplates_data {version setId : Nat} {records : List Bytes} {padding : Bytes}
    (hlow : 256 ≤ setId) :
    ((MessageSet.data setId records padding).framed version).decodeTemplates =
      (MessageSet.data setId records padding).framed version := by
  have hkind : ((MessageSet.data setId records padding).framed version).templateKind = none :=
    templateKind_data hlow
  simp only [FlowSet.decodeTemplates, hkind]

section Parse

variable {E : Type} [DecidableEq E] {c : Context E} {registry : Registry E}

/-- A data set is decoded with the template in force, or not at all. -/
theorem decodeSet_data (h : Refines c registry) (exporter : E) (source : Nat)
    {version setId : Nat} {records : List Bytes} {padding : Bytes}
    (hwf : (MessageSet.data setId records padding).WellFormed version
      (registry version exporter source))
    (hsupported : (MessageSet.data setId records padding).Supported version
      (registry version exporter source)) :
    SetDecodes (registry version exporter source) (.data setId records padding)
        (decodeSet c exporter source ((MessageSet.data setId records padding).framed version)) ∧
      (((MessageSet.data setId records padding).framed version).isData = true) ∧
      c.resolve exporter source ((MessageSet.data setId records padding).framed version) =
        registry version exporter source setId := by
  have hdata : ((MessageSet.data setId records padding).framed version).isData = true := by
    simp [FlowSet.isData, MessageSet.framed, MessageSet.setId, hwf.1]
  have hresolve : c.resolve exporter source
      ((MessageSet.data setId records padding).framed version) =
        registry version exporter source setId := by
    simp only [Context.resolve, MessageSet.framed, MessageSet.setId, h.same]
    cases hin : registry version exporter source setId with
    | none => rfl
    | some t =>
      have husable := h.usable version exporter source setId t hin
      exact Option.filter_eq_some_iff.mpr ⟨rfl, by simp [husable.defined]⟩
  refine ⟨?_, hdata, hresolve⟩
  simp only [decodeSet, hdata, ↓reduceIte, hresolve]
  cases hin : registry version exporter source setId with
  | none => exact ⟨rfl, by simp [hin, MessageSet.framed]⟩
  | some t =>
    have husable := h.usable version exporter source setId t hin
    obtain ⟨hrecords, -⟩ := hwf.2.2 t hin
    have hpadding := hsupported t hin
    obtain ⟨decoded, hread, hdecoded⟩ := readAll_nextRecord husable hrecords hpadding
    constructor
    · simp only [FlowSet.decodeData, MessageSet.framed, MessageSet.body, hread,
        hpadding.taken, Bool.not_true]
    · simp only [hin, FlowSet.decodeData, MessageSet.framed, MessageSet.body, hread]
      exact hdecoded

/-- What the first pass makes of a set, and the second. -/
theorem decodeSet_encode (h : Refines c registry) (exporter : E) (source : Nat)
    {version : Nat} (hversion : version = 9 ∨ version = 10) {set : MessageSet}
    (hwf : set.WellFormed version (registry version exporter source))
    (hsupported : set.Supported version (registry version exporter source))
    (hlength : (set.body version).length < 65536) :
    let decoded := (set.framed version).decodeTemplates
    SetDecodes (registry version exporter source) set (decodeSet c exporter source decoded) ∧
      ((decoded.isData && (c.resolve exporter source decoded).isNone) = true ↔
        set.Lacks (registry version exporter source)) := by
  dsimp only
  cases set with
  | templates options records padding =>
    have hdecoded := decodeTemplates_templates hversion hwf.1 hsupported.1 hsupported.2 hlength
    have hsmall : ¬256 ≤ TemplateRecord.setId version options := by
      simp only [TemplateRecord.setId]
      split_ifs <;> omega
    have hdata : ((MessageSet.templates options records padding).framed
        version).decodeTemplates.isData = false := by
      rw [hdecoded]
      simp [FlowSet.isData, MessageSet.framed, MessageSet.setId, hsmall]
    rw [decodeSet, if_neg (by simp [hdata]), hdata, hdecoded]
    exact ⟨⟨rfl, rfl⟩, by simp [MessageSet.Lacks]⟩
  | data setId records padding =>
    obtain ⟨hdecodes, hdata, hresolve⟩ := decodeSet_data h exporter source hwf hsupported
    rw [decodeTemplates_data hwf.1]
    refine ⟨hdecodes, ?_⟩
    simp [hdata, hresolve, MessageSet.Lacks]

theorem templates_decodeTemplates {version : Nat} (hversion : version = 9 ∨ version = 10)
    {inForce : Nat → Option Template} {set : MessageSet} (hwf : set.WellFormed version inForce)
    (hsupported : set.Supported version inForce) (hlength : (set.body version).length < 65536) :
    (set.framed version).decodeTemplates.templates = set.learned version := by
  cases set with
  | templates options records padding =>
    rw [decodeTemplates_templates hversion hwf.1 hsupported.1 hsupported.2 hlength]
    rfl
  | data setId records padding =>
    rw [decodeTemplates_data hwf.1]
    rfl

/-- The sets of a message, with the templates in force after it. -/
theorem parseFlowsets_encode (h : Refines c registry) (exporter : E) {m : Message}
    (hwf : m.WellFormed (registry.after exporter m m.version exporter m.source))
    (hsupported : m.Supported (registry.after exporter m m.version exporter m.source)) :
    let inForce := registry.after exporter m m.version exporter m.source
    let parsed := parseFlowsets c exporter m.version m.source m.content
    Refines parsed.2 (registry.after exporter m) ∧
      List.Forall₂ (SetDecodes inForce) m.sets parsed.1.1 ∧ parsed.1.2.1 = [] ∧
      (parsed.1.2.2 = true ↔ ∃ set ∈ m.sets, set.Lacks inForce) := by
  have hbounds : ∀ set ∈ m.sets,
      set.setId m.version < 65536 ∧ 4 + (set.body m.version).length < 65536 := fun set hset =>
    ⟨MessageSet.setId_lt (hwf.sets set hset).1, (hwf.sets set hset).2⟩
  have hbody : ∀ set ∈ m.sets, (set.body m.version).length < 65536 := fun set hset => by
    have hbound := (hbounds set hset).2
    omega
  have hrefines := h.sets hwf.version exporter m.source (fun set hset => (hwf.sets set hset).1)
  have hlearned : (m.sets.map fun set => (set.framed m.version).decodeTemplates).flatMap
      FlowSet.templates = m.sets.flatMap (MessageSet.learned m.version) := by
    rw [List.flatMap_map]
    exact List.flatMap_congr fun set hset =>
      templates_decodeTemplates hwf.version (hwf.sets set hset).1 (hsupported set hset)
        (hbody set hset)
  have hset : ∀ set ∈ m.sets, _ := fun set hset =>
    decodeSet_encode hrefines exporter m.source hwf.version (hwf.sets set hset).1
      (hsupported set hset) (hbody set hset)
  simp only [parseFlowsets, Message.content, frameSets_encode hbounds, List.map_map,
    Function.comp_def, hlearned]
  refine ⟨hrefines, ?_, trivial, ?_⟩
  · rw [List.forall₂_map_right_iff, List.forall₂_same]
    exact fun set hmem => (hset set hmem).1
  · have haccepted : (m.sets.map fun set => decodeSet
        ((m.sets.flatMap (MessageSet.learned m.version)).foldl
          (Context.learn · exporter m.source) c) exporter m.source
        (set.framed m.version).decodeTemplates).any FlowSet.malformed = false := by
      rw [List.any_eq_false]
      intro decoded hdecoded
      obtain ⟨set, hmem, rfl⟩ := List.mem_map.mp hdecoded
      simp [(hset set hmem).1.accepted]
    rw [haccepted, Bool.or_false, List.any_map, List.any_eq_true]
    constructor
    · rintro ⟨set, hmem, hmissing⟩
      exact ⟨set, hmem, (hset set hmem).2.mp hmissing⟩
    · rintro ⟨set, hmem, hlacks⟩
      exact ⟨set, hmem, (hset set hmem).2.mpr hlacks⟩

/-- The header of a message is read, and then its sets. -/
theorem parse_encode (c : Context E) (exporter : E) {m : Message}
    {inForce : Nat → Option Template} (hwf : m.WellFormed inForce) :
    ∃ header left, parse c exporter m.encode =
      (⟨m.version, some header, [], (parseFlowsets c exporter m.version m.source m.content).1.1,
        left, m.encode, (parseFlowsets c exporter m.version m.source m.content).1.2.2⟩,
        (parseFlowsets c exporter m.version m.source m.content).2) := by
  rcases hwf.version with hversion | hversion
  · have hread : ∃ header, readLayout V9_HEADER m.encode = some (header, m.content) ∧
        fixedValue header "source_id" = m.source := by
      simp only [Message.encode, hversion, ↓reduceIte, readLayout, V9_HEADER, Option.bind_eq_bind]
      rw [readInt_ofNat (by decide)]
      simp only [Option.bind_some]
      rw [readInt_ofNat hwf.count]
      simp only [Option.bind_some]
      rw [readInt_ofNat hwf.uptime]
      simp only [Option.bind_some]
      rw [readInt_ofNat hwf.seconds]
      simp only [Option.bind_some]
      rw [readInt_ofNat hwf.sequence]
      simp only [Option.bind_some]
      rw [readInt_ofNat hwf.source]
      exact ⟨_, rfl, rfl⟩
    obtain ⟨header, hheader, hsource⟩ := hread
    have hfront : ∃ rest, readInt 2 m.encode = some (9, rest) := by
      simp only [Message.encode, hversion, ↓reduceIte]
      exact ⟨_, readInt_ofNat (by decide) _⟩
    obtain ⟨rest, hfront⟩ := hfront
    refine ⟨header, (parseFlowsets c exporter m.version m.source m.content).1.2.1, ?_⟩
    simp [parse, hfront, hheader, hsource, hversion]
  · have hlength := hwf.length hversion
    have hread : ∃ header, readLayout IPFIX_HEADER m.encode = some (header, m.content) ∧
        fixedValue header "source_id" = m.source ∧
        fixedValue header "length" = 16 + m.content.length := by
      simp only [Message.encode, hversion, show ¬(10 : Nat) = 9 by decide, ↓reduceIte,
        readLayout, IPFIX_HEADER, Option.bind_eq_bind]
      rw [readInt_ofNat (by decide)]
      simp only [Option.bind_some]
      rw [readInt_ofNat hlength]
      simp only [Option.bind_some]
      rw [readInt_ofNat hwf.seconds]
      simp only [Option.bind_some]
      rw [readInt_ofNat hwf.sequence]
      simp only [Option.bind_some]
      rw [readInt_ofNat hwf.source]
      exact ⟨_, rfl, rfl, rfl⟩
    obtain ⟨header, hheader, hsource, htotal⟩ := hread
    have hfront : ∃ rest, readInt 2 m.encode = some (10, rest) := by
      simp only [Message.encode, hversion, show ¬(10 : Nat) = 9 by decide, ↓reduceIte]
      exact ⟨_, readInt_ofNat (by decide) _⟩
    obtain ⟨rest, hfront⟩ := hfront
    refine ⟨header, (parseFlowsets c exporter m.version m.source m.content).1.2.1 ++
      m.content.drop m.content.length, ?_⟩
    simp [parse, hfront, hheader, hsource, htotal, hversion]

/-- One message refines the templates in force and is decoded with them. -/
theorem Refines.message (h : Refines c registry) (exporter : E) {m : Message}
    (hwf : m.WellFormed (registry.after exporter m m.version exporter m.source))
    (hsupported : m.Supported (registry.after exporter m m.version exporter m.source)) :
    Refines (dispatch c exporter m.encode).2 (registry.after exporter m) ∧
      m.Decodes (registry.after exporter m m.version exporter m.source)
        (parse c exporter m.encode).1 (dispatch c exporter m.encode).1 := by
  obtain ⟨hrefines, hsets, -, hsimple⟩ := parseFlowsets_encode h exporter hwf hsupported
  obtain ⟨header, left, hparse⟩ := parse_encode c exporter hwf
  have hanswer : dispatch c exporter m.encode =
      (if (parse c exporter m.encode).1.requiresSimple then none
        else some (parse c exporter m.encode).1, (parse c exporter m.encode).2) := by
    simp [dispatch, h.parsing]
  rw [hanswer]
  simp only [hparse]
  refine ⟨hrefines, hsets, ?_, ?_⟩
  · intro hnone
    have hfalse : ¬(parseFlowsets c exporter m.version m.source m.content).1.2.2 = true := by
      rw [hsimple]
      rintro ⟨set, hmem, hlacks⟩
      exact hnone set hmem hlacks
    rw [if_neg hfalse]
  · intro hlacks
    rw [if_pos (hsimple.mpr hlacks)]

end Parse

section Runs

variable {E : Type} [DecidableEq E]

/-- A context that has learned nothing. -/
def Context.fresh : Context E := ⟨Dict.empty, false⟩

/-- No template in force. -/
def Registry.nothing : Registry E := fun _ _ _ _ => none

/-- The context after messages were decoded one after another. -/
def contextAfter (c : Context E) (messages : List (E × Message)) : Context E :=
  messages.foldl (fun c m => (dispatch c m.1 m.2.encode).2) c

theorem refines_fresh : Refines (Context.fresh : Context E) Registry.nothing :=
  ⟨fun _ _ _ _ => rfl, fun _ _ _ _ _ h => (nomatch h), rfl⟩

theorem along_append {condition : (Nat → Option Template) → Message → Prop}
    {registry : Registry E} {before after : List (E × Message)} :
    Along condition registry (before ++ after) ↔
      Along condition registry before ∧ Along condition (registry.afterAll before) after := by
  induction before generalizing registry with
  | nil => simp [Along, Registry.afterAll]
  | cons m before ih =>
    obtain ⟨exporter, m⟩ := m
    simp only [List.cons_append, Along, ih, and_assoc]
    rfl

theorem Refines.run {c : Context E} {registry : Registry E} (h : Refines c registry)
    {messages : List (E × Message)}
    (hwf : Along (fun inForce m => m.WellFormed inForce) registry messages)
    (hsupported : Along (fun inForce m => m.Supported inForce) registry messages) :
    Refines (contextAfter c messages) (registry.afterAll messages) := by
  induction messages generalizing c registry with
  | nil => exact h
  | cons m messages ih =>
    obtain ⟨exporter, m⟩ := m
    have hmessage := (h.message exporter hwf.1 hsupported.1).1
    exact ih hmessage hwf.2 hsupported.2

/-- **Every data set is decoded with its own template**: after any messages, a message is
decoded with the templates in force once its own template sets have been read. -/
theorem run_decodes (messages : List (E × Message)) (exporter : E) (m : Message)
    (hwf : Along (fun inForce m => m.WellFormed inForce) Registry.nothing
      (messages ++ [(exporter, m)]))
    (hsupported : Along (fun inForce m => m.Supported inForce) Registry.nothing
      (messages ++ [(exporter, m)])) :
    m.Decodes (Registry.nothing.afterAll (messages ++ [(exporter, m)]) m.version exporter m.source)
      (parse (contextAfter .fresh messages) exporter m.encode).1
      (dispatch (contextAfter .fresh messages) exporter m.encode).1 := by
  rw [along_append] at hwf hsupported
  have hrefines := refines_fresh.run hwf.1 hsupported.1
  have hdecodes := (hrefines.message exporter hwf.2.1 hsupported.2.1).2
  have hafter : Registry.nothing.afterAll (messages ++ [(exporter, m)]) =
      (Registry.nothing.afterAll messages).after exporter m := by
    simp [Registry.afterAll, List.foldl_append]
  rw [hafter]
  exact hdecodes

end Runs

/-- A v9 exporter defines template 256 as one address. -/
def addressTemplate : Message where
  version := 9
  count := 1
  uptime := 0
  seconds := 0
  sequence := 0
  source := 0
  sets := [.templates false [.define 256 [] [⟨8, 4, none⟩]] []]

/-- One record of it. -/
def addressRecord : Message where
  version := 9
  count := 1
  uptime := 0
  seconds := 0
  sequence := 1
  source := 0
  sets := [.data 256 [[10, 0, 0, 1]] []]

theorem addressTemplate_wellFormed {inForce : Nat → Option Template} :
    addressTemplate.WellFormed inForce ∧ addressTemplate.Supported inForce := by
  have hfield : (⟨8, 4, none⟩ : FieldSpecifier).WellFormed 9 :=
    ⟨by decide, by decide, by decide, by simp⟩
  have hdefines : TemplateRecord.Defines 9 false 256 [] [⟨8, 4, none⟩] :=
    ⟨by decide, by decide, fun _ => rfl, by simp, by simpa using hfield⟩
  refine ⟨⟨Or.inl rfl, by decide, by decide, by decide, by decide, by decide, ?_, ?_⟩, ?_⟩
  · intro set hset
    rw [List.mem_singleton.mp hset]
    refine ⟨⟨?_, Nat.zero_le 3⟩, by decide⟩
    intro record hrecord
    rw [List.mem_singleton.mp hrecord]
    exact hdefines
  · intro hversion
    cases hversion
  · intro set hset
    rw [List.mem_singleton.mp hset]
    refine ⟨?_, rfl⟩
    intro record _ hversion
    cases hversion

theorem addressRecord_wellFormed {inForce : Nat → Option Template}
    (h : inForce 256 = some ⟨9, 256, false, [], [.learned 8 4 none], false⟩) :
    addressRecord.WellFormed inForce ∧ addressRecord.Supported inForce := by
  have hrecord : IsRecord ⟨9, 256, false, [], [.learned 8 4 none], false⟩ [10, 0, 0, 1] :=
    ⟨[[10, 0, 0, 1]], .cons (s := [10, 0, 0, 1]) (.fixed rfl rfl) .nil⟩
  refine ⟨⟨Or.inl rfl, by decide, by decide, by decide, by decide, by decide, ?_, ?_⟩, ?_⟩
  · intro set hset
    rw [List.mem_singleton.mp hset]
    refine ⟨⟨by decide, by decide, ?_⟩, by decide⟩
    intro t ht
    rw [h, Option.some.injEq] at ht
    subst ht
    exact ⟨by simpa using hrecord, Nat.zero_le 3⟩
  · intro hversion
    cases hversion
  · intro set hset
    rw [List.mem_singleton.mp hset]
    intro t ht
    rw [h, Option.some.injEq] at ht
    subst ht
    refine ⟨rfl, ?_, ?_⟩
    · intro n hn
      obtain rfl : 4 = n := Option.some.inj hn
      decide
    · intro hnone
      cases hnone

/-- The record is decoded with the template of the exporter's earlier message. -/
theorem run_decodes_address :
    addressRecord.Decodes
      (Registry.nothing.afterAll ([((), addressTemplate)] ++ [((), addressRecord)]) 9 () 0)
      (parse (contextAfter .fresh [((), addressTemplate)]) () addressRecord.encode).1
      (dispatch (contextAfter .fresh [((), addressTemplate)]) () addressRecord.encode).1 :=
  run_decodes [((), addressTemplate)] () addressRecord
    ⟨addressTemplate_wellFormed.1, (addressRecord_wellFormed rfl).1, trivial⟩
    ⟨addressTemplate_wellFormed.2, (addressRecord_wellFormed rfl).2, trivial⟩

/-- An IPFIX exporter takes back an options template. -/
def optionsWithdrawal : Message where
  version := 10
  count := 0
  uptime := 0
  seconds := 0
  sequence := 0
  source := 0
  sets := [.templates true [.withdraw 256] []]

theorem optionsWithdrawal_wellFormed {inForce : Nat → Option Template} :
    optionsWithdrawal.WellFormed inForce := by
  refine ⟨Or.inr rfl, by decide, by decide, by decide, by decide, by decide, ?_, by decide⟩
  intro set hset
  rw [List.mem_singleton.mp hset]
  refine ⟨⟨?_, ?_⟩, by decide⟩
  · intro record hrecord
    rw [List.mem_singleton.mp hrecord]
    exact ⟨by decide, by decide⟩
  · refine ⟨by simp, ?_⟩
    rintro s ⟨record, -, rfl⟩
    have hlength := TemplateRecord.four_le_length_encode 10 true record
    simp only [optionsWithdrawal, List.length_nil]
    omega

/-- The withdrawal of an options template has four octets, and six are looked for. -/
theorem not_run_decodes :
    ¬∀ (messages : List (Unit × Message)) (exporter : Unit) (m : Message),
      Along (fun inForce m => m.WellFormed inForce) Registry.nothing (messages ++ [(exporter, m)]) →
      m.Decodes
        (Registry.nothing.afterAll (messages ++ [(exporter, m)]) m.version exporter m.source)
        (parse (contextAfter .fresh messages) exporter m.encode).1
        (dispatch (contextAfter .fresh messages) exporter m.encode).1 := by
  intro hall
  have hdecodes := hall [] () optionsWithdrawal ⟨optionsWithdrawal_wellFormed, trivial⟩
  have hmalformed : (parse (contextAfter .fresh []) () optionsWithdrawal.encode).1.flowsets.map
      FlowSet.malformed = [true] := by decide +kernel
  have hsets := hdecodes.sets
  generalize (parse (contextAfter .fresh []) () optionsWithdrawal.encode).1.flowsets = sets
    at hmalformed hsets
  cases hsets with
  | cons hset _ =>
    rw [List.map_cons, hset.accepted] at hmalformed
    cases hmalformed

end Packets.Netflow