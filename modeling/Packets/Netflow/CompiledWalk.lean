/-
A plan decodes what a walk over the template decodes (`NetflowCodecPlan.decode` and
`_decode_interpreted`).
-/
import Packets.Netflow.Compiled

namespace Packets.Netflow

open BigEndian (readInt takeBytes)

/-- The keys that stand for others. -/
def aliasesOf (fields : List TemplateField) : Dict FieldKey FieldKey :=
  assigned ((fields.filter fun f => f.identity ≠ f.key).map fun f => (f.identity, f.key))

theorem foldlM_addField {fields : List TemplateField} {p q : CodecPlan}
    (h : fields.foldlM CodecPlan.addField p = some q) :
    q.operations = p.operations ++ planned p.fixedLength fields ∧
      q.aliases = ((fields.filter fun f => f.identity ≠ f.key).map fun f =>
        (f.identity, f.key)).foldl (fun d e => d.set e.1 e.2) p.aliases ∧
      (q.fixedLength = none ↔ p.fixedLength = none ∨ ∃ f ∈ fields, f.variableLength = true) := by
  induction fields generalizing p with
  | nil =>
    cases h
    simp [planned]
  | cons f fields ih =>
    rw [List.foldlM_cons, CodecPlan.addField] at h
    split at h
    · cases h
    · obtain ⟨hoperations, haliases, hfixed⟩ := ih h
      refine ⟨?_, ?_, ?_⟩
      · rw [hoperations, planned, List.append_assoc]
        rfl
      · rw [haliases]
        by_cases hkey : f.identity ≠ f.key
        · rw [if_pos hkey, List.filter_cons_of_pos (by simpa using hkey)]
          rfl
        · rw [if_neg hkey, List.filter_cons_of_neg (by simpa using hkey)]
      · rw [hfixed]
        cases hvariable : f.variableLength <;> simp [hvariable]

theorem operations_init {fields : List TemplateField} {p : CodecPlan}
    (h : CodecPlan.init fields = some p) : p.operations = planned (some 0) fields :=
  (foldlM_addField h).1

theorem aliases_init {fields : List TemplateField} {p : CodecPlan}
    (h : CodecPlan.init fields = some p) : p.aliases = aliasesOf fields :=
  (foldlM_addField h).2.1

theorem hasVariable_init {fields : List TemplateField} {p : CodecPlan}
    (h : CodecPlan.init fields = some p) :
    p.hasVariable = true ↔ ∃ f ∈ fields, f.variableLength = true := by
  rw [CodecPlan.hasVariable, Option.isNone_iff_eq_none, (foldlM_addField h).2.2]
  simp [CodecPlan.empty]

/-- A mapping holds under a key what was assigned to it last. -/
theorem get?_assigned_map {α V : Type} (key : α → FieldKey) (value : α → V) (l : List α)
    (k : FieldKey) : (assigned (l.map fun a => (key a, value a))).get? k =
      (l.reverse.find? fun a => key a = k).map value := by
  induction l using List.reverseRecOn with
  | nil => rfl
  | append_singleton l a ih =>
    have hset : assigned ((l ++ [a]).map fun a => (key a, value a)) =
        (assigned (l.map fun a => (key a, value a))).set (key a) (value a) := by
      simp [assigned, List.foldl_append]
    rw [hset, Dict.get?_set, ih, List.reverse_append, List.reverse_singleton,
      List.singleton_append, List.find?_cons]
    by_cases hkey : key a = k
    · simp [hkey]
    · simp [hkey, Ne.symm hkey]

/-- The key a lookup ends at. -/
def standsFor (fields : List TemplateField) (k : FieldKey) : FieldKey :=
  ((aliasesOf fields).get? k).getD k

theorem get?_aliasesOf_append (fields : List TemplateField) (f : TemplateField) (k : FieldKey) :
    (aliasesOf (fields ++ [f])).get? k =
      if f.identity = k ∧ f.identity ≠ f.key then some f.key else (aliasesOf fields).get? k := by
  by_cases hkey : f.identity = f.key
  · rw [if_neg (by simp [hkey]), aliasesOf, List.filter_append,
      List.filter_cons_of_neg (by simpa using hkey), List.filter_nil, List.append_nil]
    rfl
  · have hset : aliasesOf (fields ++ [f]) = (aliasesOf fields).set f.identity f.key := by
      rw [aliasesOf, List.filter_append, List.filter_cons_of_pos (by simpa using hkey)]
      simp [assigned, aliasesOf, List.foldl_append]
    rw [hset, Dict.get?_set]
    by_cases hk : f.identity = k
    · simp [hk, hk ▸ hkey]
    · simp [hk, Ne.symm hk]

theorem get?_aliasesOf_pair {fields : List TemplateField} {k k' : FieldKey}
    (h : (aliasesOf fields).get? k = some k') :
    (∃ enterprise element, k = .pair enterprise element) ∧ ∃ f ∈ fields, f.key = k' := by
  rw [aliasesOf, get?_assigned_map, Option.map_eq_some_iff] at h
  obtain ⟨f, hfind, rfl⟩ := h
  have hmem := List.mem_filter.mp (List.mem_reverse.mp (List.mem_of_find?_eq_some hfind))
  have hidentity : f.identity = k := by simpa using List.find?_some hfind
  exact ⟨⟨_, _, hidentity.symm⟩, f, hmem.1, rfl⟩

/-- A field that is filed under something else than its pair is filed under no pair. -/
theorem standsFor_key {f : TemplateField} (h : f.identity ≠ f.key) (fields : List TemplateField) :
    standsFor fields f.key = f.key := by
  rw [standsFor]
  cases hget : (aliasesOf fields).get? f.key with
  | none => rfl
  | some k' =>
    obtain ⟨⟨enterprise, element, hpair⟩, -⟩ := get?_aliasesOf_pair hget
    exfalso
    unfold TemplateField.key at hpair h
    unfold TemplateField.identity at h
    cases henterprise : f.enterpriseNumber with
    | some e => simp [henterprise] at h
    | none => cases hname : f.name <;> simp [henterprise, hname] at hpair

theorem standsFor_append (fields : List TemplateField) (f : TemplateField) (k : FieldKey) :
    standsFor (fields ++ [f]) k =
      if k = f.identity then standsFor fields f.key else standsFor fields k := by
  by_cases hk : k = f.identity
  · subst hk
    by_cases hkey : f.identity = f.key
    · rw [if_pos rfl, standsFor, get?_aliasesOf_append, if_neg (by simp [hkey]), standsFor, hkey]
    · rw [if_pos rfl, standsFor_key hkey, standsFor, get?_aliasesOf_append, if_pos ⟨rfl, hkey⟩]
      rfl
  · rw [if_neg hk, standsFor, get?_aliasesOf_append, if_neg (by simp [Ne.symm hk]), standsFor]

theorem standsFor_mem {fields : List TemplateField} {k : FieldKey} (h : ∃ f ∈ fields, f.key = k)
    (prior : List TemplateField) (hprior : ∀ f ∈ prior, f ∈ fields) :
    ∃ f ∈ fields, f.key = standsFor prior k := by
  rw [standsFor]
  cases hget : (aliasesOf prior).get? k with
  | none => exact h
  | some k' =>
    obtain ⟨-, f, hf, hkey⟩ := get?_aliasesOf_pair hget
    exact ⟨f, hprior f hf, hkey⟩

/-- A record whose mappings hold every field under its key. -/
def WalkedRecord.Filed (r : WalkedRecord) (fields : List TemplateField) : Prop :=
  ∀ f ∈ fields, (∃ value, r.fields.get? f.key = some value) ∧
    ∃ raw, r.rawFields.get? f.key = some raw

/-- Behind the loop of `_decode_interpreted` a key holds what the key it stands for held. -/
theorem foldlM_aliasField {r : WalkedRecord} {fields : List TemplateField}
    (hfiled : r.Filed fields) (prior : List TemplateField) (hprior : ∀ f ∈ prior, f ∈ fields) :
    ∃ r', prior.foldlM aliasField r = some r' ∧
      (∀ k, r'.fields.get? k = r.fields.get? (standsFor prior k)) ∧
      (∀ k, r'.rawFields.get? k = r.rawFields.get? (standsFor prior k)) := by
  induction prior using List.reverseRecOn with
  | nil => exact ⟨r, rfl, fun k => rfl, fun k => rfl⟩
  | append_singleton prior f ih =>
    obtain ⟨r₁, hr₁, hfields, hraws⟩ := ih fun g hg => hprior g (List.mem_append_left _ hg)
    have hf : f ∈ fields := hprior f (by simp)
    obtain ⟨g, hg, hgkey⟩ := standsFor_mem ⟨f, hf, rfl⟩ prior fun g hg =>
      hprior g (List.mem_append_left _ hg)
    obtain ⟨⟨value, hvalue⟩, raw, hraw⟩ := hfiled g hg
    rw [hgkey] at hvalue hraw
    have hvalue₁ : r₁.fields.get? f.key = some value := by rw [hfields, hvalue]
    have hraw₁ : r₁.rawFields.get? f.key = some raw := by rw [hraws, hraw]
    refine ⟨{ r₁ with
      fields := r₁.fields.set f.identity value
      originalFields := r₁.originalFields.set f.identity value
      rawFields := r₁.rawFields.set f.identity raw }, ?_, ?_, ?_⟩
    · rw [List.foldlM_append, hr₁]
      simp [aliasField, hvalue₁, hraw₁]
    · intro k
      rw [Dict.get?_set, standsFor_append]
      by_cases hk : k = f.identity
      · rw [if_pos hk, if_pos hk, hvalue]
      · rw [if_neg hk, if_neg hk, hfields]
    · intro k
      rw [Dict.get?_set, standsFor_append]
      by_cases hk : k = f.identity
      · rw [if_pos hk, if_pos hk, hraw]
      · rw [if_neg hk, if_neg hk, hraws]

theorem start_le_cuts {data : Bytes} {fields : List TemplateField} {offset finish : Nat}
    {cs : List Cut} (h : cuts data fields offset = some (cs, finish)) :
    ∀ c ∈ cs, offset ≤ c.start := by
  induction fields generalizing offset cs with
  | nil =>
    cases h
    intro c hc
    cases hc
  | cons f fields ih =>
    obtain ⟨start, length, rest, hplace, hrest, rfl⟩ := cuts_cons h
    have hstart := (place_within hplace).1
    intro c hc
    rcases List.mem_cons.mp hc with rfl | hc
    · exact hstart
    · have hc' := ih hrest c hc
      omega

theorem map_identity_planned (fixed : Option Nat) (fields : List TemplateField) :
    (planned fixed fields).map Operation.identity = fields.map TemplateField.identity := by
  induction fields generalizing fixed with
  | nil => rfl
  | cons f fields ih =>
    rw [planned, List.map_cons, ih]
    rfl

/-- The fixed offsets of a plan without a field that varies are where the fields lie. -/
theorem map_planned_fixed {data : Bytes} {fields : List TemplateField} {start before finish : Nat}
    {cs : List Cut} (hfixed : ∀ f ∈ fields, f.variableLength = false)
    (h : cuts data fields (start + before) = some (cs, finish)) :
    ((planned (some before) fields).map fun op =>
        (op.identity, slice data (start + op.fixedOffset.getD 0) op.field.fieldLength)) =
      cs.map fun c => (c.field.identity, c.raw data) := by
  induction fields generalizing before cs with
  | nil =>
    cases h
    rfl
  | cons f fields ih =>
    obtain ⟨valueStart, length, rest, hplace, hrest, rfl⟩ := cuts_cons h
    have hf := hfixed f List.mem_cons_self
    obtain ⟨rfl, rfl⟩ := place_of_fixed hf hplace
    rw [Nat.add_assoc] at hrest
    rw [planned, hf, if_neg Bool.false_ne_true, Option.map_some, List.map_cons, List.map_cons,
      ih (fun g hg => hfixed g (List.mem_cons_of_mem _ hg)) hrest]
    rfl

/-- The ranges a plan takes down are where the fields lie. -/
theorem map_planned_ranges {data : Bytes} {fields : List TemplateField} {start finish : Nat}
    {cs : List Cut} (fixed : Option Nat) (h : cuts data fields start = some (cs, finish)) :
    ((planned fixed fields).zipIdx.map fun (op, index) =>
        let range := (cs.map fun c => (c.start - start, c.length)).getD index (0, 0)
        (op.identity, slice data (start + range.1) range.2)) =
      cs.map fun c => (c.field.identity, c.raw data) := by
  have hidentity : (planned fixed fields).map Operation.identity =
      cs.map fun c => c.field.identity := by
    rw [map_identity_planned, ← map_field_cuts h, List.map_map]
    rfl
  apply List.ext_getElem?
  intro i
  have hi := congrArg (fun l => l[i]?) hidentity
  simp only [List.getElem?_map] at hi
  rw [List.getElem?_map, List.getElem?_map, List.getElem?_zipIdx]
  cases hc : cs[i]? with
  | none =>
    rw [hc, Option.map_none, Option.map_eq_none_iff] at hi
    rw [hi]
    rfl
  | some c =>
    rw [hc, Option.map_some, Option.map_eq_some_iff] at hi
    obtain ⟨op, hop, hidentity⟩ := hi
    have hstart := start_le_cuts h c (List.mem_of_getElem? hc)
    have hsum : start + (c.start - start) = c.start := by omega
    simp [hop, hidentity, hc, hsum, List.getD_eq_getElem?_getD, Cut.raw]

/-- What a plan makes of the fields it finds. -/
theorem decodeRecord_init {t : Template} {p : CodecPlan} (hinit : CodecPlan.init t.fields = some p)
    (data : Bytes) (start : Nat) :
    match cuts data t.fields start with
    | none => p.decodeRecord data start t = none
    | some (cs, finish) => ∃ r, p.decodeRecord data start t = some (r, finish) ∧
        r.fields = ⟨assigned (cs.map fun c => (c.field.key, c.value data)), aliasesOf t.fields⟩ ∧
        r.rawFields = assigned (cs.map fun c => (c.field.identity, c.raw data)) := by
  have hfold := foldlM_decodeOperation data start (some 0) t.fields ⟨start, Dict.empty, [], []⟩
  rw [← operations_init hinit] at hfold
  cases hcuts : cuts data t.fields start with
  | none =>
    simp only
    rw [CodecPlan.decodeRecord, hfold, hcuts]
    rfl
  | some place =>
    obtain ⟨cs, finish⟩ := place
    simp only
    rw [CodecPlan.decodeRecord, hfold, hcuts]
    refine ⟨_, rfl, ?_, ?_⟩
    · rw [aliases_init hinit]
      rfl
    · simp only [PlanRecord.rawFields, operations_init hinit, List.nil_append]
      by_cases hvariable : p.hasVariable = true
      · rw [← map_planned_ranges (some 0) hcuts]
        simp only [hvariable, if_true, PlanRecord.rawRange, assigned, List.foldl_map]
      · have hfixed : ∀ f ∈ t.fields, f.variableLength = false := by
          intro f hf
          cases hf' : f.variableLength with
          | false => rfl
          | true => exact absurd ((hasVariable_init hinit).mpr ⟨f, hf, hf'⟩) hvariable
        have hindex : ((planned (some 0) t.fields).zipIdx.map fun e =>
            (e.1.identity, slice data (start + e.1.fixedOffset.getD 0) e.1.field.fieldLength)) =
            cs.map fun c => (c.field.identity, c.raw data) := by
          have hcuts' : cuts data t.fields (start + 0) = some (cs, finish) := hcuts
          rw [← map_planned_fixed hfixed hcuts']
          calc _ = ((planned (some 0) t.fields).zipIdx.map Prod.fst).map fun op =>
                (op.identity, slice data (start + op.fixedOffset.getD 0) op.field.fieldLength) := by
                  rw [List.map_map]
                  rfl
            _ = _ := by rw [List.zipIdx_map_fst]
        rw [← hindex]
        simp only [hvariable, Bool.false_eq_true, if_false, PlanRecord.rawRange, assigned,
          List.foldl_map]

/-- What a walk over the template makes of the fields it finds. -/
theorem decodeInterpreted_eq (t : Template) (data : Bytes) (offset : Nat) :
    match cuts data t.fields offset with
    | none => decodeInterpreted t data offset = some (none, offset, false)
    | some (cs, finish) => ∃ w, decodeInterpreted t data offset = some (some w, finish, true) ∧
        (∀ k, w.fields.get? k =
          (assigned (cs.map fun c => (c.field.key, c.value data))).get? (standsFor t.fields k)) ∧
        (∀ k, w.rawFields.get? k =
          (assigned (cs.map fun c => (c.field.key, c.raw data))).get? (standsFor t.fields k)) := by
  have hfold := foldlM_parseField data t.fields ⟨offset, Dict.empty, Dict.empty⟩
  cases hcuts : cuts data t.fields offset with
  | none =>
    simp only
    rw [decodeInterpreted, parseDataRecord, hfold, hcuts]
    rfl
  | some place =>
    obtain ⟨cs, finish⟩ := place
    simp only
    rw [decodeInterpreted, parseDataRecord, hfold, hcuts]
    simp only [Option.map_some]
    have hassigned : ∀ {V : Type} (value : Cut → V), ∀ f ∈ t.fields, ∃ v,
        (assigned (cs.map fun c => (c.field.key, value c))).get? f.key = some v := by
      intro V value f hf
      rw [← map_field_cuts hcuts] at hf
      obtain ⟨c, hc, rfl⟩ := List.mem_map.mp hf
      obtain ⟨v, hget, -⟩ := get?_assigned
        ⟨value c, List.mem_map_of_mem (f := fun c => (c.field.key, value c)) hc⟩
      exact ⟨v, hget⟩
    let values := assigned (cs.map fun c => (c.field.key, c.value data))
    have hfiled : WalkedRecord.Filed
        { templateId := t.templateId
          fields := values
          rawFields := assigned (cs.map fun c => (c.field.key, c.raw data))
          originalFields := values
          rawData := slice data offset (finish - offset)
          template := t } t.fields :=
      fun f hf => ⟨hassigned (Cut.value data) f hf, hassigned (Cut.raw data) f hf⟩
    obtain ⟨w, hw, hfields, hraws⟩ := foldlM_aliasField hfiled t.fields fun f hf => hf
    refine ⟨w, ?_, hfields, hraws⟩
    exact congrArg (Option.map fun record => (some record, finish, true)) hw

/-- The last field with an identity is the last that is filed under the key it stands for. -/
def Uncrossed (fields : List TemplateField) (k : FieldKey) : Prop :=
  fields.reverse.find? (fun f => f.identity = k) =
    fields.reverse.find? fun f => f.key = standsFor fields k

instance (fields : List TemplateField) (k : FieldKey) : Decidable (Uncrossed fields k) :=
  inferInstanceAs (Decidable (_ = _))

theorem find?_of_map {α β : Type} {g : α → β} {p q : β → Bool} {l : List α}
    (h : (l.map g).find? p = (l.map g).find? q) :
    l.find? (fun a => p (g a)) = l.find? fun a => q (g a) := by
  induction l with
  | nil => rfl
  | cons a l ih =>
    rw [List.map_cons, List.find?_cons, List.find?_cons] at h
    rw [List.find?_cons, List.find?_cons]
    cases hp : p (g a) with
    | true =>
      rw [hp] at h
      cases hq : q (g a) with
      | true => rfl
      | false =>
        rw [hq] at h
        exact absurd (List.find?_some h.symm) (by simp [hq])
    | false =>
      rw [hp] at h
      cases hq : q (g a) with
      | true =>
        rw [hq] at h
        exact absurd (List.find?_some h) (by simp [hp])
      | false =>
        rw [hq] at h
        exact ih h

theorem find?_cuts_of_uncrossed {data : Bytes} {fields : List TemplateField} {offset finish : Nat}
    {cs : List Cut} {k : FieldKey} (hcuts : cuts data fields offset = some (cs, finish))
    (h : Uncrossed fields k) : cs.reverse.find? (fun c => c.field.identity = k) =
      cs.reverse.find? fun c => c.field.key = standsFor fields k := by
  rw [Uncrossed] at h
  apply find?_of_map (g := Cut.field) (p := fun f => f.identity = k)
    (q := fun f => f.key = standsFor fields k)
  rw [List.map_reverse, map_field_cuts hcuts]
  exact h

/-- The records of both decoders, under the keys of their mappings. -/
structure SameFields (fields : List TemplateField) (r : PlanRecord) (w : WalkedRecord) :
    Prop where
  values : ∀ k, r.fields.get? k = w.fields.get? k
  raws : ∀ k, Uncrossed fields k → r.rawFields.get? k = w.rawFields.get? k
  names : ∀ name, r.rawFields.get? (.name name) = none

/-- The results of both decoders. -/
def SameResult (t : Template) (compiled : Option PlanRecord × Nat × Bool)
    (walked : Option WalkedRecord × Nat × Bool) : Prop :=
  compiled.2 = walked.2 ∧
    match compiled.1, walked.1 with
    | none, none => compiled.2.2 = false
    | some r, some w => compiled.2.2 = true ∧ SameFields t.fields r w
    | _, _ => False

theorem decode_sameResult {t : Template} {p : CodecPlan} (hinit : CodecPlan.init t.fields = some p)
    (data : Bytes) (offset : Nat) : ∃ walked, decodeInterpreted t data offset = some walked ∧
      SameResult t (p.decode data offset t) walked := by
  have hcompiled := decodeRecord_init hinit data offset
  have hwalked := decodeInterpreted_eq t data offset
  cases hcuts : cuts data t.fields offset with
  | none =>
    rw [hcuts] at hcompiled hwalked
    refine ⟨_, hwalked, ?_⟩
    rw [CodecPlan.decode, hcompiled]
    exact ⟨rfl, rfl⟩
  | some place =>
    obtain ⟨cs, finish⟩ := place
    rw [hcuts] at hcompiled hwalked
    obtain ⟨r, hr, hfields, hraws⟩ := hcompiled
    obtain ⟨w, hw, hfields', hraws'⟩ := hwalked
    refine ⟨_, hw, ?_⟩
    rw [CodecPlan.decode, hr]
    refine ⟨rfl, rfl, ?_, ?_, ?_⟩
    · intro k
      rw [hfields, hfields']
      rfl
    · intro k hk
      rw [hraws, hraws', get?_assigned_map, get?_assigned_map, find?_cuts_of_uncrossed hcuts hk]
    · intro name
      rw [hraws, get?_assigned_map]
      have hnone : cs.reverse.find? (fun c => c.field.identity = .name name) = none := by
        rw [List.find?_eq_none]
        intro c hc
        simp [TemplateField.identity]
      rw [hnone]
      rfl

end Packets.Netflow
