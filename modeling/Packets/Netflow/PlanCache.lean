/-
The cache of codec plans, and decoding over a run (`_prepare_template` and what manages
`_TEMPLATE_ARTIFACT_CACHE` in `protos/netflow.pyx`).

A template is a value here.  The class made for its records is left out.
-/
import Packets.Lib.Memo
import Packets.Netflow.CompiledWalk

namespace Packets.Netflow

/-- `_template_signature` -/
structure Signature where
  version : Nat
  templateId : Nat
  options : Bool
  fields : List TemplateField
deriving DecidableEq

def Template.signature (t : Template) : Signature := ⟨t.version, t.templateId, t.options, t.fields⟩

abbrev ArtifactCache := Memo Signature CodecPlan

def ArtifactCache.build (s : Signature) : Option CodecPlan := CodecPlan.init s.fields

def TEMPLATE_ARTIFACT_CACHE_LIMIT : Nat := 512

/-- A template and its `codec_plan`. -/
structure Prepared where
  template : Template
  codecPlan : Option CodecPlan

/-- `_prepare_template`; `none` is an exception. -/
def prepareTemplate (cache : ArtifactCache) (t : Template) : Option (Prepared × ArtifactCache) :=
  if t.withdrawn then some (⟨t, none⟩, cache)
  else (cache.fetch ArtifactCache.build t.signature).map fun (plan, cache) =>
    (⟨t, some plan⟩, cache)

/-- The templates that were built, in that order, and the cache. -/
structure CodecState where
  cache : ArtifactCache
  templates : List Prepared

def CodecState.start : CodecState := ⟨Memo.empty TEMPLATE_ARTIFACT_CACHE_LIMIT, []⟩

inductive CodecOp where
  | define (t : Template)
  | register (index : Nat)
  | decode (index : Nat) (data : Bytes) (offset : Nat)
  | setLimit (limit : Int)
  | clear
  | evict
deriving DecidableEq

/-- Whether an operation is on the cache of plans alone. -/
def CodecOp.onCache : CodecOp → Bool
  | .define _ | .register _ | .decode _ _ _ => false
  | .setLimit _ | .clear | .evict => true

/-- What an operation tells about a template or a record. -/
inductive CodecAnswer where
  | raised
  | prepared
  | unknownTemplate
  | decoded (result : Option PlanRecord × Nat × Bool)

namespace CodecState

/-- Building a template, or preparing one again as its registration does. -/
def prepare (s : CodecState) (t : Template) (place : Prepared → List Prepared) :
    CodecState × Option CodecAnswer :=
  match prepareTemplate s.cache t with
  | none => (s, some .raised)
  | some (prepared, cache) => (⟨cache, place prepared⟩, some .prepared)

/-- One operation, and what it tells about a template or a record. -/
def step (s : CodecState) : CodecOp → CodecState × Option CodecAnswer
  | .define t => s.prepare t fun prepared => s.templates ++ [prepared]
  | .register index =>
    match s.templates[index]? with
    | none => (s, some .unknownTemplate)
    | some old => s.prepare old.template fun prepared => s.templates.set index prepared
  | .decode index data offset =>
    match s.templates[index]? with
    | some ⟨t, some plan⟩ => (s, some (.decoded (plan.decode data offset t)))
    | _ => (s, some .unknownTemplate)
  | .setLimit limit =>
    if limit < 1 then (s, none) else ({ s with cache := s.cache.setLimit limit.toNat }, none)
  | .clear => ({ s with cache := s.cache.clear }, none)
  | .evict => ({ s with cache := s.cache.evict }, none)

/-- The answers of a run. -/
def answers (s : CodecState) : List CodecOp → List CodecAnswer
  | [] => []
  | op :: ops => (s.step op).2.toList ++ (s.step op).1.answers ops

end CodecState

/-- Whatever either cache holds was built for its signature. -/
structure Alike (s s' : CodecState) : Prop where
  templates : s.templates = s'.templates
  sound : s.cache.Sound ArtifactCache.build
  sound' : s'.cache.Sound ArtifactCache.build

theorem alike_start : Alike .start .start := ⟨rfl, Memo.sound_empty _, Memo.sound_empty _⟩

/-- A template gets the plan of its fields, from the cache or not. -/
theorem prepareTemplate_spec {cache : ArtifactCache} (h : cache.Sound ArtifactCache.build)
    (t : Template) :
    match (if t.withdrawn then some none else (CodecPlan.init t.fields).map some) with
    | none => prepareTemplate cache t = none
    | some plan => ∃ cache', prepareTemplate cache t = some (⟨t, plan⟩, cache') ∧
        cache'.Sound ArtifactCache.build := by
  rw [prepareTemplate]
  by_cases hwithdrawn : t.withdrawn = true
  · rw [if_pos hwithdrawn, if_pos hwithdrawn]
    exact ⟨cache, rfl, h⟩
  · rw [if_neg hwithdrawn, if_neg hwithdrawn]
    have hfetch := h.fetch t.signature
    have hbuild : ArtifactCache.build t.signature = CodecPlan.init t.fields := rfl
    rw [hbuild] at hfetch
    cases hinit : CodecPlan.init t.fields with
    | none =>
      rw [hinit] at hfetch
      simp only [Option.map_none]
      rw [hfetch]
      rfl
    | some plan =>
      rw [hinit] at hfetch
      obtain ⟨cache', hcache', hsound⟩ := hfetch
      simp only [Option.map_some]
      rw [hcache']
      exact ⟨cache', rfl, hsound⟩

theorem Alike.prepare {s s' : CodecState} (h : Alike s s') (t : Template)
    (place : Prepared → List Prepared) :
    (s.prepare t place).2 = (s'.prepare t place).2 ∧
      Alike (s.prepare t place).1 (s'.prepare t place).1 := by
  have hs := prepareTemplate_spec h.sound t
  have hs' := prepareTemplate_spec h.sound' t
  unfold CodecState.prepare
  cases hplan : (if t.withdrawn then some none else (CodecPlan.init t.fields).map some) with
  | none =>
    rw [hplan] at hs hs'
    simp only at hs hs'
    rw [hs, hs']
    exact ⟨rfl, h⟩
  | some plan =>
    rw [hplan] at hs hs'
    obtain ⟨cache, hcache, hsound⟩ := hs
    obtain ⟨cache', hcache', hsound'⟩ := hs'
    rw [hcache, hcache']
    exact ⟨rfl, rfl, hsound, hsound'⟩

theorem Alike.step {s s' : CodecState} (h : Alike s s') {op : CodecOp} (hop : op.onCache = false) :
    (s.step op).2 = (s'.step op).2 ∧ Alike (s.step op).1 (s'.step op).1 := by
  cases op with
  | define t =>
    rw [CodecState.step, CodecState.step, h.templates]
    exact h.prepare t _
  | register index =>
    rw [CodecState.step, CodecState.step, h.templates]
    cases s'.templates[index]? with
    | none => exact ⟨rfl, h⟩
    | some old => exact h.prepare old.template _
  | decode index data offset =>
    rw [CodecState.step, CodecState.step, h.templates]
    rcases s'.templates[index]? with _ | ⟨t, _ | plan⟩ <;> exact ⟨rfl, h⟩
  | setLimit limit => cases hop
  | clear => cases hop
  | evict => cases hop

theorem Alike.stepOnCache {s s' : CodecState} (h : Alike s s') {op : CodecOp}
    (hop : op.onCache = true) : (s.step op).2 = none ∧ Alike (s.step op).1 s' := by
  cases op with
  | define t => cases hop
  | register index => cases hop
  | decode index data offset => cases hop
  | setLimit limit =>
    rw [CodecState.step]
    split
    · exact ⟨rfl, h⟩
    · exact ⟨rfl, h.templates, h.sound.setLimit _, h.sound'⟩
  | clear => exact ⟨rfl, h.templates, Memo.Sound.clear, h.sound'⟩
  | evict => exact ⟨rfl, h.templates, h.sound.evict, h.sound'⟩

theorem Alike.answers {s s' : CodecState} (h : Alike s s') (ops : List CodecOp) :
    s.answers ops = s'.answers (ops.filter fun op => !op.onCache) := by
  induction ops generalizing s s' with
  | nil => rfl
  | cons op ops ih =>
    cases hop : op.onCache with
    | true =>
      obtain ⟨hnone, hnext⟩ := h.stepOnCache hop
      rw [List.filter_cons_of_neg (by simp [hop]), CodecState.answers, hnone, ih hnext]
      rfl
    | false =>
      obtain ⟨hsame, hnext⟩ := h.step hop
      rw [List.filter_cons_of_pos (by simp [hop]), CodecState.answers, CodecState.answers,
        hsame, ih hnext]

/-- A plan decodes what a walk over the template decodes: validity, offset, the fields under
every key, the raw fields under every pair that is not crossed.  The cache of plans shows in no
run. -/
theorem plan_decodes_walk :
    (∀ (t : Template) (p : CodecPlan), CodecPlan.init t.fields = some p →
      ∀ (data : Bytes) (offset : Nat), ∃ walked, decodeInterpreted t data offset = some walked ∧
        SameResult t (p.decode data offset t) walked) ∧
    ∀ ops : List CodecOp, CodecState.start.answers ops =
      CodecState.start.answers (ops.filter fun op => !op.onCache) :=
  ⟨fun _ _ hinit => decode_sameResult hinit, alike_start.answers⟩

/-- A template of one byte count. -/
def octetsTemplate : Template := ⟨9, 256, false, [], [.learned 1 1 none], false⟩

def octetsPlan : CodecPlan := (CodecPlan.init octetsTemplate.fields).get rfl

theorem plan_decodes_walk_octets :
    (octetsPlan.decode [5] 0 octetsTemplate).2 = (1, true) ∧ ∃ walked,
      decodeInterpreted octetsTemplate [5] 0 = some walked ∧
      SameResult octetsTemplate (octetsPlan.decode [5] 0 octetsTemplate) walked :=
  ⟨rfl, plan_decodes_walk.1 octetsTemplate octetsPlan rfl [5] 0⟩

/-- The byte count twice: under its name, and as an element of enterprise 0. -/
def crossedTemplate : Template :=
  ⟨10, 256, false, [], [.learned 1 1 none, .learned 1 1 (some 0)], false⟩

/-- Only the walk files raw bytes under a name, and where one identity is two keys the
decoders do not file the same bytes under the pair. -/
theorem not_plan_decodes_walk :
    (¬ ∀ (t : Template) (p : CodecPlan), CodecPlan.init t.fields = some p →
      ∀ (data : Bytes) (offset next : Nat) (r : PlanRecord) (w : WalkedRecord),
        p.decode data offset t = (some r, next, true) →
        decodeInterpreted t data offset = some (some w, next, true) →
        ∀ name, r.rawFields.get? (.name name) = w.rawFields.get? (.name name)) ∧
    ¬ ∀ (t : Template) (p : CodecPlan), CodecPlan.init t.fields = some p →
      ∀ (data : Bytes) (offset next : Nat) (r : PlanRecord) (w : WalkedRecord),
        p.decode data offset t = (some r, next, true) →
        decodeInterpreted t data offset = some (some w, next, true) →
        ∀ enterprise element, r.rawFields.get? (.pair enterprise element) =
          w.rawFields.get? (.pair enterprise element) := by
  constructor
  · intro h
    have hname := h octetsTemplate octetsPlan rfl [5] 0 _ _ _ rfl rfl "octetDeltaCount"
    exact absurd hname (by decide)
  · intro h
    have hpair := h crossedTemplate ((CodecPlan.init crossedTemplate.fields).get rfl) rfl [5, 6] 0
      _ _ _ rfl rfl 0 1
    exact absurd hpair (by decide)

end Packets.Netflow
