/-
Which policy judges a request: what re-reading the configuration leaves in place when
requests, commits and rewrites interleave.
-/
import Packets.Api.TokenAuth

namespace Packets.TokenAuth

namespace Context

variable (s : Context)

/-- The revision of the document that a policy was made from. -/
def revisionOf (p : Nat) : Nat := (s.policies[p]?.map Policy.revision).getD 0

/-- Whether a policy asks for a token. -/
def enabled (p : Nat) : Bool := (s.policies[p]?.bind Policy.token).isSome

end Context

/-- A thread of `refresh` that has recorded a signature and has yet to set its token. -/
def Refresh.recorded : Refresh → Option Nat
  | .reading _ signature | .comparing _ signature _ | .assigning _ signature _ => some signature
  | _ => none

/-- The order of steps in which nothing goes wrong: a revision is recorded with the policy of
that document or a later one in place, no policy without a token under a document that asks for
one; and a token is set with the signature of its own version of the file recorded. -/
def Careful (s : Context) : Event → Prop
  | .step i =>
    match (s.requests[i]?).map Request.pc with
    | some (.recording revision) => revision ≤ s.revisionOf s.auth
    | some (.built _ p _) => s.enabled p ∨ s.sec.configures = false
    | some (.refreshing p (.saw _ signature)) =>
      (s.policies[p]?.bind Policy.signature) = some signature →
        ∀ r ∈ s.requests, ∀ refresh, r.pc = .refreshing p refresh →
          refresh.recorded ≠ some signature
    | some (.refreshing p (.assigning _ signature _)) =>
      (s.policies[p]?.bind Policy.signature) = some signature
    | _ => True
  | _ => True

/-- Policies keep the document and the file they are of, and lose no token. -/
structure Grows (s s' : Context) : Prop where
  revision : s.revision ≤ s'.revision
  policies : ∀ {p : Nat} {policy : Policy}, s.policies[p]? = some policy →
    ∃ policy', s'.policies[p]? = some policy' ∧ policy'.revision = policy.revision ∧
      policy'.tokenFile = policy.tokenFile ∧ (policy.token.isSome → policy'.token.isSome)

theorem Grows.refl (s : Context) : Grows s s :=
  ⟨Nat.le_refl _, fun {_ policy} h => ⟨policy, h, rfl, rfl, id⟩⟩

theorem Grows.lt {s s' : Context} (h : Grows s s') {p : Nat} (hp : p < s.policies.length) :
    p < s'.policies.length := by
  obtain ⟨policy', hpolicy', -⟩ := h.policies (List.getElem?_eq_getElem hp)
  exact (List.getElem?_eq_some_iff.mp hpolicy').1

theorem Grows.revisionOf {s s' : Context} (h : Grows s s') {p : Nat}
    (hp : p < s.policies.length) : s'.revisionOf p = s.revisionOf p := by
  obtain ⟨policy', hpolicy', hrevision, -⟩ := h.policies (List.getElem?_eq_getElem hp)
  rw [Context.revisionOf, Context.revisionOf, hpolicy', List.getElem?_eq_getElem hp]
  exact hrevision

theorem Grows.enabled {s s' : Context} (h : Grows s s') {p : Nat}
    (hp : s.enabled p = true) : s'.enabled p = true := by
  rw [Context.enabled] at hp ⊢
  cases hpolicy : s.policies[p]? with
  | none => simp [hpolicy] at hp
  | some policy =>
    obtain ⟨policy', hpolicy', -, -, htoken⟩ := h.policies hpolicy
    rw [hpolicy] at hp
    rw [hpolicy']
    exact htoken hp

theorem Refresh.step_keeps (s : Context) (policy : Policy) (r : Refresh) :
    (r.step s policy).1.revision = policy.revision ∧
      (r.step s policy).1.tokenFile = policy.tokenFile ∧
      (policy.token.isSome → (r.step s policy).1.token.isSome) := by
  cases r <;> simp only [Refresh.step] <;> (try split) <;> simp

theorem Pc.step_grows {s s' : Context} {pc pc' : Pc} (h : pc.step s = some (s', pc')) :
    Grows s s' := by
  cases pc with
  | entered | compared | same | rereading | leaving => cases h; exact .refl s
  | answered => cases h
  | refreshing p r =>
    obtain ⟨policy, hpolicy, h⟩ := Option.map_eq_some_iff.mp h
    cases h
    obtain ⟨hp, -⟩ := List.getElem?_eq_some_iff.mp hpolicy
    refine ⟨Nat.le_refl _, fun {q old} hq => ?_⟩
    by_cases hpq : p = q
    · cases hpq
      cases hpolicy.symm.trans hq
      exact ⟨_, List.getElem?_set_self hp, Refresh.step_keeps s policy r⟩
    · exact ⟨old, by rw [List.getElem?_set_ne hpq, hq], rfl, rfl, id⟩
  | statting | reading =>
    simp only [Pc.step] at h
    split at h <;> cases h <;> exact .refl s
  | building revision document sec signature token =>
    cases h
    refine ⟨Nat.le_refl _, fun {p policy} hp => ⟨policy, ?_, rfl, rfl, id⟩⟩
    obtain ⟨hlt, -⟩ := List.getElem?_eq_some_iff.mp hp
    rw [List.getElem?_append_left hlt, hp]
  | built | stored | recording =>
    cases h
    exact ⟨Nat.le_refl _, fun {_ policy} hp => ⟨policy, hp, rfl, rfl, id⟩⟩

theorem Context.step_grows {s s' : Context} {e : Event} (h : s.step e = some s') : Grows s s' := by
  cases e with
  | begin | rewrite | remove | tick =>
    cases h
    exact ⟨Nat.le_refl _, fun {_ policy} hp => ⟨policy, hp, rfl, rfl, id⟩⟩
  | commit sec =>
    cases h
    exact ⟨Nat.le_succ _, fun {_ policy} hp => ⟨policy, hp, rfl, rfl, id⟩⟩
  | refuse i =>
    obtain ⟨r, -, h⟩ := Option.bind_eq_some_iff.mp h
    split at h
    · cases h
      exact ⟨Nat.le_refl _, fun {_ policy} hp => ⟨policy, hp, rfl, rfl, id⟩⟩
    · cases h
  | step i =>
    obtain ⟨r, -, h⟩ := Option.bind_eq_some_iff.mp h
    obtain ⟨⟨s₁, pc⟩, hpc, h⟩ := Option.bind_eq_some_iff.mp h
    cases h
    obtain ⟨hrevision, hpolicies⟩ := Pc.step_grows hpc
    exact ⟨hrevision, hpolicies⟩

/-- What a request has in hand: revisions it read after it began, and policies there are. -/
def Fits (s : Context) (r : Request) : Prop :=
  match r.pc with
  | .compared revision | .rereading revision => r.born ≤ revision ∧ revision ≤ s.revision
  | .statting revision document _ | .reading revision document _ _ _
  | .building revision document _ _ _ => r.born ≤ revision ∧ revision ≤ document
  | .built revision p _ => r.born ≤ revision ∧ p < s.policies.length ∧ revision ≤ s.revisionOf p
  | .stored revision _ | .recording revision => r.born ≤ revision
  | .refreshing p _ | .answered p _ => p < s.policies.length
  | _ => True

/-- A thread that is to record the revision of a policy it has put in place. -/
def Publishing (r : Request) (revision : Nat) : Prop :=
  (∃ sec, r.pc = .stored revision sec) ∨ r.pc = .recording revision

structure Sound (s : Context) : Prop where
  auth : s.auth < s.policies.length
  fits : ∀ r ∈ s.requests, r.born ≤ s.revision ∧ Fits s r
  /-- A recorded revision is that of an older policy only until some thread has come to
  record its own. -/
  recorded : s.revisionOf s.auth < s.authRevision →
    ∃ r ∈ s.requests, ∃ revision, Publishing r revision ∧ revision ≤ s.revisionOf s.auth

theorem Fits.grows {s s' : Context} {r : Request} (h : Grows s s') (hr : Fits s r) : Fits s' r := by
  obtain ⟨born, pc⟩ := r
  cases pc with
  | compared revision | rereading revision => exact ⟨hr.1, hr.2.trans h.revision⟩
  | built revision p sec =>
    obtain ⟨hborn, hp, hle⟩ := hr
    exact ⟨hborn, h.lt hp, by rwa [h.revisionOf hp]⟩
  | refreshing | answered => exact h.lt hr
  | _ => exact hr

/-- One step of a request, as its own and as the others see it. -/
theorem Fits.step {s s' : Context} {r : Request} {pc : Pc} (hauth : s.auth < s.policies.length)
    (hborn : r.born ≤ s.revision) (hr : Fits s r) (h : r.pc.step s = some (s', pc)) :
    Fits s' { r with pc := pc } ∧ s'.auth < s'.policies.length := by
  have hgrows := Pc.step_grows h
  obtain ⟨born, old⟩ := r
  cases old with
  | entered => cases h; exact ⟨⟨hborn, Nat.le_refl _⟩, hauth⟩
  | compared revision =>
    cases h
    refine ⟨?_, hauth⟩
    dsimp only
    split
    · exact trivial
    · exact hr
  | same => cases h; exact ⟨hauth, hauth⟩
  | refreshing p refresh =>
    obtain ⟨policy, hpolicy, h⟩ := Option.map_eq_some_iff.mp h
    cases h
    refine ⟨?_, by simpa using hauth⟩
    dsimp only
    cases (refresh.step s policy).2 with
    | none => exact trivial
    | some next => exact hgrows.lt hr
  | rereading revision => cases h; exact ⟨hr, hauth⟩
  | statting | reading =>
    simp only [Pc.step] at h
    split at h <;> cases h <;> exact ⟨by first | exact hr | exact trivial, hauth⟩
  | building revision document sec signature token =>
    cases h
    refine ⟨⟨hr.1, by simp, ?_⟩, hgrows.lt hauth⟩
    rw [Context.revisionOf, List.getElem?_concat_length]
    exact hr.2
  | built revision p sec => cases h; exact ⟨hr.1, hr.2.1⟩
  | stored | recording =>
    cases h
    exact ⟨by first | exact hr | exact trivial, hauth⟩
  | leaving failed => cases h; exact ⟨hauth, hauth⟩
  | answered => cases h

/-- Only two steps write what the requests share of the policy. -/
theorem Pc.step_shared {s s' : Context} {pc pc' : Pc} (h : pc.step s = some (s', pc')) :
    s'.revision = s.revision ∧ s'.sec = s.sec ∧
      (s'.auth = s.auth ∨ ∃ revision p sec, pc = .built revision p sec) ∧
      (s'.authRevision = s.authRevision ∨ pc = .recording s'.authRevision) := by
  cases pc with
  | answered => cases h
  | refreshing p r =>
    obtain ⟨policy, -, h⟩ := Option.map_eq_some_iff.mp h
    cases h
    exact ⟨rfl, rfl, .inl rfl, .inl rfl⟩
  | statting | reading =>
    simp only [Pc.step] at h
    split at h <;> cases h <;> exact ⟨rfl, rfl, .inl rfl, .inl rfl⟩
  | built revision p sec =>
    cases h
    exact ⟨rfl, rfl, .inr ⟨revision, p, sec, rfl⟩, .inl rfl⟩
  | recording revision =>
    cases h
    exact ⟨rfl, rfl, .inl rfl, .inr rfl⟩
  | _ =>
    cases h
    exact ⟨rfl, rfl, .inl rfl, .inl rfl⟩

theorem Pc.step_files {s s' : Context} {pc pc' : Pc} (h : pc.step s = some (s', pc')) :
    s'.files = s.files ∧ s'.stamp = s.stamp ∧ s'.now = s.now := by
  cases pc with
  | answered => cases h
  | refreshing p r =>
    obtain ⟨policy, -, h⟩ := Option.map_eq_some_iff.mp h
    cases h
    exact ⟨rfl, rfl, rfl⟩
  | statting | reading =>
    simp only [Pc.step] at h
    split at h <;> cases h <;> exact ⟨rfl, rfl, rfl⟩
  | _ =>
    cases h
    exact ⟨rfl, rfl, rfl⟩

theorem eq_of_set_self {l : List Request} {i : Nat} {r x : Request}
    (h : (l.set i r)[i]? = some x) : x = r := by
  obtain ⟨hi, h⟩ := List.getElem?_eq_some_iff.mp h
  rw [← h, List.getElem_set_self]

theorem mem_set_of_ne {l : List Request} {i j : Nat} {r x : Request} (hij : i ≠ j)
    (hj : l[j]? = some x) : x ∈ l.set i r :=
  List.mem_of_getElem? (by rw [List.getElem?_set_ne hij, hj])

theorem step_sound {s s' : Context} {e : Event} (h : Sound s) (hcareful : Careful s e)
    (hs : s.step e = some s') : Sound s' := by
  have hgrows := Context.step_grows hs
  cases e with
  | rewrite | remove | tick =>
    cases hs
    exact ⟨h.auth, h.fits, h.recorded⟩
  | begin =>
    cases hs
    refine ⟨h.auth, fun r hr => ?_, fun hlt => ?_⟩
    · rcases List.mem_append.mp hr with hr | hr
      · exact h.fits r hr
      · obtain rfl := List.mem_singleton.mp hr
        exact ⟨Nat.le_refl _, trivial⟩
    · obtain ⟨r, hr, hpublishing⟩ := h.recorded hlt
      exact ⟨r, List.mem_append_left _ hr, hpublishing⟩
  | commit sec =>
    cases hs
    refine ⟨h.auth, fun r hr => ?_, h.recorded⟩
    obtain ⟨hborn, hfits⟩ := h.fits r hr
    exact ⟨hborn.trans hgrows.revision, hfits.grows hgrows⟩
  | refuse i =>
    obtain ⟨r, hr, hs⟩ := Option.bind_eq_some_iff.mp hs
    split at hs
    · rename_i revision hpc
      cases hs
      refine ⟨h.auth, fun x hx => ?_, fun hlt => ?_⟩
      · rcases List.mem_or_eq_of_mem_set hx with hx | rfl
        · exact h.fits x hx
        · exact ⟨(h.fits r (List.mem_of_getElem? hr)).1, trivial⟩
      · obtain ⟨x, hx, recorded, hpublishing, hle⟩ := h.recorded hlt
        obtain ⟨j, hj⟩ := List.mem_iff_getElem?.mp hx
        have hij : i ≠ j := by
          rintro rfl
          cases hr.symm.trans hj
          rcases hpublishing with ⟨sec, hsame⟩ | hsame <;> rw [hpc] at hsame <;> cases hsame
        exact ⟨x, mem_set_of_ne hij hj, recorded, hpublishing, hle⟩
    · cases hs
  | step i =>
    obtain ⟨r, hr, hs⟩ := Option.bind_eq_some_iff.mp hs
    obtain ⟨⟨s₁, pc⟩, hpc, hs⟩ := Option.bind_eq_some_iff.mp hs
    cases hs
    obtain ⟨hborn, hfits⟩ := h.fits r (List.mem_of_getElem? hr)
    obtain ⟨hown, hauth⟩ := Fits.step h.auth hborn hfits hpc
    obtain ⟨-, -, hshared, hrevision⟩ := Pc.step_shared hpc
    refine ⟨hauth, fun x hx => ?_, fun hlt => ?_⟩
    · rcases List.mem_or_eq_of_mem_set hx with hx | rfl
      · obtain ⟨hborn, hfits⟩ := h.fits x hx
        exact ⟨hborn.trans hgrows.revision, hfits.grows hgrows⟩
      · exact ⟨hborn.trans hgrows.revision, hown⟩
    · have hi : i < s.requests.length := (List.getElem?_eq_some_iff.mp hr).1
      have hnew : ({ r with pc := pc } : Request) ∈ s.requests.set i { r with pc := pc } :=
        List.mem_of_getElem? (List.getElem?_set_self hi)
      have hkept : s₁.revisionOf s.auth = s.revisionOf s.auth := hgrows.revisionOf h.auth
      rcases hshared with hsame | ⟨revision, p, sec, hbuilt⟩
      · have hbehind : s₁.revisionOf s₁.auth < s₁.authRevision := hlt
        rw [hsame, hkept] at hbehind
        rcases hrevision with hrevision | hrecording
        · rw [hrevision] at hbehind
          obtain ⟨x, hx, recorded, hpublishing, hle⟩ := h.recorded hbehind
          show ∃ x ∈ s.requests.set i { r with pc := pc }, ∃ revision, Publishing x revision ∧
            revision ≤ s₁.revisionOf s₁.auth
          rw [hsame, hkept]
          obtain ⟨j, hj⟩ := List.mem_iff_getElem?.mp hx
          by_cases hij : i = j
          · cases hij
            cases hr.symm.trans hj
            rcases hpublishing with ⟨sec, hstored⟩ | hrecording
            · rw [hstored] at hpc
              cases hpc
              exact ⟨_, hnew, recorded, .inr rfl, hle⟩
            · rw [hrecording] at hpc
              cases hpc
              have hold : recorded = s.authRevision := hrevision
              rw [hold] at hle
              exact absurd hle (not_le.mpr hbehind)
          · exact ⟨x, mem_set_of_ne hij hj, recorded, hpublishing, hle⟩
        · -- The step that a careful order leaves out when the policy is older.
          have hle : s₁.authRevision ≤ s.revisionOf s.auth := by
            simpa only [Careful, hr, Option.map_some, hrecording] using hcareful
          exact absurd hle (not_le.mpr hbehind)
      · rw [hbuilt] at hpc
        rw [Fits, hbuilt] at hfits
        cases hpc
        exact ⟨_, hnew, revision, .inl ⟨sec, rfl⟩, hfits.2.2⟩

def Request.answered (r : Request) : Bool :=
  match r.pc with
  | .answered _ _ => true
  | _ => false

/-- What a request that began after the turn goes by: a policy of document `c` or a later
one. -/
def GoesBy (c : Nat) (s : Context) : Pc → Prop
  | .same | .refreshing _ _ | .stored _ _ | .recording _ | .leaving false => c ≤ s.revisionOf s.auth
  | .answered p false => c ≤ s.revisionOf p
  | _ => True

/-- Document `c` is in force, nothing begun before it is under way, and `n` requests have
begun. -/
structure Turned (c n : Nat) (s : Context) : Prop where
  revision : c ≤ s.revision
  begun : n ≤ s.requests.length
  born : ∀ r ∈ s.requests, r.answered = false → c ≤ r.born
  current : c ≤ s.authRevision → c ≤ s.revisionOf s.auth
  later : ∀ (i : Nat) r, n ≤ i → s.requests[i]? = some r → GoesBy c s r.pc

theorem GoesBy.mono {c : Nat} {s s' : Context} {pc : Pc} (hgrows : Grows s s')
    (hauth : c ≤ s.revisionOf s.auth → c ≤ s'.revisionOf s'.auth)
    (hp : ∀ p failed, pc = .answered p failed → p < s.policies.length)
    (h : GoesBy c s pc) : GoesBy c s' pc := by
  cases pc with
  | same | refreshing | stored | recording => exact hauth h
  | leaving failed =>
    cases failed
    · exact hauth h
    · exact trivial
  | answered p failed =>
    cases failed
    · show c ≤ s'.revisionOf p
      rw [hgrows.revisionOf (hp p false rfl)]
      exact h
    · exact trivial
  | _ => exact trivial

/-- The policy in place stays one of the document or a later one. -/
theorem auth_stays {c : Nat} {s s' : Context} {r : Request} {pc : Pc} (hs : Sound s)
    (hr : Fits s r) (hborn : c ≤ r.born) (hpc : r.pc.step s = some (s', pc)) :
    (c ≤ s.revisionOf s.auth → c ≤ s'.revisionOf s'.auth) ∧
      ((∃ revision p sec, r.pc = .built revision p sec) → c ≤ s'.revisionOf s'.auth) := by
  have hbuilt : (∃ revision p sec, r.pc = .built revision p sec) → c ≤ s'.revisionOf s'.auth := by
    rintro ⟨revision, p, sec, hpcr⟩
    rw [Fits, hpcr] at hr
    rw [hpcr] at hpc
    cases hpc
    exact hborn.trans (hr.1.trans hr.2.2)
  refine ⟨fun hle => ?_, hbuilt⟩
  obtain ⟨-, -, hsame | hother, -⟩ := Pc.step_shared hpc
  · rw [hsame, (Pc.step_grows hpc).revisionOf hs.auth]
    exact hle
  · exact hbuilt hother

theorem GoesBy.step {c : Nat} {s s' : Context} {r : Request} {pc : Pc} (hs : Sound s)
    (hfits : Fits s r) (hborn : c ≤ r.born)
    (hcurrent : c ≤ s.authRevision → c ≤ s.revisionOf s.auth)
    (h : GoesBy c s r.pc) (hpc : r.pc.step s = some (s', pc)) : GoesBy c s' pc := by
  obtain ⟨hstays, hbuilt⟩ := auth_stays hs hfits hborn hpc
  obtain ⟨born, old⟩ := r
  cases old with
  | entered | rereading => cases hpc; exact trivial
  | statting | reading =>
    simp only [Pc.step] at hpc
    split at hpc <;> cases hpc <;> exact trivial
  | building => cases hpc; exact trivial
  | compared revision =>
    cases hpc
    split
    · rename_i hsame
      exact hcurrent (hsame ▸ hborn.trans hfits.1)
    · exact trivial
  | same => cases hpc; exact hstays h
  | refreshing p refresh =>
    obtain ⟨policy, -, hpc⟩ := Option.map_eq_some_iff.mp hpc
    cases hpc
    cases hnext : (refresh.step s policy).2 with
    | none => exact hstays h
    | some next => exact hstays h
  | built revision p sec => cases hpc; exact hbuilt ⟨_, _, _, rfl⟩
  | stored | recording => cases hpc; exact hstays h
  | leaving failed =>
    cases hpc
    cases failed
    · exact h
    · exact trivial
  | answered => cases hpc

theorem step_turned {c n : Nat} {s s' : Context} {e : Event} (hsound : Sound s)
    (h : Turned c n s) (hcareful : Careful s e) (hs : s.step e = some s') : Turned c n s' := by
  have hgrows := Context.step_grows hs
  cases e with
  | rewrite | remove | tick =>
    cases hs
    exact ⟨h.revision, h.begun, h.born, h.current, h.later⟩
  | commit sec =>
    cases hs
    exact ⟨h.revision.trans (Nat.le_succ _), h.begun, h.born, h.current, h.later⟩
  | begin =>
    cases hs
    refine ⟨h.revision, ?_, fun r hr hnot => ?_, h.current, fun i r hi hr => ?_⟩
    · exact h.begun.trans (by simp)
    · rcases List.mem_append.mp hr with hr | hr
      · exact h.born r hr hnot
      · obtain rfl := List.mem_singleton.mp hr
        exact h.revision
    · rw [List.getElem?_append] at hr
      split at hr
      · exact h.later i r hi hr
      · obtain rfl := List.mem_singleton.mp (List.mem_of_getElem? hr)
        exact trivial
  | refuse i =>
    obtain ⟨r, hr, hs⟩ := Option.bind_eq_some_iff.mp hs
    split at hs
    · rename_i revision hpc
      cases hs
      have hborn : c ≤ r.born := h.born r (List.mem_of_getElem? hr) (by rw [Request.answered, hpc])
      refine ⟨h.revision, by simpa using h.begun, fun x hx hnot => ?_, h.current,
        fun j x hj hx => ?_⟩
      · rcases List.mem_or_eq_of_mem_set hx with hx | rfl
        · exact h.born x hx hnot
        · exact hborn
      · by_cases hij : i = j
        · cases hij
          cases eq_of_set_self hx
          exact trivial
        · exact h.later j x hj (by rwa [List.getElem?_set_ne hij] at hx)
    · cases hs
  | step i =>
    obtain ⟨r, hr, hs⟩ := Option.bind_eq_some_iff.mp hs
    obtain ⟨⟨s₁, pc⟩, hpc, hs⟩ := Option.bind_eq_some_iff.mp hs
    cases hs
    have hmem := List.mem_of_getElem? hr
    have hfits := (hsound.fits r hmem).2
    have hborn : c ≤ r.born := by
      refine h.born r hmem ?_
      cases hold : r.pc <;> simp_all [Request.answered, Pc.step]
    obtain ⟨hstays, -⟩ := auth_stays hsound hfits hborn hpc
    obtain ⟨-, -, -, hrevision⟩ := Pc.step_shared hpc
    refine ⟨h.revision.trans hgrows.revision, by simpa using h.begun, fun x hx hnot => ?_,
      fun hle => ?_, fun j x hj hx => ?_⟩
    · rcases List.mem_or_eq_of_mem_set hx with hx | rfl
      · exact h.born x hx hnot
      · exact hborn
    · rcases hrevision with hsame | hrecording
      · exact hstays (h.current (hsame ▸ hle))
      · have hcare : s₁.authRevision ≤ s.revisionOf s.auth := by
          simpa only [Careful, hr, Option.map_some, hrecording] using hcareful
        exact hstays (hle.trans hcare)
    · by_cases hij : i = j
      · cases hij
        cases eq_of_set_self hx
        have hgoes : GoesBy c s₁ pc :=
          GoesBy.step hsound hfits hborn h.current (h.later i r hj hr) hpc
        exact hgoes
      · rw [List.getElem?_set_ne hij] at hx
        refine (h.later j x hj hx).mono hgrows hstays fun p failed hanswered => ?_
        have := (hsound.fits x (List.mem_of_getElem? hx)).2
        rw [Fits, hanswered] at this
        exact this

/-- Runs whose steps are all in a careful order. -/
inductive CarefulRun : Context → Context → Prop
  | refl (s : Context) : CarefulRun s s
  | tail {s t u : Context} {e : Event} :
      CarefulRun s t → Careful t e → t.step e = some u → CarefulRun s u

theorem CarefulRun.sound {s t : Context} (h : CarefulRun s t) (hs : Sound s) : Sound t := by
  induction h with
  | refl => exact hs
  | tail _ hcareful hstep ih => exact step_sound ih hcareful hstep

theorem CarefulRun.turned {c n : Nat} {s t : Context} (h : CarefulRun s t) (hs : Sound s)
    (hturned : Turned c n s) : Turned c n t := by
  induction h with
  | refl => exact hturned
  | tail hrun hcareful hstep ih => exact step_turned (hrun.sound hs) ih hcareful hstep

/-- When everything begun before a document has been answered, the policy recorded as read
at it or later is. -/
theorem Sound.turned {c : Nat} {s : Context} (h : Sound s) (hc : c ≤ s.revision)
    (hanswered : ∀ r ∈ s.requests, r.answered = false → c ≤ r.born) :
    Turned c s.requests.length s := by
  refine ⟨hc, Nat.le_refl _, hanswered, fun hle => ?_, fun i r hi hr => ?_⟩
  · by_contra hlt
    obtain ⟨r, hr, revision, hpublishing, hrevision⟩ := h.recorded (by omega)
    have hfits := (h.fits r hr).2
    have hpc : r.answered = false ∧ r.born ≤ revision := by
      rcases hpublishing with ⟨sec, hpc⟩ | hpc
      · rw [Fits, hpc] at hfits
        exact ⟨by rw [Request.answered, hpc], hfits⟩
      · rw [Fits, hpc] at hfits
        exact ⟨by rw [Request.answered, hpc], hfits⟩
    have := hanswered r hr hpc.1
    omega
  · have := (List.getElem?_eq_some_iff.mp hr).1
    omega

def Policy.path (policy : Policy) : Text := policy.tokenFile.getD []

/-- When a thread that has decided to look at the file read the clock. -/
def Refresh.checking : Refresh → Option Int
  | .begun | .timed _ => none
  | .due now | .looking now | .saw now _ | .recording now _ | .reading now _
  | .comparing now _ _ | .assigning now _ _ => some now

/-- A version of the file that was there after `now`: the present one, or one rewritten
since. -/
structure Saw (s : Context) (path : Text) (now : Int) (signature : Nat) : Prop where
  stamp : signature < s.stamp
  clock : now ≤ s.now
  present : ∀ f, s.file path = some f → f.signature = signature ∨ now ≤ f.written

/-- What was read is what the version seen holds, if that is the present one. -/
def Holds (s : Context) (path : Text) (signature : Nat) (token : Option Text) : Prop :=
  s.fileSignature path = some signature → s.readTokenFile path = token

def Refresh.Fits (s : Context) (path : Text) : Refresh → Prop
  | .begun => True
  | .timed now | .due now | .looking now => now ≤ s.now
  | .saw now signature | .recording now signature | .reading now signature =>
    Saw s path now signature
  | .comparing now signature token | .assigning now signature token =>
    Saw s path now signature ∧ Holds s path signature (some token)

def Pc.FitsFiles (s : Context) : Pc → Prop
  | .refreshing p refresh => ∀ policy, s.policies[p]? = some policy → refresh.Fits s policy.path
  | .reading _ _ sec path signature =>
    orNone sec.tokenFile = some path ∧ ∀ x, signature = some x → x < s.stamp
  | .building _ _ sec signature token =>
    ∀ x, signature = some x → x < s.stamp ∧ Holds s ((orNone sec.tokenFile).getD []) x token
  | _ => True

/-- The token of the version recorded is in force, or some thread is still to set it. -/
def InForce (s : Context) (p : Nat) : Prop :=
  ∀ policy token x, s.policies[p]? = some policy → policy.signature = some x →
    s.fileSignature policy.path = some x → s.readTokenFile policy.path = some token →
      policy.token = some token ∨
        ∃ r ∈ s.requests, ∃ refresh, r.pc = .refreshing p refresh ∧ refresh.recorded = some x

structure FilesSound (s : Context) : Prop where
  files : ∀ path f, s.file path = some f → f.signature < s.stamp ∧ f.written ≤ s.now
  policies : ∀ (p : Nat) policy x, s.policies[p]? = some policy → policy.signature = some x →
    x < s.stamp
  fits : ∀ r ∈ s.requests, r.pc.FitsFiles s
  inForce : ∀ p, InForce s p

/-- A check that ends has the token of the file in force, if the file was rewritten no later
than the thread read the clock. -/
theorem check_ends {s : Context} {i p : Nat} {r : Request} {refresh : Refresh} {policy : Policy}
    {f : File} {token : Text} {now : Int} (h : FilesSound s) (hcareful : Careful s (.step i))
    (hr : s.requests[i]? = some r) (hpc : r.pc = .refreshing p refresh)
    (hpolicy : s.policies[p]? = some policy) (hnow : refresh.checking = some now)
    (hends : (refresh.step s policy).2 = none) (hfile : s.file policy.path = some f)
    (hwritten : f.written < now) (htoken : s.readTokenFile policy.path = some token) :
    (refresh.step s policy).1.token = some token := by
  have hfits := h.fits r (List.mem_of_getElem? hr)
  rw [hpc] at hfits
  have hfits := hfits policy hpolicy
  have hsignature : s.fileSignature policy.path = some f.signature := by
    rw [Context.fileSignature, hfile, Option.map_some]
  have hpresent : ∀ {signature}, Saw s policy.path now signature → f.signature = signature := by
    intro signature hsaw
    rcases hsaw.present f hfile with hsame | hlate
    · exact hsame
    · omega
  simp only [Careful, hr, Option.map_some, hpc] at hcareful
  cases refresh with
  | begun | timed => cases hnow
  | due => cases hends
  | recording => cases hends
  | looking looked =>
    rw [Refresh.step, ← Policy.path, hsignature] at hends
    cases hends
  | saw saw signature =>
    cases hnow
    rw [Refresh.step] at hends ⊢
    split at hends
    · rename_i hrecorded
      rw [if_pos hrecorded]
      obtain rfl := hpresent hfits
      rcases h.inForce p policy token _ hpolicy hrecorded hsignature htoken with
        hset | ⟨other, hother, refresh, hrefresh, hreading⟩
      · exact hset
      · refine absurd hreading (hcareful ?_ other hother refresh hrefresh)
        rw [hpolicy]
        exact hrecorded
    · cases hends
  | reading read signature =>
    rw [Refresh.step, ← Policy.path, htoken] at hends
    cases hends
  | comparing compared signature mine =>
    cases hnow
    rw [Refresh.step] at hends ⊢
    split at hends
    · rename_i hsame
      rw [if_pos hsame]
      obtain rfl := hpresent hfits.1
      rw [hsame, ← htoken]
      exact (hfits.2 hsignature).symm
    · cases hends
  | assigning assigned signature mine =>
    cases hnow
    obtain rfl := hpresent hfits.1
    show some mine = some token
    rw [← htoken]
    exact (hfits.2 hsignature).symm

/-- Files change by whole versions, each with a signature and a time of its own. -/
structure Rewrites (s s' : Context) : Prop where
  stamp : s.stamp ≤ s'.stamp
  now : s.now ≤ s'.now
  present : ∀ path f, s'.file path = some f →
    s.file path = some f ∨ s.stamp ≤ f.signature ∧ f.signature < s'.stamp ∧
      s.now ≤ f.written ∧ f.written ≤ s'.now

theorem file_cons {s s' : Context} {other : Text} {f : Option File}
    (hs : s'.files = (other, f) :: s.files) (path : Text) :
    s'.file path = if path = other then f else s.file path := by
  rw [Context.file, hs, List.lookup_cons]
  by_cases h : path = other
  · rw [if_pos h, h, beq_self_eq_true]
    rfl
  · rw [if_neg h, beq_false_of_ne h]
    rfl

theorem Context.step_rewrites {s s' : Context} {e : Event} (h : s.step e = some s') :
    Rewrites s s' := by
  cases e with
  | begin | commit =>
    cases h
    exact ⟨Nat.le_refl _, le_refl _, fun path f hf => .inl hf⟩
  | tick elapsed =>
    cases h
    exact ⟨Nat.le_refl _, by simp, fun path f hf => .inl hf⟩
  | rewrite path text =>
    cases h
    refine ⟨Nat.le_succ _, le_refl _, fun other f hf => ?_⟩
    rw [file_cons (s := s) rfl other] at hf
    split at hf
    · cases hf
      exact .inr ⟨Nat.le_refl _, Nat.lt_succ_self _, le_refl _, le_refl _⟩
    · exact .inl hf
  | remove path =>
    cases h
    refine ⟨Nat.le_refl _, le_refl _, fun other f hf => ?_⟩
    rw [file_cons (s := s) rfl other] at hf
    split at hf
    · cases hf
    · exact .inl hf
  | refuse i =>
    obtain ⟨r, -, h⟩ := Option.bind_eq_some_iff.mp h
    split at h
    · cases h
      exact ⟨Nat.le_refl _, le_refl _, fun path f hf => .inl hf⟩
    · cases h
  | step i =>
    obtain ⟨r, -, h⟩ := Option.bind_eq_some_iff.mp h
    obtain ⟨⟨s₁, pc⟩, hpc, h⟩ := Option.bind_eq_some_iff.mp h
    cases h
    obtain ⟨hfiles, hstamp, hnow⟩ := Pc.step_files hpc
    refine ⟨hstamp.ge, hnow.ge, fun path f hf => .inl ?_⟩
    have hsame : s₁.file path = s.file path := by rw [Context.file, hfiles, Context.file]
    exact hsame ▸ hf

theorem Saw.mono {s s' : Context} {path : Text} {now : Int} {x : Nat} (h : Rewrites s s')
    (hs : Saw s path now x) : Saw s' path now x := by
  refine ⟨hs.stamp.trans_le h.stamp, hs.clock.trans h.now, fun f hf => ?_⟩
  rcases h.present path f hf with hf | ⟨-, -, hnow, -⟩
  · exact hs.present f hf
  · exact .inr (hs.clock.trans hnow)

theorem Rewrites.file_eq {s s' : Context} {path : Text} {x : Nat} (h : Rewrites s s')
    (hx : x < s.stamp) (hs : s'.fileSignature path = some x) : s'.file path = s.file path := by
  obtain ⟨f, hf, rfl⟩ := Option.map_eq_some_iff.mp hs
  rcases h.present path f hf with hold | ⟨hnew, -⟩
  · rw [hf, hold]
  · omega

theorem Holds.mono {s s' : Context} {path : Text} {x : Nat} {token : Option Text}
    (h : Rewrites s s') (hx : x < s.stamp) (hs : Holds s path x token) : Holds s' path x token := by
  intro hsignature
  have hfile := h.file_eq hx hsignature
  rw [Context.fileSignature, hfile] at hsignature
  rw [Context.readTokenFile, hfile]
  exact hs hsignature

theorem Refresh.Fits.mono {s s' : Context} {path : Text} {refresh : Refresh} (h : Rewrites s s')
    (hs : refresh.Fits s path) : refresh.Fits s' path := by
  cases refresh with
  | begun => exact trivial
  | timed | due | looking => exact le_trans hs h.now
  | saw | recording | reading => exact Saw.mono h hs
  | comparing | assigning => exact ⟨hs.1.mono h, hs.2.mono h hs.1.stamp⟩

theorem Refresh.Fits.step {s : Context} {policy : Policy} {refresh next : Refresh}
    (hfiles : ∀ path f, s.file path = some f → f.signature < s.stamp)
    (hs : refresh.Fits s policy.path) (hnext : (refresh.step s policy).2 = some next) :
    next.Fits s policy.path := by
  cases refresh with
  | begun =>
    rw [Refresh.step] at hnext
    split at hnext <;> cases hnext
    exact le_refl _
  | timed now =>
    rw [Refresh.step] at hnext
    split at hnext <;> cases hnext
    exact hs
  | due now =>
    cases hnext
    exact hs
  | looking now =>
    rw [Refresh.step, ← Policy.path] at hnext
    split at hnext
    · cases hnext
    · rename_i signature hsignature
      cases hnext
      obtain ⟨f, hf, rfl⟩ := Option.map_eq_some_iff.mp hsignature
      refine ⟨hfiles _ f hf, hs, fun g hg => .inl ?_⟩
      cases hf.symm.trans hg
      rfl
  | saw now signature =>
    rw [Refresh.step] at hnext
    split at hnext <;> cases hnext
    exact hs
  | recording now signature =>
    cases hnext
    exact hs
  | reading now signature =>
    rw [Refresh.step, ← Policy.path] at hnext
    split at hnext
    · cases hnext
    · rename_i token htoken
      cases hnext
      exact ⟨hs, fun _ => htoken⟩
  | comparing now signature token =>
    rw [Refresh.step] at hnext
    split at hnext <;> cases hnext
    exact hs
  | assigning => cases hnext

theorem Grows.path {s s' : Context} (h : Grows s s') {p : Nat} {policy' : Policy}
    (hp : p < s.policies.length) (hpolicy' : s'.policies[p]? = some policy') :
    ∃ policy, s.policies[p]? = some policy ∧ policy'.path = policy.path := by
  obtain ⟨found, hfound, -, hfile, -⟩ := h.policies (List.getElem?_eq_getElem hp)
  cases hfound.symm.trans hpolicy'
  exact ⟨_, List.getElem?_eq_getElem hp, by rw [Policy.path, hfile, Policy.path]⟩

theorem Pc.FitsFiles.mono {s s' : Context} {r : Request} (hgrows : Grows s s')
    (hrewrites : Rewrites s s') (hfits : TokenAuth.Fits s r) (h : r.pc.FitsFiles s) :
    r.pc.FitsFiles s' := by
  obtain ⟨born, pc⟩ := r
  cases pc with
  | refreshing p refresh =>
    intro policy' hpolicy'
    obtain ⟨policy, hpolicy, hpath⟩ := hgrows.path hfits hpolicy'
    rw [hpath]
    exact (h policy hpolicy).mono hrewrites
  | reading revision document sec path signature =>
    exact ⟨h.1, fun x hx => (h.2 x hx).trans_le hrewrites.stamp⟩
  | building revision document sec signature token =>
    intro x hx
    obtain ⟨hstamp, hholds⟩ := h x hx
    exact ⟨hstamp.trans_le hrewrites.stamp, hholds.mono hrewrites hstamp⟩
  | _ => exact trivial

theorem Pc.FitsFiles.step {s s' t : Context} {pc pc' : Pc} (hs : FilesSound s)
    (h : pc.FitsFiles s) (hpc : pc.step s = some (s', pc')) (hgrows : Grows s t)
    (hrewrites : Rewrites s t) : pc'.FitsFiles t := by
  cases pc with
  | answered => cases hpc
  | compared revision =>
    cases hpc
    split <;> exact trivial
  | same =>
    cases hpc
    exact fun policy hpolicy => trivial
  | refreshing p refresh =>
    obtain ⟨policy, hpolicy, hpc⟩ := Option.map_eq_some_iff.mp hpc
    cases hpc
    cases hnext : (refresh.step s policy).2 with
    | none => exact trivial
    | some next =>
      intro policy' hpolicy'
      obtain ⟨old, hold, hpath⟩ := hgrows.path (List.getElem?_eq_some_iff.mp hpolicy).1 hpolicy'
      cases hpolicy.symm.trans hold
      rw [hpath]
      exact (Refresh.Fits.step (fun path f hf => (hs.files path f hf).1) (h policy hpolicy)
        hnext).mono hrewrites
  | statting revision document sec =>
    rw [Pc.step] at hpc
    split at hpc
    · cases hpc
      exact fun x hx => by cases hx
    · rename_i path hpath
      cases hpc
      refine ⟨hpath, fun x hx => ?_⟩
      obtain ⟨f, hf, rfl⟩ := Option.map_eq_some_iff.mp hx
      exact (hs.files path f hf).1.trans_le hrewrites.stamp
  | reading revision document sec path signature =>
    rw [Pc.step] at hpc
    split at hpc
    · cases hpc
      exact trivial
    · rename_i token htoken
      cases hpc
      intro x hx
      have hholds : Holds s path x (some token) := fun _ => htoken
      rw [h.1]
      exact ⟨(h.2 x hx).trans_le hrewrites.stamp, hholds.mono hrewrites (h.2 x hx)⟩
  | entered | rereading | building | built | stored | recording | leaving =>
    cases hpc
    exact trivial

/-- What a step leaves of a policy that it neither records nor sets. -/
theorem InForce.mono {s s' : Context} {p : Nat} (hs : FilesSound s) (hrewrites : Rewrites s s')
    (hpolicies : ∀ policy', s'.policies[p]? = some policy' → ∃ policy,
      s.policies[p]? = some policy ∧ policy'.path = policy.path ∧
        policy'.token = policy.token ∧ policy'.signature = policy.signature)
    (hkeep : ∀ policy token x, s.policies[p]? = some policy →
      s.fileSignature policy.path = some x → s.readTokenFile policy.path = some token →
      ∀ r ∈ s.requests, ∀ refresh, r.pc = .refreshing p refresh → refresh.recorded = some x →
        policy.token = some token ∨
          ∃ r ∈ s'.requests, ∃ refresh, r.pc = .refreshing p refresh ∧ refresh.recorded = some x) :
    InForce s' p := by
  intro policy' token x hpolicy' hsignature hpresent htoken
  obtain ⟨policy, hpolicy, hpath, hsame, hrecorded⟩ := hpolicies policy' hpolicy'
  rw [hrecorded] at hsignature
  rw [hpath] at hpresent htoken
  have hfile := hrewrites.file_eq (hs.policies p policy x hpolicy hsignature) hpresent
  rw [Context.fileSignature, hfile] at hpresent
  rw [Context.readTokenFile, hfile] at htoken
  rw [hsame]
  rcases hs.inForce p policy token x hpolicy hsignature hpresent htoken with
    hset | ⟨r, hr, refresh, hpc, hreading⟩
  · exact .inl hset
  · exact hkeep policy token x hpolicy hpresent htoken r hr refresh hpc hreading

theorem Refresh.step_signature {s : Context} {policy : Policy} {refresh : Refresh} {x : Nat}
    (hs : refresh.Fits s policy.path) (hpolicy : ∀ x, policy.signature = some x → x < s.stamp)
    (hx : (refresh.step s policy).1.signature = some x) : x < s.stamp := by
  cases refresh with
  | recording now signature =>
    cases hx
    exact hs.stamp
  | due | assigning => exact hpolicy x hx
  | _ =>
    rw [Refresh.step] at hx
    split at hx <;> exact hpolicy x hx

/-- A step of the thread that refreshes a policy leaves its token in force or to be set. -/
theorem inForce_refreshed {s s' : Context} {i p : Nat} {r : Request} {refresh : Refresh}
    {policy : Policy} (hs : FilesSound s) (hcareful : Careful s (.step i))
    (hr : s.requests[i]? = some r) (hpc : r.pc = .refreshing p refresh)
    (hpolicy : s.policies[p]? = some policy)
    (hpolicies : s'.policies = s.policies.set p (refresh.step s policy).1)
    (hrequests : s'.requests = s.requests.set i
      { r with pc := (refresh.step s policy).2.elim (.leaving false) (.refreshing p) })
    (hfiles : ∀ path, s'.file path = s.file path) (hrewrites : Rewrites s s') : InForce s' p := by
  have hp := (List.getElem?_eq_some_iff.mp hpolicy).1
  have hi := (List.getElem?_eq_some_iff.mp hr).1
  have hfits : refresh.Fits s policy.path := by
    have hfits := hs.fits r (List.mem_of_getElem? hr)
    rw [hpc] at hfits
    exact hfits policy hpolicy
  have hnew : s'.policies[p]? = some (refresh.step s policy).1 := by
    rw [hpolicies, List.getElem?_set_self hp]
  have hown : ∀ next, (refresh.step s policy).2 = some next →
      ∃ r ∈ s'.requests, r.pc = .refreshing p next := by
    intro next hnext
    rw [hrequests, hnext]
    exact ⟨_, List.mem_of_getElem? (List.getElem?_set_self hi), rfl⟩
  -- Another thread is where it was; this one has recorded nothing or records the same.
  have hstays : (refresh.step s policy).1.path = policy.path →
      (refresh.step s policy).1.token = policy.token →
      (refresh.step s policy).1.signature = policy.signature →
      (∀ x token, s.fileSignature policy.path = some x →
        s.readTokenFile policy.path = some token → refresh.recorded = some x →
          policy.token = some token ∨
            ∃ next, (refresh.step s policy).2 = some next ∧ next.recorded = some x) →
      InForce s' p := by
    intro hpath htoken hsignature hrecorded
    refine InForce.mono hs hrewrites (fun policy' hpolicy' => ?_)
      fun found token x hfound hpresent hread other hother refresh' hpc' hreading => ?_
    · cases hnew.symm.trans hpolicy'
      exact ⟨policy, hpolicy, hpath, htoken, hsignature⟩
    · cases hpolicy.symm.trans hfound
      obtain ⟨j, hj⟩ := List.mem_iff_getElem?.mp hother
      by_cases hij : i = j
      · cases hij
        cases hr.symm.trans hj
        cases hpc.symm.trans hpc'
        rcases hrecorded x token hpresent hread hreading with hset | ⟨next, hnext, hsame⟩
        · exact .inl hset
        · obtain ⟨x', hx', hpcx⟩ := hown next hnext
          exact .inr ⟨x', hx', next, hpcx, hsame⟩
      · rw [hrequests]
        exact .inr ⟨other, mem_set_of_ne hij hj, refresh', hpc', hreading⟩
  cases refresh with
  | begun | timed | looking | saw =>
    rw [Refresh.step] at hstays
    split at hstays
    all_goals exact hstays rfl rfl rfl fun x token _ _ h => by cases h
  | due now => exact hstays rfl rfl rfl fun x token _ _ h => by cases h
  | reading now signature =>
    rw [Refresh.step, ← Policy.path] at hstays
    split at hstays
    · rename_i hnone
      refine hstays rfl rfl rfl fun x token _ hread h => ?_
      rw [hnone] at hread
      cases hread
    · exact hstays rfl rfl rfl fun x token _ _ h => .inr ⟨_, rfl, h⟩
  | comparing now signature mine =>
    rw [Refresh.step] at hstays
    split at hstays
    · rename_i hsame
      refine hstays rfl rfl rfl fun x token hpresent hread h => .inl ?_
      cases h
      rw [hsame, ← hread]
      exact (hfits.2 hpresent).symm
    · exact hstays rfl rfl rfl fun x token _ _ h => .inr ⟨_, rfl, h⟩
  | recording now signature =>
    intro policy' token x hpolicy' hsignature hpresent hread
    cases hnew.symm.trans hpolicy'
    cases hsignature
    obtain ⟨own, hown, hpcown⟩ := hown _ rfl
    exact .inr ⟨own, hown, _, hpcown, rfl⟩
  | assigning now signature mine =>
    intro policy' token x hpolicy' hsignature hpresent hread
    cases hnew.symm.trans hpolicy'
    -- The signature recorded is that of the version the token is from.
    have hmine : policy.signature = some signature := by
      simpa only [Careful, hr, Option.map_some, hpc, hpolicy, Option.bind_some] using hcareful
    cases hmine.symm.trans hsignature
    left
    show some mine = some token
    rw [Context.fileSignature, hfiles] at hpresent
    rw [Context.readTokenFile, hfiles] at hread
    rw [← hread]
    exact (hfits.2 hpresent).symm

/-- A policy as `from_config` makes it has the token of the version it took the signature
of. -/
theorem inForce_built {s t : Context} {revision document : Nat} {sec : Section}
    {signature : Option Nat} {token : Option Text} {policy : Policy}
    (hfits : (Pc.building revision document sec signature token).FitsFiles s)
    (hsignature : policy.signature = signature) (htoken : policy.token = token)
    (hpath : policy.path = (orNone sec.tokenFile).getD [])
    (hpolicy : t.policies[s.policies.length]? = some policy)
    (hfiles : ∀ path, t.file path = s.file path) : InForce t s.policies.length := by
  intro policy' read x hpolicy' hx hpresent hread
  cases hpolicy.symm.trans hpolicy'
  left
  rw [Context.fileSignature, hfiles, hpath] at hpresent
  rw [Context.readTokenFile, hfiles, hpath] at hread
  rw [htoken, ← hread]
  exact ((hfits x (hsignature ▸ hx)).2 hpresent).symm

theorem step_filesSound {s s' : Context} {e : Event} (hsound : Sound s) (h : FilesSound s)
    (hcareful : Careful s e) (hs : s.step e = some s') : FilesSound s' := by
  have hgrows := Context.step_grows hs
  have hrewrites := Context.step_rewrites hs
  have hfiles : ∀ path f, s'.file path = some f → f.signature < s'.stamp ∧ f.written ≤ s'.now := by
    intro path f hf
    rcases hrewrites.present path f hf with hold | ⟨-, hstamp, -, hnow⟩
    · obtain ⟨hstamp, hnow⟩ := h.files path f hold
      exact ⟨hstamp.trans_le hrewrites.stamp, hnow.trans hrewrites.now⟩
    · exact ⟨hstamp, hnow⟩
  have hother : ∀ r ∈ s.requests, r.pc.FitsFiles s' := fun r hr =>
    (h.fits r hr).mono hgrows hrewrites (hsound.fits r hr).2
  cases e with
  | commit | rewrite | remove | tick =>
    cases hs
    refine ⟨hfiles, fun p policy x hp hx =>
      (h.policies p policy x hp hx).trans_le hrewrites.stamp, hother, fun p => ?_⟩
    exact InForce.mono h hrewrites (fun policy hp => ⟨policy, hp, rfl, rfl, rfl⟩)
      fun _ _ _ _ _ _ r hr refresh hpc hreading => .inr ⟨r, hr, refresh, hpc, hreading⟩
  | begin =>
    cases hs
    refine ⟨hfiles, h.policies, fun r hr => ?_, fun p => ?_⟩
    · rcases List.mem_append.mp hr with hr | hr
      · exact hother r hr
      · obtain rfl := List.mem_singleton.mp hr
        exact trivial
    · exact InForce.mono h hrewrites (fun policy hp => ⟨policy, hp, rfl, rfl, rfl⟩)
        fun _ _ _ _ _ _ r hr refresh hpc hreading =>
          .inr ⟨r, List.mem_append_left _ hr, refresh, hpc, hreading⟩
  | refuse i =>
    obtain ⟨r, hr, hs⟩ := Option.bind_eq_some_iff.mp hs
    split at hs
    · rename_i revision hpc
      cases hs
      refine ⟨hfiles, h.policies, fun x hx => ?_, fun p => ?_⟩
      · rcases List.mem_or_eq_of_mem_set hx with hx | rfl
        · exact hother x hx
        · exact trivial
      · refine InForce.mono h hrewrites (fun policy hp => ⟨policy, hp, rfl, rfl, rfl⟩)
          fun _ _ _ _ _ _ x hx refresh hpcx hreading => ?_
        obtain ⟨j, hj⟩ := List.mem_iff_getElem?.mp hx
        have hij : i ≠ j := by
          rintro rfl
          cases hr.symm.trans hj
          cases hpc.symm.trans hpcx
        exact .inr ⟨x, mem_set_of_ne hij hj, refresh, hpcx, hreading⟩
    · cases hs
  | step i =>
    obtain ⟨r, hr, hs⟩ := Option.bind_eq_some_iff.mp hs
    obtain ⟨⟨s₁, pc⟩, hpc, hs⟩ := Option.bind_eq_some_iff.mp hs
    cases hs
    have hfits := h.fits r (List.mem_of_getElem? hr)
    have hown := hfits.step h hpc hgrows hrewrites
    let s' : Context := { s₁ with requests := s.requests.set i { r with pc := pc } }
    suffices hgood : ∀ p, (∀ policy x, s'.policies[p]? = some policy →
        policy.signature = some x → x < s'.stamp) ∧ InForce s' p by
      refine ⟨hfiles, fun p => (hgood p).1, fun x hx => ?_, fun p => (hgood p).2⟩
      rcases List.mem_or_eq_of_mem_set hx with hx | rfl
      · exact hother x hx
      · exact hown
    have hsame : ∀ p, (∀ refresh, r.pc = .refreshing p refresh → False) →
        s₁.policies[p]? = s.policies[p]? →
        (∀ policy x, s'.policies[p]? = some policy → policy.signature = some x → x < s'.stamp) ∧
          InForce s' p := by
      intro p hnot hp
      refine ⟨fun policy x hpolicy hx => ?_, ?_⟩
      · exact (h.policies p policy x (hp ▸ hpolicy) hx).trans_le hrewrites.stamp
      · refine InForce.mono h hrewrites (fun policy hpolicy =>
          ⟨policy, hp ▸ hpolicy, rfl, rfl, rfl⟩) fun _ _ _ _ _ _ x hx refresh hpcx hreading => ?_
        obtain ⟨j, hj⟩ := List.mem_iff_getElem?.mp hx
        have hij : i ≠ j := by
          rintro rfl
          cases hr.symm.trans hj
          exact hnot refresh hpcx
        exact .inr ⟨x, mem_set_of_ne hij hj, refresh, hpcx, hreading⟩
    intro p
    cases hold : r.pc with
    | refreshing q refresh =>
      rw [hold] at hpc
      obtain ⟨policy, hpolicy, hpc⟩ := Option.map_eq_some_iff.mp hpc
      cases hpc
      by_cases hpq : q = p
      · cases hpq
        rw [hold] at hfits
        refine ⟨fun found x hfound hx => ?_,
          inForce_refreshed h hcareful hr hold hpolicy rfl rfl (fun _ => rfl) hrewrites⟩
        have hq := (List.getElem?_eq_some_iff.mp hpolicy).1
        cases (List.getElem?_set_self hq).symm.trans hfound
        have hseen : ∀ x, policy.signature = some x → x < s.stamp :=
          fun x => h.policies _ policy x hpolicy
        exact Refresh.step_signature (s := s) (hfits policy hpolicy) hseen hx
      · refine hsame p (fun refresh h => ?_) (List.getElem?_set_ne hpq)
        cases hold.symm.trans h
        exact hpq rfl
    | building revision document sec signature token =>
      rw [hold] at hfits hpc
      cases hpc
      by_cases hp : p = s.policies.length
      · subst hp
        refine ⟨fun found x hfound hx => ?_, inForce_built hfits rfl rfl rfl
          List.getElem?_concat_length fun _ => rfl⟩
        cases (List.getElem?_concat_length).symm.trans hfound
        exact (hfits x hx).1
      · refine hsame p (fun refresh h => by cases hold.symm.trans h) ?_
        rw [List.getElem?_append]
        split
        · rfl
        · rw [List.getElem?_eq_none (by simp; omega), List.getElem?_eq_none (by omega)]
    | statting | reading =>
      rw [hold] at hpc
      simp only [Pc.step] at hpc
      split at hpc <;> cases hpc
      all_goals exact hsame p (fun refresh h => by cases hold.symm.trans h) rfl
    | answered =>
      rw [hold] at hpc
      cases hpc
    | _ =>
      rw [hold] at hpc
      cases hpc
      exact hsame p (fun refresh h => by cases hold.symm.trans h) rfl

/-- An application that has just been made of the document in force. -/
structure Started (s : Context) : Prop where
  requests : s.requests = []
  files : ∀ path f, s.file path = some f → f.signature < s.stamp ∧ f.written ≤ s.now
  policy : ∃ policy, s.fromConfig s.sec = some policy ∧ s.policies = [policy]
  auth : s.auth = 0
  authRevision : s.authRevision = s.revision

theorem Started.sound {s : Context} (h : Started s) : Sound s := by
  obtain ⟨policy, hmade, hpolicies⟩ := h.policy
  have hrevision : policy.revision = s.revision := by
    rw [Context.fromConfig] at hmade
    split at hmade
    · cases hmade
      rfl
    · obtain ⟨token, -, rfl⟩ := Option.map_eq_some_iff.mp hmade
      rfl
  refine ⟨by rw [h.auth, hpolicies]; exact Nat.zero_lt_one, fun r hr => ?_, fun hlt => ?_⟩
  · rw [h.requests] at hr
    cases hr
  · rw [Context.revisionOf, h.auth, hpolicies, h.authRevision] at hlt
    exact absurd hlt (by simp [hrevision])

theorem Started.filesSound {s : Context} (h : Started s) : FilesSound s := by
  obtain ⟨policy, hmade, hpolicies⟩ := h.policy
  have hpolicy : ∀ x, policy.signature = some x →
      s.fileSignature policy.path = some x ∧ s.readTokenFile policy.path = policy.token := by
    intro x hx
    rw [Context.fromConfig] at hmade
    split at hmade
    · cases hmade
      cases hx
    · rename_i path hpath
      obtain ⟨token, htoken, rfl⟩ := Option.map_eq_some_iff.mp hmade
      rw [Policy.path, Section.policy, hpath]
      exact ⟨hx, htoken⟩
  have hsole : ∀ {p : Nat} {found : Policy}, s.policies[p]? = some found → found = policy := by
    intro p found hfound
    have hmem := List.mem_of_getElem? hfound
    rw [hpolicies] at hmem
    exact List.mem_singleton.mp hmem
  refine ⟨h.files, fun p found x hfound hx => ?_, fun r hr => ?_, fun p found token x hfound hx
    hpresent hread => .inl ?_⟩
  · cases hsole hfound
    obtain ⟨f, hf, rfl⟩ := Option.map_eq_some_iff.mp (hpolicy x hx).1
    exact (h.files _ f hf).1
  · rw [h.requests] at hr
    cases hr
  · cases hsole hfound
    rw [← (hpolicy x hx).2, hread]

theorem CarefulRun.filesSound {s t : Context} (h : CarefulRun s t) (hs : Sound s)
    (hfiles : FilesSound s) : FilesSound t := by
  induction h with
  | refl => exact hfiles
  | tail hrun hcareful hstep ih => exact step_filesSound (hrun.sound hs) ih hcareful hstep

/-- A policy with a token gives way to one without only where the document asks for none. -/
theorem step_enabled {s s' : Context} {e : Event} (hcareful : Careful s e)
    (hs : s.step e = some s') (henabled : s.enabled s.auth = true)
    (hsec : s'.sec.configures = true) : s'.enabled s'.auth = true := by
  have hgrows := Context.step_grows hs
  cases e with
  | begin | commit | rewrite | remove | tick =>
    cases hs
    exact henabled
  | refuse i =>
    obtain ⟨r, -, hs⟩ := Option.bind_eq_some_iff.mp hs
    split at hs
    · cases hs
      exact henabled
    · cases hs
  | step i =>
    obtain ⟨r, hr, hs⟩ := Option.bind_eq_some_iff.mp hs
    obtain ⟨⟨s₁, pc⟩, hpc, hs⟩ := Option.bind_eq_some_iff.mp hs
    cases hs
    obtain ⟨-, hsame, hauth | ⟨revision, p, sec, hbuilt⟩, -⟩ := Pc.step_shared hpc
    · show s₁.enabled s₁.auth = true
      rw [hauth]
      exact hgrows.enabled henabled
    · simp only [Careful, hr, Option.map_some, hbuilt] at hcareful
      rw [hbuilt] at hpc
      cases hpc
      rcases hcareful with henabled | hnone
      · exact henabled
      · rw [hnone] at hsec
        cases hsec

def rotating (token : Text) : Section := { token := some token }

/-- A context whose policy is of the document in force. -/
def started : Context where
  revision := 1
  sec := rotating ['a']
  files := []
  stamp := 0
  now := 0
  policies := [(rotating ['a']).policy 1 0 none (some ['a'])]
  auth := 0
  authRevision := 1
  maxPage := 1000
  maxBodyBytes := 1048576
  requests := []

theorem started_started : Started started where
  requests := rfl
  files := fun path f hf => by cases hf
  policy := ⟨_, rfl, rfl⟩
  auth := rfl
  authRevision := rfl

/-- Two re-reads that overlap: the older policy stands under the newer revision. -/
def crossing : List Event :=
  .commit (rotating ['b']) :: .begin :: List.replicate 5 (.step 0) ++
    (.commit (rotating ['c']) :: .begin :: List.replicate 7 (.step 1)) ++
    List.replicate 4 (.step 0) ++ List.replicate 2 (.step 1)

def crossed : Context := (started.run crossing).getD started

def afterwards : List Event := .begin :: List.replicate 5 (.step 2)

end Packets.TokenAuth
