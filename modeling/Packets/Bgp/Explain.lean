/-
The reasons given for a selection (`plugins/bgp/bestpath.pyx`).

The winner is compared with its rivals again once it is known, and may be behind a path it
never met in the selection, which was eliminated before.
-/
import Packets.Bgp.DeterministicMed

namespace Packets

open Preference

/-- `STEP_REASONS` -/
def Step.reason : Step → String
  | .none => "no distinguishing criterion"
  | .resolved => "only resolvable next hop"
  | .weight => "higher weight"
  | .localPref => "higher local preference"
  | .originated => "locally originated"
  | .asPath => "shorter AS path"
  | .origin => "lower origin"
  | .med => "lower MED"
  | .external => "external peer"
  | .igpMetric => "lower IGP metric to next hop"
  | .age => "older path"
  | .routerId => "lower router ID"
  | .clusterList => "shorter cluster list"
  | .peerAddr => "lower neighbour address"

/-- One row of `explain`.  `lostOn` is the step, which is reported with its reason. -/
structure Verdict where
  path : BgpPath
  verdict : String
  lostOn : Option Step

structure Explanation where
  best : Option BgpPath
  reason : String
  /-- How many paths the multipath set has, when there is a winner. -/
  multipath : Option Nat
  paths : List Verdict

/-- What a path is told, next to the winner. -/
def verdictOn (res : BestpathResult) (best : BgpPath) (cfg : BestpathConfig) (p : BgpPath) :
    Verdict :=
  if p.oid = best.oid then ⟨p, "best", none⟩
  else if !p.resolved then ⟨p, "unresolved", none⟩
  else
    let marked := res.multipath.any fun q => q.oid = p.oid
    ⟨p, if marked then "multipath" else "not best", some (pathCmp best p cfg).2⟩

/-- `explain` -/
def explain (paths : List BgpPath) (cfg : BestpathConfig) : Explanation :=
  let res := select paths cfg
  match res.best with
  | none => ⟨none, "no resolvable path", none, paths.map fun p => ⟨p, "unresolved", none⟩⟩
  | some best =>
    ⟨some best, res.reason.reason, some res.multipath.length, paths.map (verdictOn res best cfg)⟩

/-- The winner is ahead of a rival at a step, or nothing tells them apart. -/
def TrueOf (cfg : BestpathConfig) (best p : BgpPath) (step : Step) : Prop :=
  (pathCmp best p cfg).2 = step ∧
    ((pathCmp best p cfg).1 < 0 ∨ (pathCmp best p cfg).1 = 0 ∧ step = .none)

theorem criterion_none_iff {c d : Prop} [Decidable c] [Decidable d] {step : Step}
    {rest : Int × Step} (hstep : step ≠ .none) (hrest : rest.2 = .none ↔ rest.1 = 0) :
    (if c then ((if d then -1 else 1 : Int), step) else rest).2 = .none ↔
      (if c then ((if d then -1 else 1 : Int), step) else rest).1 = 0 := by
  split
  · split <;> simp [hstep]
  · exact hrest

theorem pathCmp_none_iff (a b : BgpPath) (cfg : BestpathConfig) :
    (pathCmp a b cfg).2 = .none ↔ (pathCmp a b cfg).1 = 0 := by
  unfold pathCmp
  iterate 12 apply criterion_none_iff (by decide)
  by_cases haddr : cmpAddr a.peer.addr b.peer.addr = 0
  · simp [haddr]
  · simp [haddr]

theorem trueOf_iff {cfg : BestpathConfig} {best p : BgpPath} :
    TrueOf cfg best p (pathCmp best p cfg).2 ↔ ¬0 < (pathCmp best p cfg).1 := by
  rw [TrueOf, pathCmp_none_iff]
  constructor
  · rintro ⟨-, hlt | ⟨hzero, -⟩⟩ <;> omega
  · intro hle
    refine ⟨rfl, ?_⟩
    omega

theorem Step.code_inj {s s' : Step} (h : s.code = s'.code) : s = s' := by
  cases s <;> cases s' <;> first | rfl | cases h

/-- The rivals `_decisive_reason` looks at. -/
def Rival (best p : BgpPath) : Prop := p.oid ≠ best.oid

/-- The latest step is one of those met, and none met is later. -/
theorem decisiveReason_spec (cfg : BestpathConfig) (best : BgpPath) (eligible : List BgpPath) :
    (decisiveReason eligible best cfg = .none ∨
        ∃ p ∈ eligible, Rival best p ∧ (pathCmp best p cfg).2 = decisiveReason eligible best cfg) ∧
      ∀ p ∈ eligible, Rival best p →
        (pathCmp best p cfg).2.code ≤ (decisiveReason eligible best cfg).code := by
  induction eligible using List.reverseRecOn with
  | nil =>
    constructor
    · exact .inl rfl
    · intro p hp
      cases hp
  | append_singleton eligible p ih =>
    obtain ⟨hmet, hlatest⟩ := ih
    rw [decisiveReason, List.foldl_append, List.foldl_cons, List.foldl_nil, ← decisiveReason]
    generalize decisiveReason eligible best cfg = latest at hmet hlatest
    have hkept : (latest = .none ∨ ∃ q ∈ eligible ++ [p], Rival best q ∧
        (pathCmp best q cfg).2 = latest) := by
      rcases hmet with hnone | ⟨q, hq, hrival, hstep⟩
      · exact .inl hnone
      · exact .inr ⟨q, List.mem_append_left _ hq, hrival, hstep⟩
    by_cases hself : p.oid = best.oid
    · rw [if_pos hself]
      refine ⟨hkept, ?_⟩
      intro q hq hrival
      rcases List.mem_append.mp hq with hq | hq
      · exact hlatest q hq hrival
      · rw [List.mem_singleton.mp hq] at hrival
        exact absurd hself hrival
    · rw [if_neg hself]
      by_cases hlater : (pathCmp best p cfg).2.code > latest.code
      · rw [if_pos hlater]
        constructor
        · exact .inr ⟨p, List.mem_append_right _ List.mem_cons_self, hself, rfl⟩
        · intro q hq hrival
          rcases List.mem_append.mp hq with hq | hq
          · exact Nat.le_of_lt (Nat.lt_of_le_of_lt (hlatest q hq hrival) hlater)
          · rw [List.mem_singleton.mp hq]
      · rw [if_neg hlater]
        refine ⟨hkept, ?_⟩
        intro q hq hrival
        rcases List.mem_append.mp hq with hq | hq
        · exact hlatest q hq hrival
        · rw [List.mem_singleton.mp hq]
          omega

/-- What a reason says about the winner. -/
structure ReasonTrue (paths : List BgpPath) (cfg : BestpathConfig) (best : BgpPath)
    (reason : Step) : Prop where
  /-- A reason that names a criterion puts the winner ahead of some path on it. -/
  ahead : reason ≠ .none → ∃ p ∈ paths, (pathCmp best p cfg).2 = reason ∧ (pathCmp best p cfg).1 < 0
  /-- And no resolved path ahead of the winner. -/
  never : ∀ p ∈ paths, p.resolved → Rival best p → (pathCmp best p cfg).2 = reason →
    ¬0 < (pathCmp best p cfg).1
  /-- Without one, no resolved path is told apart from the winner. -/
  tied : reason = .none → ∀ p ∈ paths, p.resolved → Rival best p → (pathCmp best p cfg).1 = 0

/-- No resolved path is ahead of the winner when the two are compared. -/
def Unbeaten (paths : List BgpPath) (cfg : BestpathConfig) (best : BgpPath) : Prop :=
  ∀ p ∈ paths, p.resolved → Rival best p → ¬0 < (pathCmp best p cfg).1

theorem decisiveReason_true {paths eligible : List BgpPath} {cfg : BestpathConfig}
    {best : BgpPath} (heligible : eligible = paths.filter BgpPath.resolved)
    (h : Unbeaten paths cfg best) :
    ReasonTrue paths cfg best (decisiveReason eligible best cfg) := by
  obtain ⟨hmet, hlatest⟩ := decisiveReason_spec cfg best eligible
  constructor
  · intro hreason
    rcases hmet with hnone | ⟨p, hp, hrival, hstep⟩
    · exact absurd hnone hreason
    · rw [heligible] at hp
      obtain ⟨hmem, hresolved⟩ := List.mem_filter.mp hp
      have hle := h p hmem hresolved hrival
      have hne := mt (pathCmp_none_iff best p cfg).mpr (hstep ▸ hreason)
      exact ⟨p, hmem, hstep, by omega⟩
  · intro p hp hresolved hrival _
    exact h p hp hresolved hrival
  · intro hreason p hp hresolved hrival
    have hmem : p ∈ eligible := heligible ▸ List.mem_filter.mpr ⟨hp, hresolved⟩
    have hle := hlatest p hmem hrival
    rw [hreason] at hle
    rw [← pathCmp_none_iff]
    exact Step.code_inj (Nat.le_zero.mp hle)

/-- Of a winner that had no resolved rival. -/
theorem onlyResolved_true {paths : List BgpPath} {cfg : BestpathConfig} {best : BgpPath}
    (honly : paths.filter BgpPath.resolved = [best]) :
    ReasonTrue paths cfg best (if paths.length > 1 then .resolved else .none) := by
  have hself : ∀ p ∈ paths, p.resolved → p = best := by
    intro p hp hresolved
    have hmem : p ∈ paths.filter BgpPath.resolved := List.mem_filter.mpr ⟨hp, hresolved⟩
    rw [honly] at hmem
    exact List.mem_singleton.mp hmem
  have hbest : best.resolved = true := by
    have hmem : best ∈ paths.filter BgpPath.resolved := honly ▸ List.mem_cons_self
    exact (List.mem_filter.mp hmem).2
  constructor
  · intro hreason
    split at hreason
    · rename_i hlen
      rw [if_pos hlen]
      obtain ⟨p, hp, hunresolved⟩ : ∃ p ∈ paths, ¬p.resolved = true := by
        by_contra hall
        push Not at hall
        have hsame := List.filter_eq_self.mpr hall
        rw [honly] at hsame
        rw [← hsame] at hlen
        exact absurd hlen (by simp)
      rw [Bool.not_eq_true] at hunresolved
      have hcmp : pathCmp best p cfg = (-1, .resolved) := by
        rw [pathCmp, if_pos (by simp [hbest, hunresolved]), hbest, if_pos rfl]
      exact ⟨p, hp, by rw [hcmp], by rw [hcmp]; decide⟩
    · exact absurd rfl hreason
  · intro p hp hresolved hrival
    exact absurd (hself p hp hresolved ▸ rfl) hrival
  · intro _ p hp hresolved hrival
    exact absurd (hself p hp hresolved ▸ rfl) hrival

theorem select_reason_true {paths : List BgpPath} {cfg : BestpathConfig} {best : BgpPath}
    (hselect : (select paths cfg).best = some best) (h : Unbeaten paths cfg best) :
    ReasonTrue paths cfg best (select paths cfg).reason := by
  rw [select] at hselect ⊢
  split at hselect
  · cases hselect
  · rename_i p hp
    obtain rfl : p = best := Option.some.inj hselect
    exact onlyResolved_true hp
  · rename_i hnil hone
    generalize heligible : paths.filter BgpPath.resolved = eligible at *
    dsimp only at hselect ⊢
    split at hselect
    · cases hselect
    · rename_i first rest hwinners
      obtain rfl := Option.some.inj hselect
      exact decisiveReason_true heligible.symm h

/-- What an explanation reports of the losing paths is true. -/
def RowsTrue (paths : List BgpPath) (cfg : BestpathConfig) (best : BgpPath) : Prop :=
  ∀ p ∈ paths, p.resolved → Rival best p →
    ∃ row ∈ (explain paths cfg).paths, row.path = p ∧
      ∃ step, row.lostOn = some step ∧ TrueOf cfg best p step

theorem rowsTrue_iff {paths : List BgpPath} {cfg : BestpathConfig} {best : BgpPath}
    (hselect : (select paths cfg).best = some best) :
    RowsTrue paths cfg best ↔ Unbeaten paths cfg best := by
  have hrows : (explain paths cfg).paths = paths.map (verdictOn (select paths cfg) best cfg) := by
    simp only [explain, hselect]
  have hrow : ∀ p, p.resolved → Rival best p →
      (verdictOn (select paths cfg) best cfg p).lostOn = some (pathCmp best p cfg).2 := by
    intro p hresolved hrival
    simp [verdictOn, hresolved, Rival] at hrival ⊢
    simp [hrival]
  constructor
  · intro h p hp hresolved hrival
    obtain ⟨row, hmem, hpath, step, hstep, htrue⟩ := h p hp hresolved hrival
    rw [← trueOf_iff, htrue.1]
    exact htrue
  · intro h p hp hresolved hrival
    refine ⟨verdictOn (select paths cfg) best cfg p, ?_, ?_, (pathCmp best p cfg).2,
      hrow p hresolved hrival, trueOf_iff.mpr (h p hp hresolved hrival)⟩
    · rw [hrows]
      exact List.mem_map_of_mem hp
    · rw [verdictOn]
      split
      · rfl
      · split <;> rfl

/-- The reasons given are true ones if and only if the winner is behind no resolved path. -/
theorem explain_true_iff {paths : List BgpPath} {cfg : BestpathConfig} {best : BgpPath}
    (hselect : (select paths cfg).best = some best) :
    RowsTrue paths cfg best ∧ ReasonTrue paths cfg best (select paths cfg).reason ↔
      Unbeaten paths cfg best := by
  rw [rowsTrue_iff hselect]
  constructor
  · exact fun h => h.1
  · exact fun h => ⟨h, select_reason_true hselect h⟩

/-- Two paths of AS 65001 and 65002, the winner of which is behind none. -/
theorem explain_true_two :
    RowsTrue [medPath 3 1 10, medPath 2 2 5] deterministicConfig (medPath 2 2 5) ∧
      ReasonTrue [medPath 3 1 10, medPath 2 2 5] deterministicConfig (medPath 2 2 5)
        (select [medPath 3 1 10, medPath 2 2 5] deterministicConfig).reason :=
  (explain_true_iff (by decide +kernel)).mpr (by
    intro p hp _ _
    simp only [List.mem_cons, List.not_mem_nil, or_false] at hp
    rcases hp with rfl | rfl <;> decide)

/-- The path with router id 1 loses to another of its AS by MED.  It is ahead of the
winner, and is told that it lost on the router id. -/
theorem not_explain_true : ¬∀ (paths : List BgpPath) (cfg : BestpathConfig) (best : BgpPath),
    (select paths cfg).best = some best →
      RowsTrue paths cfg best ∧ ReasonTrue paths cfg best (select paths cfg).reason := by
  intro h
  have hselect : (select [medPath 1 1 20, medPath 3 1 10, medPath 2 2 5]
      deterministicConfig).best = some (medPath 2 2 5) := by decide +kernel
  obtain ⟨hrows, -⟩ := h _ _ _ hselect
  have hrival : Rival (medPath 2 2 5) (medPath 1 1 20) := by simp [Rival, medPath]
  have hahead := (rowsTrue_iff hselect).mp hrows _ List.mem_cons_self rfl hrival
  exact hahead (by decide)

end Packets
