/-
Order independence of the decision process under `deterministic-med`.

`path_cmp` is no order on all paths; it is the order of a list of ranks inside each neighbouring
AS, and of the same list without the MED between two.
-/
import Packets.Bgp.Bestpath
import Packets.Lib.Preference

namespace Packets

open Preference

/-- What a path is ranked by, most important first, the lower rank preferred.  The
MED is among the ranks only where it is comparable. -/
def BgpPath.ranks (cfg : BestpathConfig) (meds : Bool) (p : BgpPath) : List Int :=
  [if p.resolved then 0 else 1, -(p.weight : Int), -(localPrefOf p.attrs cfg : Int), p.source.code,
    if cfg.asPathIgnore then 0 else p.attrs.asPathLen,
    p.attrs.origin.toNat,
    if meds then medOf p.attrs cfg else 0,
    if p.peer.isEbgp then 0 else 1,
    p.igpMetric,
    if !cfg.compareRouterId && p.peer.isEbgp then p.recvTime else 0,
    routerIdOf p,
    p.attrs.clusterLen,
    p.peer.addr.length,
    BigEndian.toNat p.peer.addr]

/-- Whether the MEDs of two paths are comparable. -/
def medsComparable (cfg : BestpathConfig) (a b : BgpPath) : Bool :=
  cfg.alwaysCompareMed || a.attrs.neighborAs == b.attrs.neighborAs

theorem cmpAddr_eq (x y : Bytes) :
    cmpAddr x y = compareRanks [(x.length : Int), (BigEndian.toNat x : Int)]
      [(y.length : Int), (BigEndian.toNat y : Int)] := by
  rw [cmpAddr]
  rcases lt_trichotomy x.length y.length with hlen | hlen | hlen
  · rw [if_pos (ne_of_lt hlen), if_pos hlen, compareRanks_cons_of_lt (by omega)]
  · rw [if_neg (not_not.mpr hlen), compareRanks_cons_self (by omega)]
    rcases lt_trichotomy (BigEndian.toNat x) (BigEndian.toNat y) with h | h | h
    · rw [if_pos h, compareRanks_cons_of_lt (by omega)]
    · rw [if_neg (by omega), if_neg (by omega), compareRanks_cons_self (by omega)]
      rfl
    · rw [if_neg (by omega), if_pos h, compareRanks_cons_of_gt (by omega)]
  · rw [if_pos (ne_of_gt hlen), if_neg (by omega), compareRanks_cons_of_gt (by omega)]

/-- `path_cmp` compares the ranks of two paths, with the MED where it counts. -/
theorem pathCmp_eq (cfg : BestpathConfig) (a b : BgpPath) :
    (pathCmp a b cfg).1 = compareRanks (a.ranks cfg (medsComparable cfg a b))
      (b.ranks cfg (medsComparable cfg a b)) := by
  unfold pathCmp BgpPath.ranks
  refine criterion_fst ?_ ?_ fun _ => ?_
  · cases a.resolved <;> cases b.resolved <;> simp
  · cases a.resolved <;> cases b.resolved <;> simp
  refine criterion_fst (by omega) (fun _ => ?_) fun _ => ?_
  · by_cases h : a.weight > b.weight
    · rw [if_pos h, if_pos (by omega)]
    · rw [if_neg h, if_neg (by omega)]
  refine criterion_fst (by omega) (fun _ => ?_) fun _ => ?_
  · by_cases h : localPrefOf a.attrs cfg > localPrefOf b.attrs cfg
    · rw [if_pos h, if_pos (by omega)]
    · rw [if_neg h, if_neg (by omega)]
  refine criterion_fst (by omega) (fun _ => by simp) fun _ => ?_
  refine criterion_fst ?_ ?_ fun _ => ?_
  · cases cfg.asPathIgnore <;> simp
  · cases cfg.asPathIgnore <;> simp
  refine criterion_fst ?_ (fun _ => ?_) fun _ => ?_
  · rw [Ne, ← UInt8.toNat_inj]
    omega
  · simp [UInt8.lt_iff_toNat_lt]
  refine criterion_fst ?_ ?_ fun _ => ?_
  · rw [← medsComparable]
    cases medsComparable cfg a b <;> simp
  · rw [← medsComparable]
    cases medsComparable cfg a b <;> simp
  refine criterion_fst ?_ ?_ fun hexternal => ?_
  · cases a.peer.isEbgp <;> cases b.peer.isEbgp <;> simp
  · cases a.peer.isEbgp <;> cases b.peer.isEbgp <;> simp
  rw [not_not] at hexternal
  refine criterion_fst (by omega) (fun _ => by simp) fun _ => ?_
  refine criterion_fst ?_ ?_ fun _ => ?_
  · rw [hexternal]
    cases cfg.compareRouterId <;> cases b.peer.isEbgp <;> simp
  · rw [hexternal]
    cases cfg.compareRouterId <;> cases b.peer.isEbgp <;> simp
  refine criterion_fst (by omega) (fun _ => by simp) fun _ => ?_
  refine criterion_fst (by omega) (fun _ => by simp) fun _ => ?_
  rw [← cmpAddr_eq]
  by_cases haddr : cmpAddr a.peer.addr b.peer.addr = 0
  · rw [if_neg (not_not.mpr haddr), haddr]
  · rw [if_pos haddr]

/-- The sign of `path_cmp` as the comparators of the library have it. -/
def preferred (cfg : BestpathConfig) (a b : BgpPath) : Int := (pathCmp a b cfg).1

theorem preferred_rankedOn (cfg : BestpathConfig) (meds : Bool) (kind : BgpPath → Prop)
    (hmeds : ∀ a b, kind a → kind b → medsComparable cfg a b = meds) :
    RankedOn (preferred cfg) (BgpPath.ranks cfg meds) kind where
  beats a b ha hb := by
    rw [preferred, pathCmp_eq, hmeds a b ha hb]
    exact compareRanks_pos_iff rfl
  loses a b ha hb := by
    rw [preferred, pathCmp_eq, hmeds a b ha hb]
    exact compareRanks_neg_iff rfl

theorem preferred_rankedOn_group (cfg : BestpathConfig) (k : Nat) :
    RankedOn (preferred cfg) (BgpPath.ranks cfg true) fun p => p.attrs.neighborAs = k :=
  preferred_rankedOn cfg true _ fun a b ha hb => by
    simp [medsComparable, ha.trans hb.symm]

/-- Paths of one neighbouring AS are never told apart by their place in the list
when their ranks are equal. -/
theorem preferred_eq_zero {cfg : BestpathConfig} {a b : BgpPath}
    (has : a.attrs.neighborAs = b.attrs.neighborAs)
    (hranks : a.ranks cfg true = b.ranks cfg true) : (pathCmp a b cfg).1 = 0 := by
  have hrank := preferred_rankedOn_group cfg b.attrs.neighborAs
  have hbeats := hrank.beats a b has rfl
  have hloses := hrank.loses a b has rfl
  rw [hranks] at hbeats hloses
  have hle := mt hbeats.mp (lt_irrefl _)
  have hge := mt hloses.mp (lt_irrefl _)
  rw [preferred] at hle hge
  omega

theorem ranks_false (cfg : BestpathConfig) (p : BgpPath) :
    p.ranks cfg false = (p.ranks cfg true).set 6 0 := rfl

theorem ranks_eq_of_ranks {cfg : BestpathConfig} {a b : BgpPath}
    (h : a.ranks cfg true = b.ranks cfg true) (meds : Bool) :
    a.ranks cfg meds = b.ranks cfg meds := by
  cases meds with
  | true => exact h
  | false => rw [ranks_false, ranks_false, h]

theorem scanBest_eq (cfg : BestpathConfig) (best : BgpPath) (rest : List BgpPath) :
    scanBest cfg best rest = champion (preferred cfg) best rest := rfl

theorem medGroupWinners_eq (eligible : List BgpPath) (cfg : BestpathConfig) :
    medGroupWinners eligible cfg =
      groupWinners (preferred cfg) (fun p => p.attrs.neighborAs) eligible := by
  rw [medGroupWinners, groupWinners, groupsOf, groupChampions]
  refine congrArg (fun groups : Dict Nat BgpPath =>
    (groups.keys.insertionSort (· ≤ ·)).filterMap groups.get?) (List.foldl_ext _ _ _ ?_)
  intro groups p _
  cases groups.get? p.attrs.neighborAs <;> rfl

/-- The winner among resolvable paths, which `deterministic-med` finds group by
group. -/
def groupedBest (cfg : BestpathConfig) (eligible : List BgpPath) : Option BgpPath :=
  match medGroupWinners eligible cfg with
  | [] => none
  | first :: rest => some (scanBest cfg first rest)

theorem groupedBest_singleton (cfg : BestpathConfig) (p : BgpPath) :
    groupedBest cfg [p] = some p := by
  simp [groupedBest, medGroupWinners, scanBest, Dict.keys, Dict.set, Dict.setEntries,
    Dict.empty, Dict.get?, Dict.getEntries]

/-- With `deterministic-med` the selection is the grouped winner of the resolvable
paths, however many there are. -/
theorem select_best_eq {cfg : BestpathConfig} (hdet : cfg.deterministicMed = true)
    (paths : List BgpPath) :
    (select paths cfg).best = groupedBest cfg (paths.filter BgpPath.resolved) := by
  rw [select]
  cases heligible : paths.filter BgpPath.resolved with
  | nil => rfl
  | cons p rest =>
    cases rest with
    | nil => exact (groupedBest_singleton cfg p).symm
    | cons q rest =>
      simp only [hdet, if_true, groupedBest]
      cases medGroupWinners (p :: q :: rest) cfg with
      | nil => rfl
      | cons first rest => rfl

/-- Two winners no criterion separates. -/
def Interchangeable (cfg : BestpathConfig) (a b : BgpPath) : Prop :=
  (pathCmp a b cfg).1 = 0 ∧ a.attrs.neighborAs = b.attrs.neighborAs

/-- Two paths of one neighbouring AS with the same ranks. -/
def SameRank (cfg : BestpathConfig) (a b : BgpPath) : Prop :=
  a.attrs.neighborAs = b.attrs.neighborAs ∧ a.ranks cfg true = b.ranks cfg true

theorem SameRank.beats_iff {cfg : BestpathConfig} {a a' b b' : BgpPath} (ha : SameRank cfg a a')
    (hb : SameRank cfg b b') : 0 < preferred cfg a b ↔ 0 < preferred cfg a' b' := by
  have hsame : medsComparable cfg a b = medsComparable cfg a' b' := by
    rw [medsComparable, medsComparable, ha.1, hb.1]
  rw [preferred, preferred, pathCmp_eq, pathCmp_eq, hsame,
    ranks_eq_of_ranks ha.2, ranks_eq_of_ranks hb.2]

theorem groupedBest_perm (cfg : BestpathConfig) {eligible eligible' : List BgpPath}
    (hperm : eligible.Perm eligible') :
    Option.Rel (SameRank cfg) (groupedBest cfg eligible) (groupedBest cfg eligible') := by
  have hgroups : List.Forall₂ (SameRank cfg) (medGroupWinners eligible cfg)
      (medGroupWinners eligible' cfg) := by
    rw [medGroupWinners_eq, medGroupWinners_eq]
    exact groupWinners_perm (preferred_rankedOn_group cfg) hperm
  rw [groupedBest, groupedBest]
  generalize medGroupWinners eligible cfg = winners at hgroups
  generalize medGroupWinners eligible' cfg = winners' at hgroups
  cases hgroups with
  | nil => exact Option.Rel.none
  | @cons first first' rest rest' hfirst hrest =>
    apply Option.Rel.some
    rw [scanBest_eq, scanBest_eq]
    have hbeats : ∀ a a' b b', SameRank cfg a a' → SameRank cfg b b' →
        (0 < preferred cfg a b ↔ 0 < preferred cfg a' b') :=
      fun _ _ _ _ ha hb => ha.beats_iff hb
    exact champion_forall₂ hbeats hfirst hrest

theorem mem_of_groupedBest {cfg : BestpathConfig} {eligible : List BgpPath} {w : BgpPath}
    (h : groupedBest cfg eligible = some w) : w ∈ medGroupWinners eligible cfg := by
  rw [groupedBest] at h
  cases hwinners : medGroupWinners eligible cfg with
  | nil => rw [hwinners] at h; exact absurd h (by simp)
  | cons first rest =>
    rw [hwinners] at h
    rw [← Option.some.inj h, scanBest_eq]
    exact champion_mem (preferred cfg) first rest

/-- No path of the winner's neighbouring AS is strictly preferred to it. -/
theorem groupedBest_unbeaten {cfg : BestpathConfig} {paths : List BgpPath} {w : BgpPath}
    (h : groupedBest cfg (paths.filter BgpPath.resolved) = some w) :
    ∀ p ∈ paths, p.attrs.neighborAs = w.attrs.neighborAs → ¬ (pathCmp p w cfg).1 < 0 := by
  intro p hp has hbeats
  have hwin := mem_of_groupedBest h
  rw [medGroupWinners_eq, mem_groupWinners] at hwin
  have hrank := preferred_rankedOn_group cfg w.attrs.neighborAs
  by_cases hresolved : p.resolved = true
  · have hmem : p ∈ paths.filter BgpPath.resolved :=
      List.mem_filter.mpr ⟨hp, hresolved⟩
    have hle := groupChampion_le hrank hwin p hmem has
    have hlt := (hrank.loses p w has rfl).mp hbeats
    exact absurd hlt (not_lt.mpr hle)
  · have hw : w.resolved = true :=
      (List.mem_filter.mp (groupChampion_eq_some hwin).1).2
    have hunresolved : p.resolved = false := by simpa using hresolved
    rw [pathCmp, if_pos (by simp [hw, hunresolved]), hunresolved] at hbeats
    exact absurd hbeats (by decide)

/-- With `deterministic-med` the decision process does not depend on the order in
which paths arrived. -/
theorem select_perm (cfg : BestpathConfig) (hdet : cfg.deterministicMed = true)
    (paths paths' : List BgpPath) (hperm : paths.Perm paths') :
    Option.Rel (Interchangeable cfg) (select paths cfg).best (select paths' cfg).best ∧
      ∀ w, (select paths cfg).best = some w →
        ∀ p ∈ paths, p.attrs.neighborAs = w.attrs.neighborAs → ¬ (pathCmp p w cfg).1 < 0 := by
  rw [select_best_eq hdet, select_best_eq hdet]
  constructor
  · have hbest := groupedBest_perm cfg (hperm.filter BgpPath.resolved)
    generalize groupedBest cfg (paths.filter BgpPath.resolved) = best at hbest
    generalize groupedBest cfg (paths'.filter BgpPath.resolved) = best' at hbest
    cases hbest with
    | none => exact Option.Rel.none
    | some h => exact Option.Rel.some ⟨preferred_eq_zero h.1 h.2, h.1⟩
  · intro w hw
    exact groupedBest_unbeaten hw

/-- A path of AS 65001, or of AS 65002, with its MED. -/
def medPath (oid : Nat) (asn : UInt8) (med : UInt32) : BgpPath where
  oid := oid
  attrs := { asPath := [2, 1, 0, 0, 253, asn], med := some med }
  interned := oid
  peer := ⟨oid, some oid, 65000, 65000, oid, [192, 0, 2, 1], true⟩
  pathId := 0
  weight := 0
  source := .peer
  igpMetric := 0
  recvTime := 0
  resolved := true

def deterministicConfig : BestpathConfig :=
  ⟨65000, 1, false, true, false, true, false, false, 1, 1, 100⟩

/-- The three paths of the usual example, where a plain scan depends on the order. -/
theorem select_perm_three :
    Option.Rel (Interchangeable deterministicConfig)
        (select [medPath 3 1 10, medPath 2 2 5, medPath 1 1 20] deterministicConfig).best
        (select [medPath 2 2 5, medPath 3 1 10, medPath 1 1 20] deterministicConfig).best ∧
      ∀ w, (select [medPath 3 1 10, medPath 2 2 5, medPath 1 1 20]
          deterministicConfig).best = some w →
        ∀ p ∈ [medPath 3 1 10, medPath 2 2 5, medPath 1 1 20],
          p.attrs.neighborAs = w.attrs.neighborAs → ¬ (pathCmp p w deterministicConfig).1 < 0 :=
  select_perm deterministicConfig rfl _ _ (List.Perm.swap _ _ _)

end Packets
