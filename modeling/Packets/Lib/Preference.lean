/-
Choosing from a list with a comparator.

A champion is found by one scan; a comparator is ranked when its sign is the order of a rank.
-/
import Packets.Lib.Dict
import Mathlib.Data.List.Sort
import Mathlib.Data.List.Forall2
import Mathlib.Data.List.Induction
import Mathlib.Data.List.Lex

universe u v

namespace Preference

variable {α : Type u} {β : Type v}

/-- The sign of a comparator, on these candidates, is the order of a rank. -/
structure RankedOn [LinearOrder β] (cmp : α → α → Int) (rank : α → β)
    (kind : α → Prop) : Prop where
  beats : ∀ a b, kind a → kind b → (0 < cmp a b ↔ rank b < rank a)
  loses : ∀ a b, kind a → kind b → (cmp a b < 0 ↔ rank a < rank b)

/-- The linear scan: a later candidate replaces the champion only by beating it. -/
def champion (cmp : α → α → Int) (first : α) (rest : List α) : α :=
  rest.foldl (fun best p => if 0 < cmp best p then p else best) first

theorem champion_mem (cmp : α → α → Int) (first : α) (rest : List α) :
    champion cmp first rest ∈ first :: rest := by
  induction rest generalizing first with
  | nil => simp [champion]
  | cons p rest ih =>
    rw [champion, List.foldl_cons]
    by_cases hbeats : 0 < cmp first p
    · rw [if_pos hbeats]
      exact List.mem_cons_of_mem _ (ih p)
    · rw [if_neg hbeats]
      rcases List.mem_cons.mp (ih first) with hfirst | hrest
      · rw [champion] at hfirst
        rw [hfirst]
        exact List.mem_cons_self
      · exact List.mem_cons_of_mem _ (List.mem_cons_of_mem _ hrest)

/-- Among ranked candidates the champion ranks lowest. -/
theorem champion_le [LinearOrder β] {cmp : α → α → Int} {rank : α → β} {kind : α → Prop}
    (h : RankedOn cmp rank kind) {first : α} {rest : List α} (hkind : ∀ p ∈ first :: rest, kind p) :
    ∀ p ∈ first :: rest, rank (champion cmp first rest) ≤ rank p := by
  induction rest generalizing first with
  | nil =>
    intro p hp
    rw [List.mem_singleton.mp hp]
    exact le_of_eq rfl
  | cons q rest ih =>
    have hfirst : kind first := hkind first List.mem_cons_self
    have hq : kind q := hkind q (List.mem_cons_of_mem _ List.mem_cons_self)
    have hrest : ∀ p ∈ rest, kind p := fun p hp =>
      hkind p (List.mem_cons_of_mem _ (List.mem_cons_of_mem _ hp))
    intro p hp
    rw [champion, List.foldl_cons]
    by_cases hbeats : 0 < cmp first q
    · rw [if_pos hbeats]
      have hlow := ih (List.forall_mem_cons.mpr ⟨hq, hrest⟩)
      rcases List.mem_cons.mp hp with rfl | hp
      · have hlt := (h.beats p q hfirst hq).mp hbeats
        exact le_trans (hlow q List.mem_cons_self) (le_of_lt hlt)
      · exact hlow p hp
    · rw [if_neg hbeats]
      have hlow := ih (List.forall_mem_cons.mpr ⟨hfirst, hrest⟩)
      have hle : rank first ≤ rank q :=
        not_lt.mp fun hlt => hbeats ((h.beats first q hfirst hq).mpr hlt)
      rcases List.mem_cons.mp hp with rfl | hp
      · exact hlow p List.mem_cons_self
      · rcases List.mem_cons.mp hp with rfl | hp
        · exact le_trans (hlow first List.mem_cons_self) hle
        · exact hlow p (List.mem_cons_of_mem _ hp)

/-- Among ranked candidates the champion is the first of those that rank lowest. -/
theorem champion_first [LinearOrder β] {cmp : α → α → Int} {rank : α → β} {kind : α → Prop}
    (h : RankedOn cmp rank kind) (first : α) (rest : List α) (hkind : ∀ p ∈ first :: rest, kind p) :
    ∃ earlier later, first :: rest = earlier ++ champion cmp first rest :: later ∧
      (∀ p ∈ earlier, rank (champion cmp first rest) < rank p) ∧
      ∀ p ∈ later, rank (champion cmp first rest) ≤ rank p := by
  induction rest using List.reverseRecOn with
  | nil => exact ⟨[], [], rfl, by simp, by simp⟩
  | append_singleton rest p ih =>
    have hinit : ∀ q ∈ first :: rest, kind q := fun q hq =>
      hkind q (by rw [← List.cons_append]; exact List.mem_append_left _ hq)
    have hp : kind p := hkind p (by simp)
    have hmem := champion_mem cmp first rest
    have hlow := champion_le h hinit
    rcases ih hinit with ⟨earlier, later, heq, hearlier, hlater⟩
    have hsnoc : champion cmp first (rest ++ [p]) =
        if 0 < cmp (champion cmp first rest) p then p else champion cmp first rest := by
      rw [champion, List.foldl_append]
      rfl
    by_cases hbeats : 0 < cmp (champion cmp first rest) p
    · have hlt := (h.beats _ p (hinit _ hmem) hp).mp hbeats
      rw [hsnoc, if_pos hbeats]
      refine ⟨first :: rest, [], rfl, ?_, by simp⟩
      intro q hq
      exact lt_of_lt_of_le hlt (hlow q hq)
    · have hle : rank (champion cmp first rest) ≤ rank p :=
        not_lt.mp fun hlt => hbeats ((h.beats _ p (hinit _ hmem) hp).mpr hlt)
      rw [hsnoc, if_neg hbeats]
      refine ⟨earlier, later ++ [p], ?_, hearlier, ?_⟩
      · rw [← List.cons_append, heq]
        simp
      · intro q hq
        rcases List.mem_append.mp hq with hq | hq
        · exact hlater q hq
        · rw [List.mem_singleton.mp hq]
          exact hle

/-- Scans over candidates that correspond, and that the comparator cannot tell
apart, end at champions that correspond. -/
theorem champion_forall₂ {cmp : α → α → Int} {same : α → α → Prop}
    (hsame : ∀ a a' b b', same a a' → same b b' → (0 < cmp a b ↔ 0 < cmp a' b'))
    {first first' : α} {rest rest' : List α} (hfirst : same first first')
    (hrest : List.Forall₂ same rest rest') :
    same (champion cmp first rest) (champion cmp first' rest') := by
  induction hrest generalizing first first' with
  | nil => exact hfirst
  | @cons p p' rest rest' hp hrest ih =>
    simp only [champion, List.foldl_cons]
    by_cases hbeats : 0 < cmp first p
    · have hbeats' := (hsame first first' p p' hfirst hp).mp hbeats
      rw [if_pos hbeats, if_pos hbeats']
      exact ih hp
    · have hbeats' : ¬ 0 < cmp first' p' := fun hb =>
        hbeats ((hsame first first' p p' hfirst hp).mpr hb)
      rw [if_neg hbeats, if_neg hbeats']
      exact ih hfirst

/-- The champion of the candidates in one group. -/
def groupChampion (cmp : α → α → Int) (group : α → Nat) (k : Nat) (l : List α) : Option α :=
  match l.filter (fun p => group p = k) with
  | [] => none
  | first :: rest => some (champion cmp first rest)

/-- One scan that keeps the champion of every group met so far. -/
def groupChampions (cmp : α → α → Int) (group : α → Nat) (l : List α) : Dict Nat α :=
  l.foldl (fun groups p =>
    match groups.get? (group p) with
    | none => groups.set (group p) p
    | some cur => if 0 < cmp cur p then groups.set (group p) p else groups) Dict.empty

theorem groupChampion_append (cmp : α → α → Int) (group : α → Nat) (k : Nat) (l : List α) (p : α) :
    groupChampion cmp group k (l ++ [p]) =
      if group p = k then
        match groupChampion cmp group k l with
        | none => some p
        | some cur => some (if 0 < cmp cur p then p else cur)
      else groupChampion cmp group k l := by
  rw [groupChampion, List.filter_append]
  by_cases hp : group p = k
  · have hlast : [p].filter (fun p => decide (group p = k)) = [p] := by simp [hp]
    rw [if_pos hp, hlast, groupChampion]
    cases hl : l.filter (fun p => group p = k) with
    | nil => rfl
    | cons first rest =>
      simp only [List.cons_append, champion, List.foldl_append, List.foldl_cons, List.foldl_nil]
      rfl
  · have hlast : [p].filter (fun p => decide (group p = k)) = [] := by simp [hp]
    rw [if_neg hp, hlast, List.append_nil, groupChampion]

/-- The scan holds under every group the champion of its candidates. -/
theorem get?_groupChampions (cmp : α → α → Int) (group : α → Nat) (l : List α) (k : Nat) :
    (groupChampions cmp group l).get? k = groupChampion cmp group k l := by
  induction l using List.reverseRecOn with
  | nil => rfl
  | append_singleton l p ih =>
    rw [groupChampion_append, ← ih, groupChampions, List.foldl_append, ← groupChampions,
      List.foldl_cons, List.foldl_nil]
    by_cases hk : group p = k
    · subst hk
      rw [if_pos rfl]
      cases hcur : (groupChampions cmp group l).get? (group p) with
      | none => simp
      | some cur => by_cases hbeats : 0 < cmp cur p <;> simp [hbeats, hcur]
    · have hne : k ≠ group p := fun h => hk h.symm
      rw [if_neg hk]
      cases hcur : (groupChampions cmp group l).get? (group p) with
      | none => simp [hne]
      | some cur => by_cases hbeats : 0 < cmp cur p <;> simp [hbeats, hne]

theorem groupChampion_eq_some {cmp : α → α → Int} {group : α → Nat} {k : Nat} {l : List α} {w : α}
    (h : groupChampion cmp group k l = some w) : w ∈ l ∧ group w = k := by
  rw [groupChampion] at h
  cases hl : l.filter (fun p => group p = k) with
  | nil => rw [hl] at h; exact absurd h (by simp)
  | cons first rest =>
    rw [hl] at h
    have hmem := champion_mem cmp first rest
    rw [Option.some.inj h, ← hl, List.mem_filter] at hmem
    exact ⟨hmem.1, by simpa using hmem.2⟩

theorem groupChampion_isSome_iff (cmp : α → α → Int) {group : α → Nat} {k : Nat}
    {l : List α} : (∃ w, groupChampion cmp group k l = some w) ↔ ∃ p ∈ l, group p = k := by
  constructor
  · rintro ⟨w, hw⟩
    exact ⟨w, groupChampion_eq_some hw⟩
  · rintro ⟨p, hp, hk⟩
    rw [groupChampion]
    cases hl : l.filter (fun p => group p = k) with
    | nil =>
      have hmem : p ∈ l.filter (fun p => group p = k) := List.mem_filter.mpr ⟨hp, by simpa using hk⟩
      rw [hl] at hmem
      exact absurd hmem (by simp)
    | cons first rest => exact ⟨_, rfl⟩

/-- The champion of a group whose comparator is ranked ranks lowest in it. -/
theorem groupChampion_le [LinearOrder β] {cmp : α → α → Int} {rank : α → β} {group : α → Nat}
    {k : Nat} (h : RankedOn cmp rank fun p => group p = k) {l : List α} {w : α}
    (hw : groupChampion cmp group k l = some w) : ∀ p ∈ l, group p = k → rank w ≤ rank p := by
  intro p hp hk
  rw [groupChampion] at hw
  cases hl : l.filter (fun p => group p = k) with
  | nil => rw [hl] at hw; exact absurd hw (by simp)
  | cons first rest =>
    rw [hl] at hw
    have hkind : ∀ q ∈ first :: rest, group q = k := fun q hq => by
      rw [← hl] at hq
      simpa using (List.mem_filter.mp hq).2
    rw [← Option.some.inj hw]
    apply champion_le h hkind p
    rw [← hl]
    exact List.mem_filter.mpr ⟨hp, by simpa using hk⟩

/-- The groups met, in ascending order. -/
def groupsOf (cmp : α → α → Int) (group : α → Nat) (l : List α) : List Nat :=
  (groupChampions cmp group l).keys.insertionSort (· ≤ ·)

theorem mem_groupsOf {cmp : α → α → Int} {group : α → Nat} {l : List α} {k : Nat} :
    k ∈ groupsOf cmp group l ↔ ∃ p ∈ l, group p = k := by
  rw [groupsOf, List.mem_insertionSort, Dict.mem_keys_iff, ← groupChampion_isSome_iff cmp]
  simp only [get?_groupChampions]

theorem groupsOf_perm {cmp : α → α → Int} {group : α → Nat} {l l' : List α}
    (h : l.Perm l') : groupsOf cmp group l = groupsOf cmp group l' := by
  have hnodup : ∀ l : List α, (groupsOf cmp group l).Nodup := fun l =>
    (List.perm_insertionSort _ _).nodup_iff.mpr (groupChampions cmp group l).nodup
  have hperm : (groupsOf cmp group l).Perm (groupsOf cmp group l') := by
    apply (List.perm_ext_iff_of_nodup (hnodup l) (hnodup l')).mpr
    intro k
    rw [mem_groupsOf, mem_groupsOf]
    exact exists_congr fun p => and_congr_left fun _ => h.mem_iff
  exact hperm.eq_of_pairwise' (List.pairwise_insertionSort _ _) (List.pairwise_insertionSort _ _)

/-- The champions of the groups, in ascending order of the group. -/
def groupWinners (cmp : α → α → Int) (group : α → Nat) (l : List α) : List α :=
  (groupsOf cmp group l).filterMap (groupChampions cmp group l).get?

theorem mem_groupWinners {cmp : α → α → Int} {group : α → Nat} {l : List α} {w : α} :
    w ∈ groupWinners cmp group l ↔ groupChampion cmp group (group w) l = some w := by
  simp only [groupWinners, List.mem_filterMap, get?_groupChampions]
  constructor
  · rintro ⟨k, _, hw⟩
    have hk := (groupChampion_eq_some hw).2
    rw [hk]
    exact hw
  · intro hw
    exact ⟨group w, mem_groupsOf.mpr ⟨w, (groupChampion_eq_some hw).1, rfl⟩, hw⟩

/-- Two orders of the same candidates give group champions that correspond: the
same groups, with champions of the same rank. -/
theorem groupWinners_perm [LinearOrder β] {cmp : α → α → Int} {rank : α → β} {group : α → Nat}
    (h : ∀ k, RankedOn cmp rank fun p => group p = k) {l l' : List α} (hperm : l.Perm l') :
    List.Forall₂ (fun a b => group a = group b ∧ rank a = rank b)
      (groupWinners cmp group l) (groupWinners cmp group l') := by
  have hkeys : ∀ k ∈ groupsOf cmp group l, ∃ p ∈ l, group p = k := fun k hk => mem_groupsOf.mp hk
  rw [groupWinners, groupWinners, ← groupsOf_perm hperm]
  generalize groupsOf cmp group l = keys at hkeys
  induction keys with
  | nil => exact List.Forall₂.nil
  | cons k keys ih =>
    have hk := hkeys k List.mem_cons_self
    have hk' : ∃ p ∈ l', group p = k := by
      rcases hk with ⟨p, hp, hpk⟩
      exact ⟨p, hperm.mem_iff.mp hp, hpk⟩
    obtain ⟨w, hw⟩ := (groupChampion_isSome_iff cmp).mpr hk
    obtain ⟨w', hw'⟩ := (groupChampion_isSome_iff cmp).mpr hk'
    have hget : (groupChampions cmp group l).get? k = some w := by
      rw [get?_groupChampions]; exact hw
    have hget' : (groupChampions cmp group l').get? k = some w' := by
      rw [get?_groupChampions]; exact hw'
    rw [List.filterMap_cons_some hget, List.filterMap_cons_some hget']
    have hwin := groupChampion_eq_some hw
    have hwin' := groupChampion_eq_some hw'
    have hle := groupChampion_le (h k) hw w' (hperm.mem_iff.mpr hwin'.1) hwin'.2
    have hge := groupChampion_le (h k) hw' w (hperm.mem_iff.mp hwin.1) hwin.2
    refine List.Forall₂.cons ⟨hwin.2.trans hwin'.2.symm, le_antisymm hle hge⟩ ?_
    exact ih fun j hj => hkeys j (List.mem_cons_of_mem _ hj)

/-- The first place where two lists of ranks differ decides, the lower one first. -/
def compareRanks : List Int → List Int → Int
  | x :: xs, y :: ys => if x ≠ y then (if x < y then -1 else 1) else compareRanks xs ys
  | _, _ => 0

theorem compareRanks_pos_iff {xs ys : List Int} (hlen : xs.length = ys.length) :
    0 < compareRanks xs ys ↔ ys < xs := by
  induction xs generalizing ys with
  | nil =>
    cases ys with
    | nil => simp [compareRanks]
    | cons y ys => simp at hlen
  | cons x xs ih =>
    cases ys with
    | nil => simp at hlen
    | cons y ys =>
      rw [compareRanks, List.cons_lt_cons_iff]
      by_cases heq : x = y
      · subst heq
        rw [if_neg (not_not.mpr rfl), ih (by simpa using hlen)]
        simp
      · rw [if_pos heq]
        by_cases hlt : x < y
        · rw [if_pos hlt]
          constructor
          · intro h
            exact absurd h (by decide)
          · rintro (h | ⟨h, _⟩) <;> omega
        · rw [if_neg hlt]
          constructor
          · intro _
            exact Or.inl (by omega)
          · intro _
            decide

theorem compareRanks_neg_iff {xs ys : List Int} (hlen : xs.length = ys.length) :
    compareRanks xs ys < 0 ↔ xs < ys := by
  induction xs generalizing ys with
  | nil =>
    cases ys with
    | nil => simp [compareRanks]
    | cons y ys => simp at hlen
  | cons x xs ih =>
    cases ys with
    | nil => simp at hlen
    | cons y ys =>
      rw [compareRanks, List.cons_lt_cons_iff]
      by_cases heq : x = y
      · subst heq
        rw [if_neg (not_not.mpr rfl), ih (by simpa using hlen)]
        simp
      · rw [if_pos heq]
        by_cases hlt : x < y
        · rw [if_pos hlt]
          simp [hlt]
        · rw [if_neg hlt]
          constructor
          · intro h
            exact absurd h (by decide)
          · rintro (h | ⟨h, _⟩) <;> omega

theorem compareRanks_cons_of_lt {x y : Int} {xs ys : List Int} (h : x < y) :
    compareRanks (x :: xs) (y :: ys) = -1 := by
  rw [compareRanks, if_pos (ne_of_lt h), if_pos h]

theorem compareRanks_cons_of_gt {x y : Int} {xs ys : List Int} (h : y < x) :
    compareRanks (x :: xs) (y :: ys) = 1 := by
  rw [compareRanks, if_pos (ne_of_gt h), if_neg (not_lt.mpr (le_of_lt h))]

theorem compareRanks_cons_self {x y : Int} {xs ys : List Int} (h : x = y) :
    compareRanks (x :: xs) (y :: ys) = compareRanks xs ys := by
  rw [compareRanks, if_neg (not_not.mpr h)]

theorem criterion_fst {c : Prop} [Decidable c] {σ : Type v} {v x y : Int} {step : σ}
    {rest : Int × σ} {xs ys : List Int} (hc : c ↔ x ≠ y) (hv : c → v = if x < y then -1 else 1)
    (hrest : ¬ c → rest.1 = compareRanks xs ys) :
    (if c then (v, step) else rest).1 = compareRanks (x :: xs) (y :: ys) := by
  rw [compareRanks]
  by_cases h : c
  · rw [if_pos h, if_pos (hc.mp h)]
    exact hv h
  · rw [if_neg h, if_neg fun hne => h (hc.mpr hne)]
    exact hrest h

end Preference
