/-
Addresses and prefixes read back what they are written as: the first of the longest runs of
zero groups of an IPv6 address is left out, or it ends in a dotted quad.
-/
import Mathlib.Data.List.Induction
import Packets.Lib.Commuting
import Packets.Lib.Mapped
import Packets.Rib.Address

namespace Packets

theorem decimal?_toDigits (n : Nat) : decimal? (Nat.toDigits 10 n) = some n := by
  have hall : (Nat.toDigits 10 n).all Char.isDigit = true := by
    rw [List.all_eq_true]
    intro c hc
    exact Nat.isDigit_of_mem_toDigits (by decide) (by decide) hc
  have hvalue := Nat.ofDigitChars_ten_toDigits (n := n)
  rw [Nat.ofDigitChars_eq_foldl] at hvalue
  rw [decimal?, if_pos ⟨Nat.toDigits_ne_nil, hall⟩]
  simp only [Nat.mul_comm _ 10, hvalue]

theorem octet?_toDigits (b : UInt8) : octet? (Nat.toDigits 10 b.toNat) = some b := by
  have hall : ∀ n < 256, octet? (Nat.toDigits 10 n) = some (UInt8.ofNat n) := by decide +kernel
  rw [hall b.toNat b.toNat_lt, UInt8.ofNat_toNat]

theorem hexDigit?_digitChar {d : Nat} (h : d < 16) : hexDigit? d.digitChar = some d := by
  have hall : ∀ d < 16, hexDigit? (Nat.digitChar d) = some d := by decide
  exact hall d h

/-- The digits of a number, read one by one. -/
theorem mapM_hexDigit? (n : Nat) :
    ∃ digits, (Nat.toDigits 16 n).mapM hexDigit? = some digits ∧
      digits.foldl (fun n d => n * 16 + d) 0 = n := by
  induction n using Nat.strongRecOn with
  | ind n ih =>
    rw [Nat.toDigits_eq_if (by decide)]
    by_cases hn : n < 16
    · rw [if_pos hn]
      refine ⟨[n], ?_, by simp⟩
      simp [hexDigit?_digitChar hn]
    · obtain ⟨digits, hdigits, hvalue⟩ := ih (n / 16) (by omega)
      have hlast : hexDigit? (n % 16).digitChar = some (n % 16) :=
        hexDigit?_digitChar (Nat.mod_lt n (by decide))
      rw [if_neg hn]
      refine ⟨digits ++ [n % 16], ?_, ?_⟩
      · simp [List.mapM_append, hdigits, hlast]
      · rw [List.foldl_append, hvalue]
        simp only [List.foldl_cons, List.foldl_nil]
        omega

theorem hexGroup?_toDigits {n : Nat} (h : n < 65536) :
    hexGroup? (Nat.toDigits 16 n) = some (BigEndian.ofNat 2 n) := by
  obtain ⟨digits, hdigits, hvalue⟩ := mapM_hexDigit? n
  have hshort : (Nat.toDigits 16 n).length ≤ 4 :=
    (Nat.length_toDigits_le_iff (by decide) (by decide)).mpr h
  rw [hexGroup?, if_pos ⟨Nat.length_toDigits_pos, hshort⟩, hdigits, Option.map_some, hvalue]

theorem isSome_hexDigit? {n : Nat} {c : Char} (hc : c ∈ Nat.toDigits 16 n) :
    (hexDigit? c).isSome = true := by
  obtain ⟨digits, hdigits, -⟩ := mapM_hexDigit? n
  exact Mapped.isSome_of_mem hdigits hc

theorem notMem_toDigits {c : Char} (hc : hexDigit? c = none) (n : Nat) : c ∉ Nat.toDigits 16 n := by
  intro hmem
  have hsome := isSome_hexDigit? hmem
  rw [hc] at hsome
  exact absurd hsome (by simp)

theorem length_inetPton4 {text : List Char} {addr : Bytes} (h : inetPton4 text = some addr) :
    addr.length = 4 := by
  rw [inetPton4] at h
  split at h
  · rename_i hparts
    rw [← (Mapped.mapM_eq_some_iff.mp h).length_eq]
    exact hparts
  · exact absurd h nofun

theorem toList_inetNtop4 (addr : Bytes) :
    (inetNtop4 addr).toList = ['.'].intercalate (addr.map fun b => Nat.toDigits 10 b.toNat) := by
  have hdigits : ∀ b : UInt8, (toString b.toNat).toList = Nat.toDigits 10 b.toNat :=
    fun b => Nat.toList_repr
  rw [inetNtop4, String.toList_intercalate, List.map_map]
  simp only [Function.comp_def, hdigits]
  rfl

theorem mem_intercalate {α : Type} {sep : α} {words : List (List α)} {c : α}
    (h : c ∈ [sep].intercalate words) : c = sep ∨ ∃ w ∈ words, c ∈ w := by
  induction words with
  | nil => simp at h
  | cons w words ih =>
    cases words with
    | nil =>
      rw [List.intercalate_singleton] at h
      exact Or.inr ⟨w, List.mem_cons_self, h⟩
    | cons v words =>
      rw [List.intercalate_cons_cons, List.mem_append, List.mem_append, List.mem_singleton] at h
      rcases h with (h | rfl) | h
      · exact Or.inr ⟨w, List.mem_cons_self, h⟩
      · exact Or.inl rfl
      · rcases ih h with rfl | ⟨u, hu, hc⟩
        · exact Or.inl rfl
        · exact Or.inr ⟨u, List.mem_cons_of_mem _ hu, hc⟩

theorem mem_inetNtop4 {addr : Bytes} {c : Char} (h : c ∈ (inetNtop4 addr).toList) :
    c = '.' ∨ c.isDigit = true := by
  rw [toList_inetNtop4] at h
  rcases mem_intercalate h with rfl | ⟨w, hw, hc⟩
  · exact Or.inl rfl
  · obtain ⟨b, -, rfl⟩ := List.mem_map.mp hw
    exact Or.inr (Nat.isDigit_of_mem_toDigits (by decide) (by decide) hc)

theorem inetPton4_inetNtop4 {addr : Bytes} (h : addr.length = 4) :
    inetPton4 (inetNtop4 addr).toList = some addr := by
  have hne : addr.map (fun b => Nat.toDigits 10 b.toNat) ≠ [] := by
    intro hnil
    rw [List.map_eq_nil_iff] at hnil
    rw [hnil] at h
    exact absurd h (by decide)
  have hdots : ∀ w ∈ addr.map (fun b => Nat.toDigits 10 b.toNat), '.' ∉ w := by
    intro w hw hc
    obtain ⟨b, -, rfl⟩ := List.mem_map.mp hw
    have hdigit := Nat.isDigit_of_mem_toDigits (by decide) (by decide) hc
    exact absurd hdigit (by decide)
  have hoctets : (addr.map fun b => Nat.toDigits 10 b.toNat).mapM octet? = some addr := by
    rw [List.mapM_map]
    have heach : ∀ b ∈ addr, octet? (Nat.toDigits 10 b.toNat) = pure b :=
      fun b _ => octet?_toDigits b
    have hall := CommutingMonad.mapM_of_pure heach
    rw [List.map_id'] at hall
    exact hall
  rw [inetPton4, toList_inetNtop4, List.splitOn_intercalate '.' hdots hne]
  simp only [List.length_map, h, if_pos, hoctets]

/-- The bytes of groups. -/
def groupBytes (groups : List Nat) : Bytes := groups.flatMap (BigEndian.ofNat 2)

theorem length_groupBytes (groups : List Nat) : (groupBytes groups).length = 2 * groups.length := by
  induction groups with
  | nil => rfl
  | cons n groups ih =>
    rw [groupBytes, List.flatMap_cons, List.length_append, BigEndian.length_ofNat,
      List.length_cons, ← groupBytes, ih]
    omega

theorem groupBytes_zeros (n : Nat) :
    groupBytes (List.replicate n 0) = List.replicate (2 * n) 0 := by
  induction n with
  | zero => rfl
  | succ n ih =>
    have hzero : BigEndian.ofNat 2 0 = [0, 0] := by decide
    rw [List.replicate_succ, groupBytes, List.flatMap_cons, ← groupBytes, ih, hzero,
      Nat.mul_succ, List.replicate_succ, List.replicate_succ]
    rfl

/-- An address is the bytes of its groups. -/
theorem groupBytes_addrGroups {n : Nat} {addr : Bytes} (h : addr.length = 2 * n) :
    groupBytes (addrGroups addr) = addr ∧ (addrGroups addr).length = n ∧
      ∀ g ∈ addrGroups addr, g < 65536 := by
  induction n generalizing addr with
  | zero =>
    rw [List.length_eq_zero_iff.mp h]
    exact ⟨rfl, rfl, by simp [addrGroups]⟩
  | succ n ih =>
    match addr, h with
    | high :: low :: rest, h =>
      have hrest : rest.length = 2 * n := by simpa [Nat.mul_succ] using h
      obtain ⟨hbytes, hlen, hlt⟩ := ih hrest
      have hpair : BigEndian.ofNat 2 (high.toNat * 256 + low.toNat) = [high, low] := by
        have hnum : BigEndian.toNat [high, low] = high.toNat * 256 + low.toNat := by
          simp [BigEndian.toNat]
        rw [← hnum]
        exact BigEndian.ofNat_toNat rfl
      refine ⟨?_, ?_, ?_⟩
      · rw [addrGroups, groupBytes, List.flatMap_cons, ← groupBytes, hbytes, hpair]
        rfl
      · rw [addrGroups, List.length_cons, hlen]
      · rw [addrGroups]
        apply List.forall_mem_cons.mpr ⟨_, hlt⟩
        have hhigh := high.toNat_lt
        have hlow := low.toNat_lt
        omega

theorem toList_groupsText (groups : List Nat) :
    (groupsText groups).toList = [':'].intercalate (groups.map (Nat.toDigits 16)) := by
  rw [groupsText, String.toList_intercalate, List.map_map]
  simp only [Function.comp_def, String.toList_ofList]
  rfl

theorem hexGroups?_toDigits (dotted : Bool) {groups : List Nat} (h : ∀ g ∈ groups, g < 65536) :
    hexGroups? dotted (groups.map (Nat.toDigits 16)) = some (groupBytes groups) := by
  induction groups with
  | nil => rfl
  | cons g groups ih =>
    have hg := hexGroup?_toDigits (h g List.mem_cons_self)
    have hrest := ih fun k hk => h k (List.mem_cons_of_mem _ hk)
    cases groups with
    | nil =>
      simp only [List.map_cons, List.map_nil, hexGroups?, hg]
      simp [groupBytes]
    | cons k groups =>
      simp only [List.map_cons] at hrest ⊢
      rw [hexGroups?, hg, hrest]
      · rfl
      · simp

theorem colon_notMem {groups : List Nat} : ∀ w ∈ groups.map (Nat.toDigits 16), ':' ∉ w := by
  intro w hw
  obtain ⟨g, -, rfl⟩ := List.mem_map.mp hw
  exact notMem_toDigits (by decide) g

theorem splitOn_groupsText {groups : List Nat} (h : groups ≠ []) :
    (groupsText groups).toList.splitOn ':' = groups.map (Nat.toDigits 16) := by
  rw [toList_groupsText]
  apply List.splitOn_intercalate ':' colon_notMem
  simpa using h

theorem hexSide?_groupsText (dotted : Bool) {groups : List Nat} (h : ∀ g ∈ groups, g < 65536) :
    hexSide? dotted (groupsText groups).toList = some (groupBytes groups) := by
  by_cases hnil : groups = []
  · subst hnil
    have hempty : (groupsText []).toList = [] := by
      rw [toList_groupsText]
      rfl
    rw [hexSide?, if_pos hempty]
    rfl
  · have hne : (groupsText groups).toList ≠ [] := by
      intro heq
      have hsplit := splitOn_groupsText hnil
      rw [heq] at hsplit
      obtain ⟨g, rest, rfl⟩ := List.exists_cons_of_ne_nil hnil
      simp only [List.splitOn_nil, List.map_cons, List.cons.injEq] at hsplit
      exact Nat.toDigits_ne_nil hsplit.1.symm
    rw [hexSide?, if_neg hne, splitOn_groupsText hnil]
    exact hexGroups?_toDigits dotted h

theorem splitGap_cons {c : Char} {rest : List Char} (h : c ≠ ':' ∨ rest.head? ≠ some ':') :
    splitGap (c :: rest) = (splitGap rest).map fun sides => (c :: sides.1, sides.2) := by
  rw [splitGap]
  rintro tail rfl rfl
  simp at h

theorem splitGap_word {w : List Char} (hw : ':' ∉ w) (text : List Char) :
    splitGap (w ++ text) = (splitGap text).map fun sides => (w ++ sides.1, sides.2) := by
  induction w with
  | nil => simp
  | cons c w ih =>
    have hc : c ≠ ':' := fun heq => hw (heq ▸ List.mem_cons_self)
    have hrest : ':' ∉ w := fun hmem => hw (List.mem_cons_of_mem _ hmem)
    rw [List.cons_append, splitGap_cons (Or.inl hc), ih hrest, Option.map_map]
    rfl

/-- There is no gap in groups, nor where they end. -/
theorem splitGap_words {words : List (List Char)} (hwords : ∀ w ∈ words, ':' ∉ w ∧ w ≠ [])
    (text : List Char) :
    splitGap ([':'].intercalate words ++ text) =
      (splitGap text).map fun sides => ([':'].intercalate words ++ sides.1, sides.2) := by
  induction words with
  | nil => simp
  | cons w words ih =>
    have hw := (hwords w List.mem_cons_self).1
    have hrest := ih fun u hu => hwords u (List.mem_cons_of_mem _ hu)
    cases words with
    | nil =>
      rw [List.intercalate_singleton]
      exact splitGap_word hw text
    | cons u words =>
      obtain ⟨hu, hne⟩ := hwords u (List.mem_cons_of_mem _ List.mem_cons_self)
      obtain ⟨c, tail, rfl⟩ := List.exists_cons_of_ne_nil hne
      have hc : c ≠ ':' := fun heq => hu (heq ▸ List.mem_cons_self)
      have hhead : ([':'].intercalate ((c :: tail) :: words) ++ text).head? ≠ some ':' := by
        cases words with
        | nil => simpa using hc
        | cons v words =>
          rw [List.intercalate_cons_cons]
          simpa using hc
      rw [List.intercalate_cons_cons, List.append_assoc, List.append_assoc,
        splitGap_word hw, List.singleton_append, splitGap_cons (Or.inr hhead), hrest]
      simp only [Option.map_map]
      congr 1
      funext sides
      simp

theorem words_toDigits {groups : List Nat} :
    ∀ w ∈ groups.map (Nat.toDigits 16), ':' ∉ w ∧ w ≠ [] := by
  intro w hw
  refine ⟨colon_notMem w hw, ?_⟩
  obtain ⟨g, -, rfl⟩ := List.mem_map.mp hw
  exact Nat.toDigits_ne_nil

theorem splitGap_groupsText (groups : List Nat) (text : List Char) :
    splitGap ((groupsText groups).toList ++ text) =
      (splitGap text).map fun sides => ((groupsText groups).toList ++ sides.1, sides.2) := by
  rw [toList_groupsText]
  exact splitGap_words words_toDigits text

/-- A run of zero groups is where it is said to be. -/
def IsRun (groups : List Nat) (run : Nat × Nat) : Prop :=
  groups.drop run.1 = List.replicate run.2 0 ++ groups.drop (run.1 + run.2)

theorem zeros_append (groups : List Nat) :
    groups = List.replicate (groups.takeWhile (· = 0)).length 0 ++
      groups.drop (groups.takeWhile (· = 0)).length := by
  induction groups with
  | nil => rfl
  | cons g groups ih =>
    by_cases hg : g = 0
    · subst hg
      simpa [List.replicate_succ] using ih
    · simp [hg]

theorem isRun_takeWhile (groups : List Nat) (start : Nat) :
    IsRun groups (start, ((groups.drop start).takeWhile (· = 0)).length) := by
  rw [IsRun, ← List.drop_drop]
  exact zeros_append _

theorem zeroRun_isRun (groups : List Nat) : IsRun groups (zeroRun groups) := by
  have hfold : ∀ (starts : List Nat) (best : Nat × Nat), IsRun groups best →
      IsRun groups (starts.foldl (fun best start =>
        let len := ((groups.drop start).takeWhile (· = 0)).length
        if best.2 < len then (start, len) else best) best) := by
    intro starts
    induction starts with
    | nil => exact fun _ h => h
    | cons start starts ih =>
      intro best h
      rw [List.foldl_cons]
      apply ih
      dsimp only
      split
      · exact isRun_takeWhile groups start
      · exact h
  exact hfold _ _ rfl

theorem addr_eq_of_isRun {groups : List Nat} {run : Nat × Nat} (h : IsRun groups run) :
    groupBytes groups = groupBytes (groups.take run.1) ++
      (List.replicate (2 * run.2) 0 ++ groupBytes (groups.drop (run.1 + run.2))) := by
  have hsplit : groups = groups.take run.1 ++
      (List.replicate run.2 0 ++ groups.drop (run.1 + run.2)) := by
    rw [← h, List.take_append_drop]
  conv_lhs => rw [hsplit]
  rw [groupBytes, List.flatMap_append, List.flatMap_append]
  change _ ++ (groupBytes _ ++ _) = _
  rw [groupBytes_zeros]
  rfl

theorem length_inetPton6 {text : List Char} {addr : Bytes} (h : inetPton6 text = some addr) :
    addr.length = 16 := by
  rw [inetPton6] at h
  split at h
  · obtain ⟨-, hlength⟩ := Option.filter_eq_some_iff.mp h
    exact of_decide_eq_true hlength
  · simp only [Option.bind_eq_bind, Option.bind_eq_some_iff, Option.ite_none_right_eq_some,
      Option.some.injEq] at h
    obtain ⟨head, -, tail, -, hroom, rfl⟩ := h
    simp only [List.length_append, List.length_replicate]
    omega

/-- A quad stands for two groups at the end. -/
theorem hexGroups?_inetNtop4 {addr : Bytes} (h : addr.length = 4) :
    (inetNtop4 addr).toList ≠ [] ∧ hexGroups? true [(inetNtop4 addr).toList] = some addr ∧
      (inetNtop4 addr).toList.splitOn ':' = [(inetNtop4 addr).toList] := by
  have hquad := inetPton4_inetNtop4 h
  refine ⟨?_, ?_, ?_⟩
  · intro hempty
    have hnone : inetPton4 [] = none := by decide
    rw [hempty, hnone] at hquad
    exact absurd hquad (by simp)
  · have hdot : '.' ∈ (inetNtop4 addr).toList := by
      by_contra hnone
      rw [inetPton4, List.splitOn_eq_singleton hnone] at hquad
      exact absurd hquad (by simp)
    have hgroup : hexGroup? (inetNtop4 addr).toList = none := by
      rw [hexGroup?]
      split
      · rw [Option.map_eq_none_iff]
        apply Option.eq_none_iff_forall_ne_some.mpr
        intro digits hdigits
        exact absurd (Mapped.isSome_of_mem hdigits hdot) (by decide)
      · rfl
    rw [hexGroups?, hgroup]
    exact hquad
  · apply List.splitOn_eq_singleton
    intro hc
    rcases mem_inetNtop4 hc with heq | hdigit
    · exact absurd heq (by decide)
    · exact absurd hdigit (by decide)

theorem inetPton6_of_gap {text before after : List Char} {head tail : Bytes}
    (hgap : splitGap text = some (before, after)) (hhead : hexSide? false before = some head)
    (htail : hexSide? true after = some tail) {n : Nat} (hn : 0 < n)
    (hlen : head.length + n + tail.length = 16) :
    inetPton6 text = some (head ++ (List.replicate n 0 ++ tail)) := by
  have hroom : head.length + tail.length < 16 := by omega
  have hmissing : 16 - head.length - tail.length = n := by omega
  simp only [inetPton6, hgap, hhead, htail, Option.bind_eq_bind, Option.bind_some,
    if_pos hroom, hmissing, List.append_assoc]

theorem inetPton6_inetNtop6 {addr : Bytes} (h : addr.length = 16) :
    inetPton6 (inetNtop6 addr).toList = some addr := by
  obtain ⟨hbytes, hcount, hlt⟩ := groupBytes_addrGroups (n := 8) h
  have hrun := zeroRun_isRun (addrGroups addr)
  have hsplit := addr_eq_of_isRun hrun
  rw [hbytes] at hsplit
  have hquad : (addr.drop 12).length = 4 := by rw [List.length_drop, h]
  rw [inetNtop6]
  generalize haddr : addrGroups addr = groups at hcount hlt hrun hsplit
  generalize zeroRun groups = run at hrun hsplit
  obtain ⟨start, len⟩ := run
  dsimp only at hsplit hrun ⊢
  have hbefore : ∀ g ∈ groups.take start, g < 65536 := fun g hg => hlt g (List.mem_of_mem_take hg)
  have hafter : ∀ g ∈ groups.drop (start + len), g < 65536 := fun g hg =>
    hlt g (List.mem_of_mem_drop hg)
  by_cases hshort : len < 2
  · rw [if_pos hshort]
    have hnone : splitGap (groupsText groups).toList = none := by
      have hgap := splitGap_groupsText groups []
      rw [List.append_nil] at hgap
      rw [hgap]
      rfl
    have hne : groups ≠ [] := by
      intro hnil
      rw [hnil] at hcount
      exact absurd hcount (by decide)
    have hall := hexGroups?_toDigits true hlt
    rw [← haddr, hbytes] at hall
    rw [inetPton6, hnone, splitOn_groupsText hne, ← haddr]
    simp only [hall, h, Option.filter_some, decide_true, if_true]
  · rw [if_neg hshort]
    have hfit : start + len ≤ 8 := by
      have hlen := congrArg List.length hrun
      simp only [List.length_drop, List.length_append, List.length_replicate, hcount] at hlen
      omega
    obtain ⟨hquadne, hquadgroups, hquadsplit⟩ := hexGroups?_inetNtop4 hquad
    by_cases hsix : start = 0 ∧ len = 6
    · obtain ⟨rfl, rfl⟩ := hsix
      have htail : hexSide? true (inetNtop4 (addr.drop 12)).toList = some (addr.drop 12) := by
        rw [hexSide?, if_neg hquadne, hquadsplit, hquadgroups]
      have hgap : splitGap ("::" ++ inetNtop4 (addr.drop 12)).toList =
          some ([], (inetNtop4 (addr.drop 12)).toList) := by
        rw [String.toList_append]
        rfl
      rw [if_pos ⟨rfl, rfl⟩, inetPton6_of_gap hgap rfl htail (n := 12) (by decide)
        (by rw [hquad]; rfl)]
      have hdrop : addr.drop 12 = groupBytes (groups.drop 6) := by
        conv_lhs => rw [hsplit]
        rfl
      rw [hdrop]
      exact congrArg some hsplit.symm
    · rw [if_neg hsix]
      by_cases hfive : start = 0 ∧ len = 5 ∧ groups[5]? = some 0xffff
      · obtain ⟨rfl, rfl, hmapped⟩ := hfive
        have hffff : "ffff".toList = ['f', 'f', 'f', 'f'] := rfl
        have hside : (['f', 'f', 'f', 'f'] ++ ':' :: (inetNtop4 (addr.drop 12)).toList).splitOn
            ':' = [['f', 'f', 'f', 'f'], (inetNtop4 (addr.drop 12)).toList] := by
          rw [List.splitOn_append_cons_self_of_not_mem (by decide), hquadsplit]
        have htail : hexSide? true (['f', 'f', 'f', 'f'] ++
            ':' :: (inetNtop4 (addr.drop 12)).toList) = some ([255, 255] ++ addr.drop 12) := by
          have hgroup : hexGroup? ['f', 'f', 'f', 'f'] = some [255, 255] := by decide
          rw [hexSide?, if_neg (by simp), hside, hexGroups?, hgroup, hquadgroups]
          · rfl
          · simp
        have hgap : splitGap ("::ffff:" ++ inetNtop4 (addr.drop 12)).toList =
            some ([], ['f', 'f', 'f', 'f'] ++ ':' :: (inetNtop4 (addr.drop 12)).toList) := by
          rw [String.toList_append]
          rfl
        rw [if_pos ⟨rfl, rfl, hmapped⟩, inetPton6_of_gap hgap rfl htail (n := 10) (by decide)
          (by rw [List.length_append, hquad]; rfl)]
        have hdrop : groups.drop 5 = 0xffff :: groups.drop 6 := by
          obtain ⟨hlt5, hget⟩ := List.getElem?_eq_some_iff.mp hmapped
          rw [List.drop_eq_getElem_cons hlt5, hget]
        have htwo : BigEndian.ofNat 2 0xffff = [255, 255] := by decide
        have hrest : groupBytes (groups.drop 5) = [255, 255] ++ groupBytes (groups.drop 6) := by
          rw [hdrop, groupBytes, List.flatMap_cons, htwo]
          rfl
        have hlast : addr.drop 12 = groupBytes (groups.drop 6) := by
          conv_lhs => rw [hsplit, hrest]
          rfl
        rw [hlast, ← hrest]
        exact congrArg some hsplit.symm
      · rw [if_neg hfive]
        have hgap : splitGap (groupsText (groups.take start) ++ "::" ++
            groupsText (groups.drop (start + len))).toList =
              some ((groupsText (groups.take start)).toList,
                (groupsText (groups.drop (start + len))).toList) := by
          have hcolons : "::".toList = [':', ':'] := rfl
          rw [String.toList_append, String.toList_append, List.append_assoc,
            splitGap_groupsText, hcolons]
          simp [splitGap]
        have hlen : (groupBytes (groups.take start)).length + 2 * len +
            (groupBytes (groups.drop (start + len))).length = 16 := by
          rw [length_groupBytes, length_groupBytes, List.length_take, List.length_drop, hcount]
          omega
        rw [inetPton6_of_gap hgap (hexSide?_groupsText false hbefore)
          (hexSide?_groupsText true hafter) (by omega) hlen]
        exact congrArg some hsplit.symm

theorem Prefix.new_self (p : Prefix) : Prefix.new p.afi p.plen p.addr = some p := by
  rw [Prefix.new, dif_pos ⟨p.known, p.plen_le, p.length_addr⟩]
  obtain ⟨afi, plen, addr, _, _, _, hmasked⟩ := p
  simp only [hmasked]

theorem slash_notMem_inetNtop4 (addr : Bytes) : '/' ∉ (inetNtop4 addr).toList := by
  intro h
  rcases mem_inetNtop4 h with heq | hdigit
  · exact absurd heq (by decide)
  · exact absurd hdigit (by decide)

theorem slash_notMem_groupsText (groups : List Nat) : '/' ∉ (groupsText groups).toList := by
  rw [toList_groupsText]
  intro h
  rcases mem_intercalate h with heq | ⟨w, hw, hc⟩
  · exact absurd heq (by decide)
  · obtain ⟨g, -, rfl⟩ := List.mem_map.mp hw
    exact notMem_toDigits (by decide) g hc

theorem slash_notMem_inetNtop6 (addr : Bytes) : '/' ∉ (inetNtop6 addr).toList := by
  have hcolons : '/' ∉ "::".toList := by decide
  have hmapped : '/' ∉ "::ffff:".toList := by decide
  have hquad := slash_notMem_inetNtop4 (addr.drop 12)
  rw [inetNtop6]
  dsimp only
  split_ifs <;>
    simp only [String.toList_append, List.mem_append, slash_notMem_groupsText, hcolons, hmapped,
      hquad, or_self, not_false_eq_true]

/-- An IPv6 address is told from an IPv4 one by its colons. -/
theorem colon_mem_inetNtop6 {addr : Bytes} (h : addr.length = 16) :
    ':' ∈ (inetNtop6 addr).toList := by
  have hcolons : ':' ∈ "::".toList := by decide
  have hmapped : ':' ∈ "::ffff:".toList := by decide
  rw [inetNtop6]
  dsimp only
  split_ifs
  · have hcount := (groupBytes_addrGroups (n := 8) h).2.1
    match hgroups : addrGroups addr with
    | [] => simp [hgroups] at hcount
    | [_] => simp [hgroups] at hcount
    | g :: k :: groups =>
      rw [toList_groupsText, List.map_cons, List.map_cons, List.intercalate_cons_cons]
      simp
  all_goals simp only [String.toList_append, List.mem_append, hcolons, hmapped, true_or, or_true]

theorem colon_notMem_inetNtop4 (addr : Bytes) : ':' ∉ (inetNtop4 addr).toList := by
  intro h
  rcases mem_inetNtop4 h with heq | hdigit
  · exact absurd heq (by decide)
  · exact absurd hdigit (by decide)

/-- A prefix is read back as itself. -/
theorem parsePrefix_toStr (p : Prefix) : parsePrefix p.toStr = some p := by
  have hchars : p.toStr.toList = p.addrText.toList ++ '/' :: Nat.toDigits 10 p.plen := by
    have hplen : (toString p.plen).toList = Nat.toDigits 10 p.plen := Nat.toList_repr
    rw [Prefix.toStr, String.toList_append, String.toList_append, hplen, List.append_assoc]
    rfl
  have hread : ∀ afi addr, '/' ∉ p.addrText.toList →
      (if ':' ∈ p.addrText.toList then AFI_IP6 else AFI_IP) = afi →
      (if ':' ∈ p.addrText.toList then inetPton6 p.addrText.toList
        else inetPton4 p.addrText.toList) = some addr →
      parsePrefix p.toStr = Prefix.new afi p.plen addr := by
    intro afi addr hslash hafi haddr
    have htake : p.toStr.toList.takeWhile (· ≠ '/') = p.addrText.toList := by
      rw [hchars, List.takeWhile_append_of_pos]
      · simp
      · intro c hc
        exact decide_eq_true fun heq => hslash (heq ▸ hc)
    have hmem : '/' ∈ p.toStr.toList := by
      rw [hchars]
      simp
    have hdrop : p.toStr.toList.drop (p.addrText.toList.length + 1) = Nat.toDigits 10 p.plen := by
      rw [hchars, ← List.drop_drop, List.drop_left]
      rfl
    rw [parsePrefix]
    simp only [htake, hafi, haddr, if_pos hmem, hdrop, decimal?_toDigits]
  by_cases hfour : p.afi = AFI_IP
  · have hlen : p.addr.length = 4 := by
      rw [p.length_addr, hfour]
      rfl
    have htext : p.addrText = inetNtop4 p.addr := by rw [Prefix.addrText, if_pos hfour]
    rw [htext] at hread
    have hcolon := colon_notMem_inetNtop4 p.addr
    rw [hread p.afi p.addr (slash_notMem_inetNtop4 p.addr) (by rw [if_neg hcolon, hfour])
      (by rw [if_neg hcolon]; exact inetPton4_inetNtop4 hlen)]
    exact p.new_self
  · have hsix : p.afi = AFI_IP6 := by
      by_contra hne
      apply p.known
      rw [pfxAddrLen, if_neg hfour, if_neg hne]
    have hlen : p.addr.length = 16 := by
      rw [p.length_addr, hsix]
      rfl
    have htext : p.addrText = inetNtop6 p.addr := by rw [Prefix.addrText, if_neg hfour]
    rw [htext] at hread
    have hcolon := colon_mem_inetNtop6 hlen
    rw [hread p.afi p.addr (slash_notMem_inetNtop6 p.addr) (by rw [if_pos hcolon, hsix])
      (by rw [if_pos hcolon]; exact inetPton6_inetNtop6 hlen)]
    exact p.new_self

end Packets
