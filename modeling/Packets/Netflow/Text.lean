/-
Text in records: UTF-8 where what breaks off is replaced, with no zeros at the end.
-/
import Mathlib.Data.List.DropRight
import Packets.Lib.Utf8
import Packets.Netflow.Record

namespace Packets.Netflow

/-- The first character of some bytes, and what is left. -/
def utf8Char (b : UInt8) (rest : Bytes) : Char × Bytes :=
  if b < 0x80 then (Char.ofNat b.toNat, rest)
  else
    match utf8Lead b with
    | none => (Char.ofNat 0xfffd, rest)
    | some (n, point, low, high) =>
      (Char.ofNat ((utf8Rest n point low high rest).1.getD 0xfffd),
        (utf8Rest n point low high rest).2)

theorem decodeUtf8_cons (fuel : Nat) (b : UInt8) (rest : Bytes) :
    decodeUtf8 (fuel + 1) (b :: rest) =
      (utf8Char b rest).1 :: decodeUtf8 fuel (utf8Char b rest).2 := by
  rw [decodeUtf8, utf8Char]
  split
  · rfl
  · cases utf8Lead b <;> rfl

theorem utf8Rest_suffix (n point : Nat) (low high : UInt8) (s : Bytes) :
    ∃ front, s = front ++ (utf8Rest n point low high s).2 := by
  induction n generalizing point low high s with
  | zero => exact ⟨[], rfl⟩
  | succ n ih =>
    cases s with
    | nil => exact ⟨[], rfl⟩
    | cons b rest =>
      rw [utf8Rest]
      split
      · obtain ⟨front, hfront⟩ := ih (point * 64 + b.toNat % 64) 0x80 0xbf rest
        exact ⟨b :: front, by rw [List.cons_append, ← hfront]⟩
      · exact ⟨[], rfl⟩

theorem utf8Char_suffix (b : UInt8) (rest : Bytes) :
    ∃ front, rest = front ++ (utf8Char b rest).2 := by
  rw [utf8Char]
  split
  · exact ⟨[], rfl⟩
  · split
    · exact ⟨[], rfl⟩
    · exact utf8Rest_suffix _ _ _ _ _

theorem length_utf8Char_le (b : UInt8) (rest : Bytes) :
    (utf8Char b rest).2.length ≤ rest.length := by
  obtain ⟨front, hfront⟩ := utf8Char_suffix b rest
  have hlength := congrArg List.length hfront
  rw [List.length_append] at hlength
  omega

theorem decodeUtf8_fuel {n m : Nat} {s : Bytes} (hn : s.length ≤ n) (hm : s.length ≤ m) :
    decodeUtf8 n s = decodeUtf8 m s := by
  induction n generalizing m s with
  | zero =>
    rw [List.length_eq_zero_iff.mp (Nat.le_zero.mp hn)]
    cases m <;> rfl
  | succ n ih =>
    cases s with
    | nil => cases m <;> rfl
    | cons b rest =>
      cases m with
      | zero => simp at hm
      | succ m =>
        have hle := length_utf8Char_le b rest
        rw [List.length_cons] at hn hm
        rw [decodeUtf8_cons, decodeUtf8_cons, ih (m := m) (by omega) (by omega)]

/-- `decode('utf-8', 'replace')`, of all there is. -/
def decodeText (s : Bytes) : List Char := decodeUtf8 s.length s

theorem decodeText_cons (b : UInt8) (rest : Bytes) :
    decodeText (b :: rest) = (utf8Char b rest).1 :: decodeText (utf8Char b rest).2 := by
  rw [decodeText, List.length_cons, decodeUtf8_cons, decodeText,
    decodeUtf8_fuel (length_utf8Char_le b rest) (Nat.le_refl _)]

theorem utf8Rest_zeros (n point k : Nat) {low : UInt8} (hlow : 0x80 ≤ low) (high : UInt8)
    (s : Bytes) :
    utf8Rest n point low high (s ++ List.replicate k 0) =
      ((utf8Rest n point low high s).1, (utf8Rest n point low high s).2 ++ List.replicate k 0) := by
  induction n generalizing point low high s with
  | zero => rfl
  | succ n ih =>
    cases s with
    | nil =>
      cases k with
      | zero => rfl
      | succ k =>
        have hzero : ¬(low ≤ 0 ∧ (0 : UInt8) ≤ high) := by
          rintro ⟨hle, -⟩
          exact absurd (UInt8.le_trans hlow hle) (by decide)
        rw [List.nil_append, List.replicate_succ, utf8Rest, utf8Rest, if_neg hzero]
        rfl
    | cons b rest =>
      rw [List.cons_append, utf8Rest, utf8Rest]
      split
      · exact ih _ (by decide) _ rest
      · rfl

theorem low_of_utf8Lead {b : UInt8} {n point : Nat} {low high : UInt8}
    (h : utf8Lead b = some (n, point, low, high)) : 0x80 ≤ low := by
  simp only [utf8Lead] at h
  split_ifs at h <;> cases h <;> decide

theorem utf8Char_zeros (b : UInt8) (rest : Bytes) (k : Nat) :
    utf8Char b (rest ++ List.replicate k 0) =
      ((utf8Char b rest).1, (utf8Char b rest).2 ++ List.replicate k 0) := by
  rw [utf8Char, utf8Char]
  split
  · rfl
  · cases hlead : utf8Lead b with
    | none => rfl
    | some lead =>
      obtain ⟨n, point, low, high⟩ := lead
      simp only [utf8Rest_zeros n point k (low_of_utf8Lead hlead)]

theorem decodeText_zeros (k : Nat) : decodeText (List.replicate k 0) = List.replicate k '\x00' := by
  induction k with
  | zero => rfl
  | succ k ih =>
    rw [List.replicate_succ, decodeText_cons]
    exact congrArg _ ih

theorem decodeText_append_zeros (s : Bytes) (k : Nat) :
    decodeText (s ++ List.replicate k 0) = decodeText s ++ List.replicate k '\x00' := by
  induction hn : s.length using Nat.strongRecOn generalizing s with
  | ind n ih =>
    cases s with
    | nil => exact decodeText_zeros k
    | cons b rest =>
      have hle := length_utf8Char_le b rest
      rw [List.cons_append, decodeText_cons, decodeText_cons, utf8Char_zeros]
      rw [ih _ (by rw [← hn, List.length_cons]; omega) _ rfl]
      rfl

/-- The numbers some continuation bytes can spell. -/
theorem utf8Rest_bounds {n point p : Nat} {s rest : Bytes}
    (h : utf8Rest n point 0x80 0xbf s = (some p, rest)) :
    point * 64 ^ n ≤ p ∧ p < (point + 1) * 64 ^ n := by
  induction n generalizing point s with
  | zero =>
    cases h
    simp
  | succ n ih =>
    cases s with
    | nil => cases h
    | cons b s =>
      rw [utf8Rest] at h
      split at h
      · obtain ⟨hlow, hhigh⟩ := ih h
        have hlt : b.toNat % 64 < 64 := Nat.mod_lt _ (by decide)
        constructor
        · calc point * 64 ^ (n + 1) = point * 64 * 64 ^ n := by
                rw [Nat.pow_succ, Nat.mul_comm (64 ^ n), Nat.mul_assoc]
            _ ≤ (point * 64 + b.toNat % 64) * 64 ^ n :=
                Nat.mul_le_mul_right _ (Nat.le_add_right _ _)
            _ ≤ p := hlow
        · calc p < (point * 64 + b.toNat % 64 + 1) * 64 ^ n := hhigh
            _ ≤ ((point + 1) * 64) * 64 ^ n := Nat.mul_le_mul_right _ (by omega)
            _ = (point + 1) * 64 ^ (n + 1) := by
                rw [Nat.pow_succ, Nat.mul_comm (64 ^ n), Nat.mul_assoc]
      · cases h

theorem utf8Rest_first {n point p : Nat} {low high : UInt8} {s rest : Bytes}
    (h : utf8Rest (n + 1) point low high s = (some p, rest)) :
    ∃ b : UInt8, low ≤ b ∧ b ≤ high ∧ (point * 64 + b.toNat % 64) * 64 ^ n ≤ p ∧
      p < (point * 64 + b.toNat % 64 + 1) * 64 ^ n := by
  cases s with
  | nil => cases h
  | cons b s =>
    rw [utf8Rest] at h
    split at h
    next hb => exact ⟨b, hb.1, hb.2, utf8Rest_bounds h⟩
    next => cases h

/-- The sequences there are: how many bytes follow, what the lead byte counts for, and the range
of the first byte behind it. -/
def Sequence (lead : Nat × Nat × UInt8 × UInt8) : Prop :=
  let (n, point, low, high) := lead
  (n = 1 ∧ 2 ≤ point ∧ point < 32 ∧ low.toNat = 0x80 ∧ high.toNat = 0xbf) ∨
  (n = 2 ∧ point = 0 ∧ low.toNat = 0xa0 ∧ high.toNat = 0xbf) ∨
  (n = 2 ∧ point = 13 ∧ low.toNat = 0x80 ∧ high.toNat = 0x9f) ∨
  (n = 2 ∧ 1 ≤ point ∧ point < 16 ∧ point ≠ 13 ∧ low.toNat = 0x80 ∧ high.toNat = 0xbf) ∨
  (n = 3 ∧ point = 0 ∧ low.toNat = 0x90 ∧ high.toNat = 0xbf) ∨
  (n = 3 ∧ 1 ≤ point ∧ point < 4 ∧ low.toNat = 0x80 ∧ high.toNat = 0xbf) ∨
  (n = 3 ∧ point = 4 ∧ low.toNat = 0x80 ∧ high.toNat = 0x8f)

instance (lead : Nat × Nat × UInt8 × UInt8) : Decidable (Sequence lead) := by
  unfold Sequence
  infer_instance

theorem sequence_of_utf8Lead {b : UInt8} {lead : Nat × Nat × UInt8 × UInt8}
    (h : utf8Lead b = some lead) : Sequence lead := by
  have hall : ∀ k < 256, (utf8Lead (UInt8.ofNat k)).all (decide <| Sequence ·) := by decide +kernel
  have hb := hall b.toNat b.toNat_lt
  rw [UInt8.ofNat_toNat, h] at hb
  simpa using hb

/-- What a sequence spells is a character, and no ASCII one. -/
theorem point_of_utf8Lead {b : UInt8} {n point p : Nat} {low high : UInt8} {s rest : Bytes}
    (hlead : utf8Lead b = some (n, point, low, high))
    (h : utf8Rest n point low high s = (some p, rest)) : p.isValidChar ∧ 0x80 ≤ p := by
  have hfirst : ∀ {n : Nat}, utf8Rest (n + 1) point low high s = (some p, rest) →
      ∃ c, low.toNat ≤ c ∧ c ≤ high.toNat ∧
        (point * 64 + c % 64) * 64 ^ n ≤ p ∧ p < (point * 64 + c % 64 + 1) * 64 ^ n := by
    intro n h
    obtain ⟨c, hlow, hhigh, hpoint⟩ := utf8Rest_first h
    exact ⟨c.toNat, UInt8.le_iff_toNat_le.mp hlow, UInt8.le_iff_toNat_le.mp hhigh, hpoint⟩
  rw [Nat.isValidChar]
  rcases sequence_of_utf8Lead hlead with ⟨hn, hp⟩ | ⟨hn, hp⟩ | ⟨hn, hp⟩ | ⟨hn, hp⟩ | ⟨hn, hp⟩ |
    ⟨hn, hp⟩ | ⟨hn, hp⟩
  all_goals
    obtain ⟨c, hlow, hhigh, hle, hlt⟩ := hfirst (hn ▸ h)
    omega

theorem ofNat_ne_nul {n : Nat} (hvalid : n.isValidChar) (hn : n ≠ 0) : Char.ofNat n ≠ '\x00' := by
  intro heq
  have hvalue := congrArg Char.toNat heq
  rw [Char.ofNat, dif_pos hvalid] at hvalue
  exact hn hvalue

/-- Only a zero byte is a zero character. -/
theorem utf8Char_ne_nul {b : UInt8} (hb : b ≠ 0) (rest : Bytes) : (utf8Char b rest).1 ≠ '\x00' := by
  have hpos : b.toNat ≠ 0 := fun h => hb (UInt8.toNat_inj.mp h)
  rw [utf8Char]
  split
  next hsmall =>
    have hlt : b.toNat < 128 := UInt8.lt_iff_toNat_lt.mp hsmall
    exact ofNat_ne_nul (Or.inl (by omega)) hpos
  next =>
    cases hlead : utf8Lead b with
    | none => exact show Char.ofNat 0xfffd ≠ '\x00' by decide
    | some lead =>
      obtain ⟨n, point, low, high⟩ := lead
      dsimp only
      cases hread : utf8Rest n point low high rest with
      | mk read left =>
        cases read with
        | none => exact show Char.ofNat 0xfffd ≠ '\x00' by decide
        | some p =>
          obtain ⟨hvalid, hlarge⟩ := point_of_utf8Lead hlead hread
          have hpoint : p ≠ 0 := by omega
          exact ofNat_ne_nul hvalid hpoint

/-- Bytes that do not end in a zero are a text that does not. -/
theorem getLast?_decodeText {s : Bytes} (h : s.getLast? ≠ some 0) :
    (decodeText s).getLast? ≠ some '\x00' := by
  induction hn : s.length using Nat.strongRecOn generalizing s with
  | ind n ih =>
    cases s with
    | nil => simp [decodeText, decodeUtf8]
    | cons b rest =>
      rw [decodeText_cons]
      obtain ⟨front, hfront⟩ := utf8Char_suffix b rest
      by_cases hleft : (utf8Char b rest).2 = []
      · rw [hleft]
        show some (utf8Char b rest).1 ≠ some '\x00'
        intro heq
        rw [hleft, List.append_nil] at hfront
        by_cases hb : b = 0
        · -- A zero stands alone, and then it is the last byte.
          have hrest : rest = [] := by rw [hb, utf8Char] at hleft; exact hleft
          rw [hb, hrest] at h
          exact h rfl
        · exact utf8Char_ne_nul hb rest (Option.some.inj heq)
      · have hdecoded : decodeText (utf8Char b rest).2 ≠ [] := by
          obtain ⟨c, left, hcons⟩ := List.exists_cons_of_ne_nil hleft
          rw [hcons, decodeText_cons]
          exact List.cons_ne_nil _ _
        rw [List.getLast?_cons_of_ne_nil hdecoded]
        have hle := length_utf8Char_le b rest
        refine ih _ (by rw [← hn, List.length_cons]; omega) ?_ rfl
        have hrest : rest ≠ [] := by
          intro hnil
          rw [hnil] at hle hleft
          exact hleft (List.length_eq_zero_iff.mp (Nat.le_zero.mp hle))
        rw [List.getLast?_cons_of_ne_nil hrest, hfront, List.getLast?_append_of_ne_nil _ hleft] at h
        exact h

section Strip

variable {α : Type} [DecidableEq α] {a : α}

theorem getLast?_rdropWhile (l : List α) : (l.rdropWhile (· = a)).getLast? ≠ some a := by
  intro hlast
  obtain ⟨front, hfront⟩ := List.getLast?_eq_some_iff.mp hlast
  have hidem := List.rdropWhile_idempotent (fun x => decide (x = a)) l
  rw [hfront, List.rdropWhile_concat, if_pos (decide_eq_true rfl)] at hidem
  have hlength := congrArg List.length hidem
  have hle := (List.rdropWhile_prefix (fun x => decide (x = a)) (l := front)).length_le
  rw [List.length_append, List.length_singleton] at hlength
  omega

theorem rdropWhile_append_replicate (l : List α) :
    ∃ k, l = l.rdropWhile (· = a) ++ List.replicate k a := by
  refine ⟨(l.rtakeWhile (· = a)).length, ?_⟩
  have htake : l.rtakeWhile (· = a) = List.replicate (l.rtakeWhile (· = a)).length a :=
    List.eq_replicate_of_mem fun b hb => by simpa using List.mem_rtakeWhile_imp hb
  rw [← htake, List.rdropWhile_append_rtakeWhile]

theorem rdropWhile_of_getLast? {l : List α} (h : l.getLast? ≠ some a) (k : Nat) :
    (l ++ List.replicate k a).rdropWhile (· = a) = l := by
  induction k with
  | zero =>
    rw [List.replicate_zero, List.append_nil, List.rdropWhile_eq_self_iff]
    intro hne hlast
    rw [List.getLast?_eq_some_getLast hne] at h
    exact h (congrArg some (of_decide_eq_true hlast))
  | succ k ih =>
    rw [List.replicate_succ', ← List.append_assoc,
      List.rdropWhile_concat, if_pos (decide_eq_true rfl), ih]

end Strip

theorem decodeString_eq (s : Bytes) : decodeString s = decodeText (s.rdropWhile (· = 0)) := rfl

theorem decodeString_zeros {s : Bytes} (h : s.getLast? ≠ some 0) (k : Nat) :
    decodeString (s ++ List.replicate k 0) = decodeText s := by
  rw [decodeString_eq, rdropWhile_of_getLast? h]

theorem getLast?_decodeString (s : Bytes) : (decodeString s).getLast? ≠ some '\x00' :=
  getLast?_decodeText (getLast?_rdropWhile s)

theorem decodeString_eq_rstrip (s : Bytes) :
    decodeString s = (decodeText s).rdropWhile (· = '\x00') := by
  obtain ⟨k, hs⟩ := rdropWhile_append_replicate (a := 0) s
  have htext : decodeText s = decodeString s ++ List.replicate k '\x00' := by
    rw [decodeString_eq, ← decodeText_append_zeros, ← hs]
  rw [htext, rdropWhile_of_getLast? (getLast?_decodeString s)]

theorem utf8Lead_two {k : Nat} (hk : k < 0x1e) :
    utf8Lead (UInt8.ofNat (0xc2 + k)) = some (1, 2 + k, 0x80, 0xbf) := by
  have hall : ∀ k < 0x1e, utf8Lead (UInt8.ofNat (0xc2 + k)) = some (1, 2 + k, 0x80, 0xbf) := by
    decide +kernel
  exact hall k hk

theorem utf8Lead_three {k : Nat} (hk : k < 0x10) :
    utf8Lead (UInt8.ofNat (0xe0 + k)) =
      some (2, k, if k = 0 then 0xa0 else 0x80, if k = 13 then 0x9f else 0xbf) := by
  have hall : ∀ k < 0x10, utf8Lead (UInt8.ofNat (0xe0 + k)) =
      some (2, k, if k = 0 then 0xa0 else 0x80, if k = 13 then 0x9f else 0xbf) := by
    decide +kernel
  exact hall k hk

theorem utf8Lead_four {k : Nat} (hk : k < 5) :
    utf8Lead (UInt8.ofNat (0xf0 + k)) =
      some (3, k, if k = 0 then 0x90 else 0x80, if k = 4 then 0x8f else 0xbf) := by
  have hall : ∀ k < 5, utf8Lead (UInt8.ofNat (0xf0 + k)) =
      some (3, k, if k = 0 then 0x90 else 0x80, if k = 4 then 0x8f else 0xbf) := by
    decide +kernel
  exact hall k hk

theorem toNat_packed (x : UInt8) :
    (x &&& 0x3f ||| 0x80).toNat = 0x80 + x.toNat % 64 ∧
      (x &&& 0x1f ||| 0xc0).toNat = 0xc0 + x.toNat % 32 ∧
      (x &&& 0x0f ||| 0xe0).toNat = 0xe0 + x.toNat % 16 ∧
      (x &&& 0x07 ||| 0xf0).toNat = 0xf0 + x.toNat % 8 := by
  have hall : ∀ k < 256, (UInt8.ofNat k &&& 0x3f ||| 0x80).toNat = 0x80 + k % 64 ∧
      (UInt8.ofNat k &&& 0x1f ||| 0xc0).toNat = 0xc0 + k % 32 ∧
      (UInt8.ofNat k &&& 0x0f ||| 0xe0).toNat = 0xe0 + k % 16 ∧
      (UInt8.ofNat k &&& 0x07 ||| 0xf0).toNat = 0xf0 + k % 8 := by decide +kernel
  have h := hall x.toNat x.toNat_lt
  rwa [UInt8.ofNat_toNat] at h

theorem toNat_shifted (v k : UInt32) :
    (v >>> k).toUInt8.toNat = v.toNat / 2 ^ (k.toNat % 32) % 256 := by
  rw [UInt32.toNat_toUInt8, UInt32.toNat_shiftRight, Nat.shiftRight_eq_div_pow]

theorem utf8Rest_step {n point : Nat} {low high b : UInt8} (rest : Bytes)
    (hlow : low.toNat ≤ b.toNat) (hhigh : b.toNat ≤ high.toNat) :
    utf8Rest (n + 1) point low high (b :: rest) =
      utf8Rest n (point * 64 + b.toNat % 64) 0x80 0xbf rest := by
  rw [utf8Rest, if_pos ⟨UInt8.le_iff_toNat_le.mpr hlow, UInt8.le_iff_toNat_le.mpr hhigh⟩]

/-- The first byte of an encoding, where a byte is known by its number. -/
theorem utf8Char_lead {b : UInt8} {m : Nat} (hb : b.toNat = m) (hm : 0x80 ≤ m) {n point : Nat}
    {low high : UInt8} (hlead : utf8Lead (UInt8.ofNat m) = some (n, point, low, high))
    {rest left : Bytes} {c : Char} (hread : utf8Rest n point low high rest = (some c.toNat, left)) :
    utf8Char b rest = (c, left) := by
  have heq : b = UInt8.ofNat m := by rw [← hb, UInt8.ofNat_toNat]
  have hlarge : ¬ b < 0x80 := by
    rw [UInt8.lt_iff_toNat_lt, hb]
    exact Nat.not_lt.mpr hm
  rw [utf8Char, if_neg hlarge, heq, hlead]
  dsimp only
  rw [hread]
  show (Char.ofNat c.toNat, left) = (c, left)
  rw [Char.ofNat_toNat]

/-- The encoding of a character is read as that character. -/
theorem utf8Char_encode (c : Char) (s : Bytes) :
    ∃ b rest, String.utf8EncodeChar c ++ s = b :: rest ∧ utf8Char b rest = (c, s) := by
  have hvalid := c.valid
  simp only [UInt32.isValidChar, Nat.isValidChar] at hvalid
  have hv : c.toNat = c.val.toNat := rfl
  rcases Char.utf8Size_eq c with h | h | h | h
  · have hsmall := UInt32.le_iff_toNat_le.mp (Char.utf8Size_eq_one_iff.mp h)
    have hle : c.val.toNat ≤ 127 := hsmall
    refine ⟨_, _, by rw [String.utf8EncodeChar_eq_singleton h]; rfl, ?_⟩
    have hbyte : c.val.toUInt8.toNat = c.toNat := by
      rw [UInt32.toNat_toUInt8, hv]
      omega
    rw [utf8Char, if_pos (UInt8.lt_iff_toNat_lt.mpr (show c.val.toUInt8.toNat < 128 by omega)),
      hbyte, Char.ofNat_toNat]
    rfl
  · obtain ⟨hlow, hhigh⟩ := Char.utf8Size_eq_two_iff.mp h
    have hlow' : 127 < c.val.toNat := UInt32.lt_iff_toNat_lt.mp hlow
    have hhigh' : c.val.toNat ≤ 0x7ff := UInt32.le_iff_toNat_le.mp hhigh
    refine ⟨_, _, by rw [String.utf8EncodeChar_eq_cons_cons h, List.cons_append, List.cons_append,
      List.nil_append], ?_⟩
    obtain ⟨h0, -, -, -⟩ := toNat_packed c.val.toUInt8
    obtain ⟨-, h1, -, -⟩ := toNat_packed (c.val >>> 6).toUInt8
    rw [toNat_shifted] at h1
    rw [UInt32.toNat_toUInt8] at h0
    change _ = 0xc0 + c.val.toNat / 64 % 256 % 32 at h1
    refine utf8Char_lead (h1.trans (show _ = 0xc2 + (c.val.toNat / 64 - 2) by omega)) (by omega)
      (utf8Lead_two (by omega)) ?_
    rw [utf8Rest_step _ (by rw [h0]; exact Nat.le_add_right _ _)
      (by rw [h0]; show _ ≤ 0xbf; omega), utf8Rest, h0, hv]
    have hpoint : (2 + (c.val.toNat / 64 - 2)) * 64 + (0x80 + c.val.toNat % 2 ^ 8 % 64) % 64 =
        c.val.toNat := by omega
    rw [hpoint]
  · obtain ⟨hlow, hhigh⟩ := Char.utf8Size_eq_three_iff.mp h
    have hlow' : 0x7ff < c.val.toNat := UInt32.lt_iff_toNat_lt.mp hlow
    have hhigh' : c.val.toNat ≤ 0xffff := UInt32.le_iff_toNat_le.mp hhigh
    refine ⟨_, _, by rw [String.utf8EncodeChar_eq_cons_cons_cons h, List.cons_append,
      List.cons_append, List.cons_append, List.nil_append], ?_⟩
    obtain ⟨h0, -, -, -⟩ := toNat_packed c.val.toUInt8
    obtain ⟨h1, -, -, -⟩ := toNat_packed (c.val >>> 6).toUInt8
    obtain ⟨-, -, h2, -⟩ := toNat_packed (c.val >>> 12).toUInt8
    rw [toNat_shifted] at h1 h2
    rw [UInt32.toNat_toUInt8] at h0
    change _ = 0x80 + c.val.toNat / 64 % 256 % 64 at h1
    change _ = 0xe0 + c.val.toNat / 4096 % 256 % 16 at h2
    refine utf8Char_lead (h2.trans (show _ = 0xe0 + c.val.toNat / 4096 by omega)) (by omega)
      (utf8Lead_three (by omega)) ?_
    rw [utf8Rest_step _ (by rw [h1]; split <;> [show 0xa0 ≤ _; show 0x80 ≤ _] <;> omega)
      (by rw [h1]; split <;> [show _ ≤ 0x9f; show _ ≤ 0xbf] <;> omega),
      utf8Rest_step _ (by rw [h0]; exact Nat.le_add_right _ _)
      (by rw [h0]; show _ ≤ 0xbf; omega), utf8Rest, h0, h1, hv]
    have hpoint : (c.val.toNat / 4096 * 64 + (0x80 + c.val.toNat / 64 % 256 % 64) % 64) * 64 +
        (0x80 + c.val.toNat % 2 ^ 8 % 64) % 64 = c.val.toNat := by omega
    rw [hpoint]
  · have hlow := Char.utf8Size_eq_four_iff.mp h
    have hlow' : 0xffff < c.val.toNat := UInt32.lt_iff_toNat_lt.mp hlow
    refine ⟨_, _, by rw [String.utf8EncodeChar_eq_cons_cons_cons_cons h, List.cons_append,
      List.cons_append, List.cons_append, List.cons_append, List.nil_append], ?_⟩
    obtain ⟨h0, -, -, -⟩ := toNat_packed c.val.toUInt8
    obtain ⟨h1, -, -, -⟩ := toNat_packed (c.val >>> 6).toUInt8
    obtain ⟨h2, -, -, -⟩ := toNat_packed (c.val >>> 12).toUInt8
    obtain ⟨-, -, -, h3⟩ := toNat_packed (c.val >>> 18).toUInt8
    rw [toNat_shifted] at h1 h2 h3
    rw [UInt32.toNat_toUInt8] at h0
    change _ = 0x80 + c.val.toNat / 64 % 256 % 64 at h1
    change _ = 0x80 + c.val.toNat / 4096 % 256 % 64 at h2
    change _ = 0xf0 + c.val.toNat / 262144 % 256 % 8 at h3
    refine utf8Char_lead (h3.trans (show _ = 0xf0 + c.val.toNat / 262144 by omega)) (by omega)
      (utf8Lead_four (by omega)) ?_
    rw [utf8Rest_step _ (by rw [h2]; split <;> [show 0x90 ≤ _; show 0x80 ≤ _] <;> omega)
      (by rw [h2]; split <;> [show _ ≤ 0x8f; show _ ≤ 0xbf] <;> omega),
      utf8Rest_step _ (by rw [h1]; exact Nat.le_add_right _ _)
      (by rw [h1]; show _ ≤ 0xbf; omega),
      utf8Rest_step _ (by rw [h0]; exact Nat.le_add_right _ _)
      (by rw [h0]; show _ ≤ 0xbf; omega), utf8Rest, h0, h1, h2, hv]
    have hpoint : ((c.val.toNat / 262144 * 64 + (0x80 + c.val.toNat / 4096 % 256 % 64) % 64) * 64 +
        (0x80 + c.val.toNat / 64 % 256 % 64) % 64) * 64 +
        (0x80 + c.val.toNat % 2 ^ 8 % 64) % 64 = c.val.toNat := by omega
    rw [hpoint]

theorem decodeText_encode (text : List Char) : decodeText (Utf8.encode text) = text := by
  induction text with
  | nil => rfl
  | cons c text ih =>
    obtain ⟨b, rest, hbytes, hchar⟩ := utf8Char_encode c (Utf8.encode text)
    rw [Utf8.encode_cons, hbytes, decodeText_cons, hchar, ih]

theorem getLast?_encode {text : List Char} (h : text.getLast? ≠ some '\x00') :
    (Utf8.encode text).getLast? ≠ some 0 := by
  intro hlast
  obtain ⟨front, hfront⟩ := List.getLast?_eq_some_iff.mp hlast
  have hdecoded := decodeText_append_zeros front 1
  rw [List.replicate_one, ← hfront, decodeText_encode] at hdecoded
  rw [hdecoded, List.replicate_one, List.getLast?_concat] at h
  exact h rfl

end Packets.Netflow
