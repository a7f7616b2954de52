/-
The bit-field properties of the header words (`core/inetpkt.pyx`) of TCP, IP, IP6, MPLS,
Ethernet and IGMP, and where each stands in its word.

Where assignments are careful, what was assigned last is read back and is in the bytes.
-/
import Packets.Lib.BitFields
import Packets.Inet.Igmp
import Mathlib.Data.Fintype.Basic
import Mathlib.Tactic.DeriveFintype
import Mathlib.Logic.Function.Basic

namespace Packets.Inet

def setShortNibble (short : BitVec 16) (nibble offset : Nat) : BitVec 16 :=
  (short &&& ~~~(0xf#16 <<< offset)) ||| (BitVec.ofNat 16 nibble <<< offset)

def setCharNibble (char : BitVec 8) (nibble offset : Nat) : BitVec 8 :=
  (char &&& ~~~(0xf#8 <<< offset)) ||| (BitVec.ofNat 8 nibble <<< offset)

def getShortNibble (short : BitVec 16) (offset : Nat) : Nat := ((short >>> offset) &&& 0xf#16).toNat

def getCharNibble (char : BitVec 8) (offset : Nat) : Nat := ((char >>> offset) &&& 0xf#8).toNat

/-- What the three setters of a bit do with their mask. -/
def setUnder {w : Nat} (flags mask : BitVec w) : BitVec w :=
  if flags &&& mask = 0#w then flags ||| mask else flags

/-- What the three clearers of a bit do with theirs, which has every other bit. -/
def unsetUnder {w : Nat} (flags mask : BitVec w) : BitVec w :=
  if flags &&& mask = 0#w then flags &&& mask else flags

def setBit (flags : BitVec 16) (offset : Nat) : BitVec 16 := setUnder flags (1#16 <<< offset)

def setCbit (flags : BitVec 8) (offset : Nat) : BitVec 8 := setUnder flags (1#8 <<< offset)

/-- The mask is a short, as it is in `unset_word_bit`. -/
def setWordBit (flags : BitVec 32) (offset : Nat) : BitVec 32 :=
  setUnder flags ((1#16 <<< offset).setWidth 32)

def unsetBit (flags : BitVec 16) (offset : Nat) : BitVec 16 := unsetUnder flags (~~~(1#16 <<< offset))

def unsetCbit (flags : BitVec 8) (offset : Nat) : BitVec 8 := unsetUnder flags (~~~(1#8 <<< offset))

def unsetWordBit (flags : BitVec 32) (offset : Nat) : BitVec 32 :=
  unsetUnder flags ((~~~(1#16 <<< offset)).setWidth 32)

/-- What an assignment leaves behind, and whether it raised. -/
structure Outcome (σ : Type) where
  raised : Bool
  state : σ
deriving DecidableEq

/-- An argument of a C type of so many bits.  What does not fit raises. -/
def cInt (bits : Nat) (val : Int) : Option Nat :=
  if 0 ≤ val ∧ val < 2 ^ bits then some val.toNat else none

structure BitProperty (w : Nat) where
  get : BitVec w → Nat
  set : Int → BitVec w → Outcome (BitVec w)

/-- A setter that converts its argument, looks at it and puts it into the word. -/
def assigned {w : Nat} (bits : Nat) (takes : Nat → Bool) (put : BitVec w → Nat → BitVec w)
    (val : Int) (v : BitVec w) : Outcome (BitVec w) :=
  match cInt bits val with
  | some n => if takes n then ⟨false, put v n⟩ else ⟨true, v⟩
  | none => ⟨true, v⟩

def isBit (n : Nat) : Bool := n = 0 || n = 1

/-- The flags in a 16-bit word. -/
def flag (offset : Nat) : BitProperty 16 where
  get v := ((v >>> offset) &&& 1#16).toNat
  set := assigned 8 isBit fun v n => if n = 1 then setBit v offset else unsetBit v offset

namespace TCP

def dataOffset : BitProperty 16 where
  get v := getShortNibble v 12
  set := assigned 8 (fun n => 5 ≤ n && n ≤ 15) fun v n => setShortNibble v n 12

def flagNs : BitProperty 16 := flag 8
def flagCwr : BitProperty 16 := flag 7
def flagEce : BitProperty 16 := flag 6
def flagUrg : BitProperty 16 := flag 5
def flagAck : BitProperty 16 := flag 4
def flagPsh : BitProperty 16 := flag 3
def flagRst : BitProperty 16 := flag 2
def flagSyn : BitProperty 16 := flag 1
def flagFin : BitProperty 16 := flag 0

end TCP

namespace IP

def version : BitProperty 8 where
  get v := getCharNibble v 4
  set := assigned 8 (fun n => n = 4 || n = 6) fun v n => setCharNibble v n 4

def iphl : BitProperty 8 where
  get v := getCharNibble v 0
  set := assigned 8 (fun n => n ≤ 0xf) fun v n => setCharNibble v n 0

def flagX : BitProperty 16 := flag 15
def flagD : BitProperty 16 := flag 14
def flagM : BitProperty 16 := flag 13

def fragOffset : BitProperty 16 where
  get v := (v &&& 0x1fff#16).toNat
  set := assigned 16 (fun n => n ≤ 0x1fff) fun v n => (v &&& ~~~0x1fff#16) ||| BitVec.ofNat 16 n

end IP

namespace IP6

def version : BitProperty 32 where
  get v := ((v >>> 28) &&& 0xf#32).toNat
  set := assigned 8 (fun n => n = 4 || n = 6) fun v n =>
    (v &&& 0x0fffffff#32) ||| (BitVec.ofNat 32 n <<< 28)

def trafficClass : BitProperty 32 where
  get v := ((v >>> 20) &&& 0xff#32).toNat
  set := assigned 8 (fun _ => true) fun v n => (v &&& 0xf00fffff#32) ||| (BitVec.ofNat 32 n <<< 20)

def flowLabel : BitProperty 32 where
  get v := (v &&& 0xfffff#32).toNat
  set := assigned 32 (fun n => n ≤ 0xfffff) fun v n => (v &&& 0xfff00000#32) ||| BitVec.ofNat 32 n

end IP6

namespace MPLS

def label : BitProperty 32 where
  get v := (v >>> 12).toNat
  set := assigned 32 (fun n => n ≤ 0xfffff) fun v n =>
    (v &&& ~~~(0xfffff#32 <<< 12)) ||| (BitVec.ofNat 32 n <<< 12)

def tc : BitProperty 32 where
  get v := ((v >>> 9) &&& 0b111#32).toNat
  set := assigned 8 (fun n => n ≤ 0b111) fun v n =>
    (v &&& ~~~(0b111#32 <<< 9)) ||| (BitVec.ofNat 32 n <<< 9)

def s : BitProperty 32 where
  get v := ((v >>> 8) &&& 1#32).toNat
  set := assigned 8 isBit fun v n => if n = 1 then setWordBit v 8 else unsetWordBit v 8

def ttl : BitProperty 32 where
  get v := (v &&& 0xff#32).toNat
  set := assigned 8 (fun _ => true) fun v n => (v &&& ~~~0xff#32) ||| BitVec.ofNat 32 n

end MPLS

namespace Ethernet

def priorityCode : BitProperty 16 where
  get v := ((v >>> 13) &&& 0b111#16).toNat
  set := assigned 8 (fun n => n ≤ 0b111) fun v n =>
    (v &&& ~~~(0b111#16 <<< 13)) ||| (BitVec.ofNat 16 n <<< 13)

def dropEligible : BitProperty 16 := flag 12

def vlanId : BitProperty 16 where
  get v := (v &&& 0xfff#16).toNat
  set := assigned 16 (fun n => n ≤ 0xfff) fun v n => (v &&& ~~~0xfff#16) ||| BitVec.ofNat 16 n

end Ethernet

namespace IGMP

def s : BitProperty 8 where
  get v := ((v >>> 3) &&& 1#8).toNat
  set := assigned 8 isBit fun v n => if n = 1 then setCbit v 3 else unsetCbit v 3

/-- The S bit is kept, and what stands above it is not. -/
def qrv : BitProperty 8 where
  get v := (v &&& 7#8).toNat
  set := assigned 8 (fun n => n ≤ 7) fun v n =>
    if (v >>> 3) &&& 1#8 = 1#8 then BitVec.ofNat 8 (n + 8) else BitVec.ofNat 8 n

end IGMP

/-- Clearing a bit under a mask clears it and nothing else: the bit is all there is when
nothing under the mask is set, and is clear already when something is. -/
def ClearsOnly {w : Nat} (mask : BitVec w) (offset : Nat) (v : BitVec w) : Prop :=
  if v &&& mask = 0#w then v &&& ~~~(1#w <<< offset) = 0#w else v.getLsbD offset = false

instance {w : Nat} (mask : BitVec w) (offset : Nat) (v : BitVec w) :
    Decidable (ClearsOnly mask offset v) := by
  unfold ClearsOnly
  infer_instance

theorem setUnder_eq_put {w : Nat} {mask : BitVec w} {offset : Nat} (hmask : mask = 1#w <<< offset)
    (v : BitVec w) : setUnder v mask = (BitField.bit offset).put v 1 := by
  rw [BitField.put_bit_one, setUnder, hmask]
  split
  · rfl
  · rename_i hset
    apply BitVec.eq_of_getLsbD_eq
    intro i hi
    by_cases heq : i = offset
    · subst heq
      have hbit : v.getLsbD i = true := by
        rw [← Bool.not_eq_false, ← BitField.and_bit_eq_zero_iff hi]
        exact hset
      simp [hi, hbit]
    · by_cases hlt : i < offset
      · simp [hlt]
      · have hne : i - offset ≠ 0 := by omega
        simp [hne]

theorem unsetUnder_eq_put_iff {w : Nat} (mask : BitVec w) {offset : Nat} (hoffset : offset < w)
    (v : BitVec w) :
    unsetUnder v mask = (BitField.bit offset).put v 0 ↔ ClearsOnly mask offset v := by
  rw [BitField.put_bit_zero, unsetUnder, ClearsOnly]
  split
  · rename_i hnone
    rw [hnone]
    exact eq_comm
  · constructor
    · intro heq
      have hbit := congrArg (fun u => BitVec.getLsbD u offset) heq
      simpa [hoffset] using hbit
    · intro hclear
      apply BitVec.eq_of_getLsbD_eq
      intro i hi
      by_cases heq : i = offset
      · subst heq
        simp [hclear]
      · by_cases hlt : i < offset
        · simp [hlt, hi]
        · have hne : i - offset ≠ 0 := by omega
          simp [hne, hi]

namespace BitProperty

variable {w : Nat}

/-- The property stands in a field of the word: it reads the field, an assignment that raises
leaves the word, and a careful one puts its value into the field. -/
structure At (p : BitProperty w) (f : BitField) (careful : Int → BitVec w → Prop) : Prop where
  fits : f.Fits w
  get : ∀ v, p.get v = f.get v
  raises : ∀ val v, (p.set val v).raised → (p.set val v).state = v
  bounded : ∀ val v, (p.set val v).raised = false → val.toNat < 2 ^ f.width
  sets : ∀ val v, (p.set val v).raised = false → careful val v →
    (p.set val v).state = f.put v val.toNat

theorem cInt_eq_some {bits n : Nat} {val : Int} (h : cInt bits val = some n) :
    n = val.toNat ∧ n < 2 ^ bits := by
  unfold cInt at h
  split at h
  · rename_i hval
    obtain rfl := Option.some.inj h
    have hlt : (val.toNat : Int) < ((2 ^ bits : Nat) : Int) := by
      rw [Int.toNat_of_nonneg hval.1]
      exact_mod_cast hval.2
    exact ⟨rfl, by exact_mod_cast hlt⟩
  · cases h

/-- What an assignment comes to. -/
theorem assigned_cases (bits : Nat) (takes : Nat → Bool) (put : BitVec w → Nat → BitVec w)
    (val : Int) (v : BitVec w) :
    (assigned bits takes put val v = ⟨true, v⟩) ∨
      (takes val.toNat = true ∧ val.toNat < 2 ^ bits ∧
        assigned bits takes put val v = ⟨false, put v val.toNat⟩) := by
  unfold assigned
  cases hc : cInt bits val with
  | none => exact Or.inl rfl
  | some n =>
    obtain ⟨rfl, hlt⟩ := cInt_eq_some hc
    by_cases ht : takes val.toNat = true
    · exact Or.inr ⟨ht, hlt, by simp [ht]⟩
    · exact Or.inl (by simp [ht])

theorem assigned_at {f : BitField} {bits : Nat} {takes : Nat → Bool} {get : BitVec w → Nat}
    {put : BitVec w → Nat → BitVec w} {careful : Int → BitVec w → Prop} (hfits : f.Fits w)
    (hget : ∀ v, get v = f.get v) (htakes : ∀ n, takes n = true → n < 2 ^ bits → n < 2 ^ f.width)
    (hput : ∀ val v, takes val.toNat = true → careful val v → put v val.toNat = f.put v val.toNat) :
    At ⟨get, assigned bits takes put⟩ f careful where
  fits := hfits
  get := hget
  raises val v hraised := by
    rcases assigned_cases bits takes put val v with h | ⟨_, _, h⟩
    · exact congrArg Outcome.state h
    · simp [h] at hraised
  bounded val v hok := by
    rcases assigned_cases bits takes put val v with h | ⟨ht, hlt, _⟩
    · simp [h] at hok
    · exact htakes _ ht hlt
  sets val v hok hcareful := by
    rcases assigned_cases bits takes put val v with h | ⟨ht, _, h⟩
    · simp [h] at hok
    · exact (congrArg Outcome.state h).trans (hput val v ht hcareful)

theorem get_shifted (f : BitField) (v : BitVec w) {mask : BitVec w}
    (hmask : mask.toNat = 2 ^ f.width - 1) : ((v >>> f.offset) &&& mask).toNat = f.get v := by
  rw [BitVec.toNat_and, BitVec.toNat_ushiftRight, hmask, Nat.and_two_pow_sub_one_eq_mod]
  rfl

theorem put_shifted (f : BitField) (v : BitVec w) (n : Nat) {keep : BitVec w}
    (hkeep : keep = ~~~f.mask) : (v &&& keep) ||| (BitVec.ofNat w n <<< f.offset) = f.put v n := by
  rw [hkeep]
  rfl

theorem shifted_at {f : BitField} {bits : Nat} {takes : Nat → Bool} {mask keep : BitVec w}
    (hfits : f.Fits w) (hmask : mask.toNat = 2 ^ f.width - 1) (hkeep : keep = ~~~f.mask)
    (htakes : ∀ n, takes n = true → n < 2 ^ bits → n < 2 ^ f.width) :
    At ⟨fun v => ((v >>> f.offset) &&& mask).toNat, assigned bits takes fun v n =>
      (v &&& keep) ||| (BitVec.ofNat w n <<< f.offset)⟩ f (fun _ _ => True) :=
  assigned_at hfits (fun v => get_shifted f v hmask) htakes
    (fun val v _ _ => put_shifted f v val.toNat hkeep)

theorem unshifted_at {width bits : Nat} {takes : Nat → Bool} {mask keep : BitVec w}
    (hfits : (BitField.mk 0 width).Fits w) (hmask : mask.toNat = 2 ^ width - 1)
    (hkeep : keep = ~~~(BitField.mk 0 width).mask)
    (htakes : ∀ n, takes n = true → n < 2 ^ bits → n < 2 ^ width) :
    At ⟨fun v => (v &&& mask).toNat, assigned bits takes fun v n =>
      (v &&& keep) ||| BitVec.ofNat w n⟩ ⟨0, width⟩ (fun _ _ => True) := by
  have hshifted := shifted_at hfits hmask hkeep htakes
  simpa only [BitVec.ushiftRight_zero, BitVec.shiftLeft_zero] using hshifted

/-- What a flag's assignment takes care of: that clearing under its mask clears only the flag. -/
def flagCareful (mask : BitVec w) (offset : Nat) (val : Int) (v : BitVec w) : Prop :=
  val.toNat = 0 → ClearsOnly mask offset v

theorem bit_at {offset : Nat} (hoffset : offset < w) {one mask : BitVec w} (hone : one = 1#w)
    {set unset : BitVec w → BitVec w} (hset : ∀ v, set v = (BitField.bit offset).put v 1)
    (hunset : ∀ v, unset v = unsetUnder v mask) :
    At ⟨fun v => ((v >>> offset) &&& one).toNat, assigned 8 isBit fun v n =>
      if n = 1 then set v else unset v⟩ (BitField.bit offset) (flagCareful mask offset) := by
  have hmask : one.toNat = 2 ^ (BitField.bit offset).width - 1 := by
    have hw : 1 < 2 ^ w := Nat.one_lt_two_pow (by omega)
    rw [hone, BitVec.toNat_ofNat, Nat.mod_eq_of_lt hw]
    rfl
  refine assigned_at (f := BitField.bit offset) hoffset
    (fun v => get_shifted (BitField.bit offset) v hmask) ?_ ?_
  · intro n hn _
    rcases Bool.or_eq_true_iff.mp hn with h | h
    · simp [of_decide_eq_true h, BitField.bit]
    · simp [of_decide_eq_true h, BitField.bit]
  · intro val v hn hcareful
    rcases Bool.or_eq_true_iff.mp hn with h | h
    · have hzero : val.toNat = 0 := of_decide_eq_true h
      rw [hzero, if_neg (by decide), hunset]
      exact (unsetUnder_eq_put_iff mask hoffset v).mpr (hcareful hzero)
    · have hone' : val.toNat = 1 := of_decide_eq_true h
      rw [hone', if_pos rfl]
      exact hset v

theorem flag_at {offset : Nat} (hoffset : offset < 16) :
    (flag offset).At (BitField.bit offset) (flagCareful (~~~(1#16 <<< offset)) offset) :=
  bit_at hoffset rfl (fun v => setUnder_eq_put rfl v) (fun _ => rfl)

theorem lt_of_le_takes {k bits width : Nat} (hk : k < 2 ^ width) (n : Nat)
    (hn : decide (n ≤ k) = true) (_ : n < 2 ^ bits) : n < 2 ^ width :=
  Nat.lt_of_le_of_lt (of_decide_eq_true hn) hk

theorem lt_of_version_takes (n : Nat) (hn : (decide (n = 4) || decide (n = 6)) = true)
    (_ : n < 2 ^ 8) : n < 2 ^ 4 := by
  rcases Bool.or_eq_true_iff.mp hn with h | h <;> rw [of_decide_eq_true h] <;> decide

end BitProperty

namespace TCP

theorem dataOffset_at : dataOffset.At ⟨12, 4⟩ (fun _ _ => True) :=
  BitProperty.shifted_at (f := ⟨12, 4⟩) (by decide) (by decide) (by decide) (by
    intro n hn _
    have hle := of_decide_eq_true (Bool.and_eq_true_iff.mp hn).2
    exact Nat.lt_of_le_of_lt hle (by decide))

theorem dataOffset_cases (val : Int) (v : BitVec 16) :
    dataOffset.set val v = ⟨true, v⟩ ∨ val.toNat ≤ 15 := by
  rcases BitProperty.assigned_cases 8 (fun n => 5 ≤ n && n ≤ 15)
    (fun v n => setShortNibble v n 12) val v with hraised | ⟨htakes, _⟩
  · exact Or.inl hraised
  · exact Or.inr (of_decide_eq_true (Bool.and_eq_true_iff.mp htakes).2)

end TCP

namespace IP

theorem version_at : version.At ⟨4, 4⟩ (fun _ _ => True) :=
  BitProperty.shifted_at (f := ⟨4, 4⟩) (by decide) (by decide) (by decide)
    BitProperty.lt_of_version_takes

theorem iphl_at : iphl.At ⟨0, 4⟩ (fun _ _ => True) :=
  BitProperty.shifted_at (f := ⟨0, 4⟩) (by decide) (by decide) (by decide)
    (BitProperty.lt_of_le_takes (by decide))

theorem fragOffset_at : fragOffset.At ⟨0, 13⟩ (fun _ _ => True) :=
  BitProperty.unshifted_at (by decide) (by decide) (by decide)
    (BitProperty.lt_of_le_takes (by decide))

end IP

namespace IP6

theorem version_at : version.At ⟨28, 4⟩ (fun _ _ => True) :=
  BitProperty.shifted_at (f := ⟨28, 4⟩) (by decide) (by decide) (by decide)
    BitProperty.lt_of_version_takes

theorem trafficClass_at : trafficClass.At ⟨20, 8⟩ (fun _ _ => True) :=
  BitProperty.shifted_at (f := ⟨20, 8⟩) (by decide) (by decide) (by decide) (fun _ _ hn => hn)

theorem flowLabel_at : flowLabel.At ⟨0, 20⟩ (fun _ _ => True) :=
  BitProperty.unshifted_at (by decide) (by decide) (by decide)
    (BitProperty.lt_of_le_takes (by decide))

end IP6

namespace MPLS

theorem label_at : label.At ⟨12, 20⟩ (fun _ _ => True) := by
  refine BitProperty.assigned_at (f := ⟨12, 20⟩) (by decide) ?_ ?_
    (fun val v _ _ => BitProperty.put_shifted ⟨12, 20⟩ v val.toNat (by decide))
  · intro v
    have hlt : v.toNat >>> 12 < 2 ^ 20 := by
      rw [Nat.shiftRight_eq_div_pow]
      have hv := v.isLt
      omega
    rw [BitVec.toNat_ushiftRight]
    exact (Nat.mod_eq_of_lt hlt).symm
  · exact BitProperty.lt_of_le_takes (by decide)

theorem tc_at : tc.At ⟨9, 3⟩ (fun _ _ => True) :=
  BitProperty.shifted_at (f := ⟨9, 3⟩) (by decide) (by decide) (by decide)
    (BitProperty.lt_of_le_takes (by decide))

theorem s_at : s.At (BitField.bit 8) (BitProperty.flagCareful ((~~~(1#16 <<< 8)).setWidth 32) 8) :=
  BitProperty.bit_at (by decide) rfl (fun v => setUnder_eq_put (by decide) v) (fun _ => rfl)

theorem ttl_at : ttl.At ⟨0, 8⟩ (fun _ _ => True) :=
  BitProperty.unshifted_at (by decide) (by decide) (by decide) (fun _ _ hn => hn)

end MPLS

namespace Ethernet

theorem priorityCode_at : priorityCode.At ⟨13, 3⟩ (fun _ _ => True) :=
  BitProperty.shifted_at (f := ⟨13, 3⟩) (by decide) (by decide) (by decide)
    (BitProperty.lt_of_le_takes (by decide))

theorem vlanId_at : vlanId.At ⟨0, 12⟩ (fun _ _ => True) :=
  BitProperty.unshifted_at (by decide) (by decide) (by decide)
    (BitProperty.lt_of_le_takes (by decide))

end Ethernet

namespace IGMP

theorem s_at : s.At (BitField.bit 3) (BitProperty.flagCareful (~~~(1#8 <<< 3)) 3) :=
  BitProperty.bit_at (by decide) rfl (fun v => setUnder_eq_put rfl v) (fun _ => rfl)

end IGMP

namespace BitProperty

variable {w : Nat} {ι : Type} [DecidableEq ι]

/-- Properties of one word that do not disturb each other, where an assignment is careful. -/
structure Family (P : ι → BitProperty w) (careful : ι → Int → BitVec w → Prop) : Prop where
  raises : ∀ i val v, ((P i).set val v).raised → ((P i).set val v).state = v
  reads : ∀ i val v, ((P i).set val v).raised = false → careful i val v →
    (fun j => (P j).get ((P i).set val v).state) =
      Function.update (fun j => (P j).get v) i val.toNat

/-- Properties that stand apart. -/
theorem Family.of_at {P : ι → BitProperty w} {place : ι → BitField}
    {careful : ι → Int → BitVec w → Prop} (hat : ∀ i, (P i).At (place i) (careful i))
    (hapart : ∀ i j, i ≠ j → (place i).Apart (place j)) : Family P careful where
  raises i := (hat i).raises
  reads i val v hok hcareful := by
    have hsets := (hat i).sets val v hok hcareful
    have hlt := (hat i).bounded val v hok
    funext j
    by_cases hij : j = i
    · subst hij
      rw [Function.update_self, hsets, (hat j).get, BitField.get_put (hat j).fits v hlt]
    · rw [Function.update_of_ne hij, hsets, (hat j).get, (hat j).get,
        BitField.get_put_of_apart (hapart i j (Ne.symm hij)) (hat j).fits v hlt]

end BitProperty

/-- The word of a layer that the properties stand in. -/
structure WordLens (σ : Type) (w : Nat) where
  get : σ → BitVec w
  put : BitVec w → σ → σ
  get_put : ∀ v s, get (put v s) = v
  put_get : ∀ s, put (get s) s = s

/-- A field as the bytes have it in the `count` bytes from `pos` on. -/
def fieldInBytes (f : BitField) (pos count : Nat) (s : Bytes) : Nat :=
  f.get (BitVec.ofNat (8 * count) (BigEndian.toNat ((s.drop pos).take count)))

/-- A word that was written is there to be read. -/
theorem fieldInBytes_append {before : Bytes} {pos : Nat} (hpos : before.length = pos)
    (f : BitField) (rest : Bytes) (count x : Nat) :
    fieldInBytes f pos count (before ++ (BigEndian.ofNat count x ++ rest)) =
      f.get (BitVec.ofNat (8 * count) x) := by
  have htake : ((before ++ (BigEndian.ofNat count x ++ rest)).drop pos).take count =
      BigEndian.ofNat count x := by
    rw [List.drop_left' hpos, List.take_left' (BigEndian.length_ofNat count x)]
  have hword : BitVec.ofNat (8 * count) (x % 256 ^ count) = BitVec.ofNat (8 * count) x := by
    apply BitVec.eq_of_toNat_eq
    have hpow : (2 : Nat) ^ (8 * count) = 256 ^ count := by rw [Nat.pow_mul]
    rw [BitVec.toNat_ofNat, BitVec.toNat_ofNat, hpow, Nat.mod_mod]
  rw [fieldInBytes, htake, BigEndian.toNat_ofNat_mod, hword]

/-- A layer whose properties are assigned: what is read, what an assignment does and means, and
what the written header has to carry. -/
structure FieldLayer (σ α V : Type) where
  view : σ → V
  assign : α → σ → Outcome σ
  meaning : α → V → V
  carries : σ → Prop
  after : α → σ → Prop
  careful : α → σ → Prop

namespace FieldLayer

variable {σ α β V W : Type}

def run (L : FieldLayer σ α V) (s : σ) (steps : List α) : σ :=
  steps.foldl (fun s a => (L.assign a s).state) s

/-- What the assignments that do not raise say. -/
def said (L : FieldLayer σ α V) : σ → V → List α → V
  | _, v, [] => v
  | s, v, a :: rest =>
    L.said (L.assign a s).state (if (L.assign a s).raised then v else L.meaning a v) rest

def CarefulRun (L : FieldLayer σ α V) : σ → List α → Prop
  | _, [] => True
  | s, a :: rest => L.careful a s ∧ L.CarefulRun (L.assign a s).state rest

/-- What is promised of a run: the properties read what was assigned last, the bytes carry
it, and the last assignment has changed nothing when it raised. -/
structure Promise (L : FieldLayer σ α V) (start : σ) (steps : List α) : Prop where
  reads : L.view (L.run start steps) = L.said start (L.view start) steps
  carries : L.carries (L.run start steps)
  last : ∀ done a, steps = done ++ [a] →
    if (L.assign a (L.run start done)).raised then L.run start steps = L.run start done
    else L.after a (L.run start steps)

/-- What one careful assignment does. -/
structure Keeps (L : FieldLayer σ α V) : Prop where
  raises : ∀ a s, L.careful a s → (L.assign a s).raised = true → (L.assign a s).state = s
  reads : ∀ a s, L.careful a s → (L.assign a s).raised = false →
    L.view (L.assign a s).state = L.meaning a (L.view s)
  after : ∀ a s, L.careful a s → (L.assign a s).raised = false → L.after a (L.assign a s).state
  carries : ∀ s, L.carries s

theorem run_append (L : FieldLayer σ α V) (s : σ) (done rest : List α) :
    L.run s (done ++ rest) = L.run (L.run s done) rest :=
  List.foldl_append ..

theorem CarefulRun.at_end {L : FieldLayer σ α V} {s : σ} {done : List α} {a : α}
    (h : L.CarefulRun s (done ++ [a])) : L.careful a (L.run s done) := by
  induction done generalizing s with
  | nil => exact h.1
  | cons b done ih => exact ih h.2

theorem Keeps.view_run {L : FieldLayer σ α V} (hL : L.Keeps) {s : σ} {steps : List α}
    (h : L.CarefulRun s steps) : L.view (L.run s steps) = L.said s (L.view s) steps := by
  induction steps generalizing s with
  | nil => rfl
  | cons a rest ih =>
    obtain ⟨hcareful, hrest⟩ := h
    have hview : L.view (L.assign a s).state =
        if (L.assign a s).raised then L.view s else L.meaning a (L.view s) := by
      cases hraised : (L.assign a s).raised with
      | false => exact hL.reads a s hcareful hraised
      | true => exact congrArg L.view (hL.raises a s hcareful hraised)
    rw [said, ← hview]
    exact ih hrest

/-- A careful run keeps every promise. -/
theorem Keeps.promise {L : FieldLayer σ α V} (hL : L.Keeps) {start : σ} {steps : List α}
    (h : L.CarefulRun start steps) : L.Promise start steps where
  reads := hL.view_run h
  carries := hL.carries _
  last := by
    rintro done a rfl
    have hcareful := h.at_end
    have hrun : L.run start (done ++ [a]) = (L.assign a (L.run start done)).state :=
      L.run_append start done [a]
    rw [hrun]
    split
    · rename_i hraised
      exact hL.raises a _ hcareful hraised
    · rename_i hok
      exact hL.after a _ hcareful (Bool.eq_false_iff.mpr hok)

/-- The properties of one word of a layer. -/
def ofWord {w : Nat} {ι : Type} [DecidableEq ι] (P : ι → BitProperty w)
    (careful : ι → Int → BitVec w → Prop) (word : WordLens σ w) (carries : σ → Prop) :
    FieldLayer σ (ι × Int) (ι → Nat) where
  view s i := (P i).get (word.get s)
  assign a s :=
    let o := (P a.1).set a.2 (word.get s)
    ⟨o.raised, word.put o.state s⟩
  meaning a v := Function.update v a.1 a.2.toNat
  carries := carries
  after _ _ := True
  careful a s := careful a.1 a.2 (word.get s)

theorem ofWord_keeps {w : Nat} {ι : Type} [DecidableEq ι] {P : ι → BitProperty w}
    {careful : ι → Int → BitVec w → Prop} (hP : BitProperty.Family P careful)
    (word : WordLens σ w) {carries : σ → Prop} (hcarries : ∀ s, carries s) :
    (ofWord P careful word carries).Keeps where
  raises a s _ hraised := by
    show word.put ((P a.1).set a.2 (word.get s)).state s = s
    rw [hP.raises a.1 a.2 (word.get s) hraised, word.put_get]
  reads a s hcareful hok := by
    show (fun j => (P j).get (word.get (word.put ((P a.1).set a.2 (word.get s)).state s))) = _
    rw [word.get_put]
    exact hP.reads a.1 a.2 (word.get s) hok hcareful
  after _ _ _ _ := trivial
  carries := hcarries

/-- Two groups of properties of one layer. -/
def both (L : FieldLayer σ α V) (M : FieldLayer σ β W) : FieldLayer σ (α ⊕ β) (V × W) where
  view s := (L.view s, M.view s)
  assign a s := a.elim (fun a => L.assign a s) (fun b => M.assign b s)
  meaning a v := a.elim (fun a => (L.meaning a v.1, v.2)) (fun b => (v.1, M.meaning b v.2))
  carries s := L.carries s ∧ M.carries s
  after a s := a.elim (fun a => L.after a s) (fun b => M.after b s)
  careful a s := a.elim (fun a => L.careful a s) (fun b => M.careful b s)

/-- Groups that do not touch what the other one reads. -/
theorem Keeps.both {L : FieldLayer σ α V} {M : FieldLayer σ β W} (hL : L.Keeps) (hM : M.Keeps)
    (hleft : ∀ a s, M.view (L.assign a s).state = M.view s)
    (hright : ∀ b s, L.view (M.assign b s).state = L.view s) : (L.both M).Keeps where
  raises a s hcareful hraised := by
    cases a with
    | inl a => exact hL.raises a s hcareful hraised
    | inr b => exact hM.raises b s hcareful hraised
  reads a s hcareful hok := by
    cases a with
    | inl a => exact Prod.ext (hL.reads a s hcareful hok) (hleft a s)
    | inr b => exact Prod.ext (hright b s) (hM.reads b s hcareful hok)
  after a s hcareful hok := by
    cases a with
    | inl a => exact hL.after a s hcareful hok
    | inr b => exact hM.after b s hcareful hok
  carries s := ⟨hL.carries s, hM.carries s⟩

end FieldLayer

end Packets.Inet
