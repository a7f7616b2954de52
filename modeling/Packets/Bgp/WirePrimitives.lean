/-
The BGP wire primitives (`_bgp_cap_next`, `_bgp_attr_next`, `_bgp_nlri_next` and
`_bgp_aspath_seg_next` in `core/inetpkt.pyx`) over a whole buffer, with the offsets they
read, and the loops of `core/bgpcore.pyx` that walk a block with them.
-/
import Packets.Lib.OffsetWalk
import Packets.Rib.Prefix

namespace Packets.Bgp.Primitives

open OffsetWalk Reading

/-- `_have_range` -/
def haveRange (start stop least : Int) : Bool := start ≥ 0 ∧ stop - start ≥ least

def byteAt (mv : Bytes) (i : Int) : Nat := (mv.getD i.toNat 0).toNat

/-- An unchecked index into the buffer. -/
def rdU8 (mv : Bytes) (i : Int) : Reading Nat := ⟨byteAt mv i, [i]⟩

/-- `rd_u16` -/
def rdU16 (mv : Bytes) (i : Int) : Reading Nat := do
  let high ← rdU8 mv i
  let low ← rdU8 mv (i + 1)
  pure (high * 256 + low)

/-- `rd_u32` -/
def rdU32 (mv : Bytes) (i : Int) : Reading Nat := do
  let high ← rdU16 mv i
  let low ← rdU16 mv (i + 2)
  pure (high * 65536 + low)

structure CapOut where
  code : Nat
  vs : Int
  ve : Int
deriving DecidableEq

/-- `_bgp_cap_next` -/
def bgpCapNext (mv : Bytes) (o e : Int) : Reading (Int × CapOut) :=
  if ¬haveRange o e 2 then pure (-1, ⟨0, -1, -1⟩)
  else do
    let code ← rdU8 mv o
    let vs := o + 2
    let len ← rdU8 mv (o + 1)
    let ve := vs + len
    pure (if ve > e then e else ve, ⟨code, vs, ve⟩)

structure AttrOut where
  flags : Nat
  atype : Nat
  vs : Int
  ve : Int
deriving DecidableEq

/-- `_bgp_attr_next` -/
def bgpAttrNext (mv : Bytes) (o e : Int) : Reading (Int × AttrOut) :=
  if ¬haveRange o e 2 then pure (-1, ⟨0, 0, -1, -1⟩)
  else do
    let flags ← rdU8 mv o
    let atype ← rdU8 mv (o + 1)
    if flags &&& 0x10 ≠ 0 then
      if ¬haveRange o e 4 then pure (-1, ⟨flags, atype, -1, -1⟩)
      else do
        let vs := o + 4
        let len ← rdU16 mv (o + 2)
        let ve := vs + len
        pure (if ve > e then e else ve, ⟨flags, atype, vs, ve⟩)
    else if ¬haveRange o e 3 then pure (-1, ⟨flags, atype, -1, -1⟩)
    else do
      let vs := o + 3
      let len ← rdU8 mv (o + 2)
      let ve := vs + len
      pure (if ve > e then e else ve, ⟨flags, atype, vs, ve⟩)

structure NlriOut where
  pathId : Nat
  plen : Nat
  addrStart : Int
deriving DecidableEq

/-- `_bgp_nlri_next`, from the prefix length on. -/
def bgpNlriPrefix (mv : Bytes) (o e : Int) (maxAddrBytes : Int) (pathId : Nat) :
    Reading (Int × NlriOut) :=
  if ¬haveRange o e 1 then pure (-1, ⟨pathId, 0, -1⟩)
  else do
    let plen ← rdU8 mv o
    let o := o + 1
    let nbytes : Int := ((plen + 7) / 8 : Nat)
    if nbytes > maxAddrBytes ∨ ¬haveRange o e nbytes then pure (-1, ⟨pathId, plen, -1⟩)
    else pure (o + nbytes, ⟨pathId, plen, o⟩)

/-- `_bgp_nlri_next` -/
def bgpNlriNext (mv : Bytes) (o e : Int) (addPath : Bool) (maxAddrBytes : Int) :
    Reading (Int × NlriOut) :=
  if o ≥ e then pure (-1, ⟨0, 0, -1⟩)
  else if addPath then
    if ¬haveRange o e 4 then pure (-1, ⟨0, 0, -1⟩)
    else do
      let pathId ← rdU32 mv o
      bgpNlriPrefix mv (o + 4) e maxAddrBytes pathId
  else bgpNlriPrefix mv o e maxAddrBytes 0

structure SegOut where
  segType : Nat
  count : Nat
  asnStart : Int
deriving DecidableEq

/-- `_bgp_aspath_seg_next` -/
def bgpAspathSegNext (mv : Bytes) (o e : Int) (as4 : Bool) : Reading (Int × SegOut) :=
  if ¬haveRange o e 2 then pure (-1, ⟨0, 0, -1⟩)
  else do
    let segType ← rdU8 mv o
    let count ← rdU8 mv (o + 1)
    let asnStart := o + 2
    let nxt := if as4 then asnStart + count * 4 else asnStart + count * 2
    pure (if nxt > e then e else nxt, ⟨segType, count, asnStart⟩)

/-- The value a capability at `o` declares, if its header is in the block. -/
def capDeclares (mv : Bytes) (o e : Int) : Option (Int × Int) :=
  if 0 ≤ o ∧ o + 2 ≤ e then some (o + 2, o + 2 + byteAt mv (o + 1)) else none

/-- The same of an attribute, whose flags say how long its header is. -/
def attrDeclares (mv : Bytes) (o e : Int) : Option (Int × Int) :=
  let extended : Bool := byteAt mv o &&& 0x10 ≠ 0
  let vs := o + if extended then 4 else 3
  let len := if extended then (rdU16 mv (o + 2)).value else byteAt mv (o + 2)
  if 0 ≤ o ∧ vs ≤ e then some (vs, vs + len) else none

/-- The same of a prefix that is not too wide. -/
def nlriDeclares (addPath : Bool) (maxAddrBytes : Int) (mv : Bytes) (o e : Int) :
    Option (Int × Int) :=
  let at_ := o + if addPath then 4 else 0
  let nbytes : Int := ((byteAt mv at_ + 7) / 8 : Nat)
  if 0 ≤ o ∧ at_ + 1 ≤ e ∧ nbytes ≤ maxAddrBytes then some (at_ + 1, at_ + 1 + nbytes) else none

/-- The same of an AS_PATH segment. -/
def segDeclares (as4 : Bool) (mv : Bytes) (o e : Int) : Option (Int × Int) :=
  if 0 ≤ o ∧ o + 2 ≤ e then
    some (o + 2, o + 2 + byteAt mv (o + 1) * if as4 then 4 else 2)
  else none

/-- A primitive with the span its out-parameters claim, and what it owes the header. -/
structure Primitive (α : Type) where
  next : Bytes → Int → Int → Reading (Int × α)
  span : α → Int × Int
  declares : Bytes → Int → Int → Option (Int × Int)
  within : ∀ mv o e, (next mv o e).Within (max 0 o) e
  ahead : ∀ mv o e value, declares mv o e = some value →
    0 ≤ o ∧ o < value.1 ∧ value.1 ≤ e ∧ value.1 ≤ value.2
  meets : ∀ mv o e,
    ((next mv o e).value.1 = -1 ∧ ∀ value, declares mv o e = some value → e < value.2) ∨
      declares mv o e = some (span (next mv o e).value.2) ∧
        (next mv o e).value.1 = min (span (next mv o e).value.2).2 e

namespace Primitive

variable {α : Type} (p : Primitive α)

def step (mv : Bytes) (e o : Int) : Int × α := (p.next mv o e).value

/-- The loop of the `iter_` functions, as often as there are offsets. -/
def iter (mv : Bytes) (s e : Int) : Option (List (Visit α) × Int) :=
  walk (p.step mv e) ((e - s).toNat + 1) s

/-- `_end` -/
def endOf (mv : Bytes) (e : Int) : Int := if e < 0 ∨ e > mv.length then mv.length else e

/-- The elements a loop appends to its list. -/
def elements (buf : Bytes) (s e : Int) : Option (List α) :=
  (p.iter buf s (endOf buf e)).map fun run => run.1.map Visit.element

/-- Where the element at an offset says it ends. -/
def declaredEnd (mv : Bytes) (e o : Int) : Option Int := (p.declares mv o e).map Prod.snd

theorem follows (mv : Bytes) (e : Int) : Follows (p.declaredEnd mv e) e (p.step mv e) where
  ahead := by
    intro o claimed h
    obtain ⟨value, hspan, rfl⟩ := Option.map_eq_some_iff.mp h
    have := p.ahead mv o e value hspan
    exact ⟨this.1, by omega⟩
  answers := by
    intro o
    rcases p.meets mv o e with ⟨hstop, -⟩ | ⟨hspan, hnext⟩
    · exact .inl hstop
    · have := p.ahead mv o e _ hspan
      refine .inr ⟨?_, _, by rw [declaredEnd, hspan, Option.map_some], hnext⟩
      rw [step, hnext]
      omega
  fits := by
    intro o claimed h hle
    obtain ⟨value, hspan, rfl⟩ := Option.map_eq_some_iff.mp h
    rcases p.meets mv o e with ⟨-, hlong⟩ | ⟨hmeets, hnext⟩
    · exact absurd (hlong value hspan) (not_lt.mpr hle)
    · rw [hspan] at hmeets
      rw [step, hnext, ← Option.some.inj hmeets]
      exact min_eq_left hle

/-- What one call reads and returns. -/
def InBounds (mv : Bytes) (e : Int) : Prop :=
  ∀ o, (p.next mv o e).Within o e ∧ (p.next mv o e).Within 0 mv.length ∧
    ((p.next mv o e).value.1 = -1 ∨
      o < (p.next mv o e).value.1 ∧ (p.next mv o e).value.1 ≤ e ∧
        o ≤ (p.span (p.next mv o e).value.2).1 ∧ (p.span (p.next mv o e).value.2).1 ≤ e ∧
        p.declares mv o e = some (p.span (p.next mv o e).value.2))

theorem inBounds {mv : Bytes} {e : Int} (he : e ≤ mv.length) : p.InBounds mv e := by
  intro o
  have hwithin := p.within mv o e
  refine ⟨fun i hi => ?_, fun i hi => ?_, ?_⟩
  · have := hwithin i hi
    omega
  · have := hwithin i hi
    omega
  · rcases p.meets mv o e with ⟨hstop, -⟩ | ⟨hspan, hnext⟩
    · exact .inl hstop
    · have := p.ahead mv o e _ hspan
      exact .inr ⟨by omega, by omega, by omega, by omega, hspan⟩

/-- What a loop visits: consecutive elements, or the first of them, and the block with nothing
cut short exactly when the declared lengths tile it. -/
def Walks (mv : Bytes) (e : Int) : Prop :=
  ∀ s, ∃ visits stop, p.iter mv s e = some (visits, stop) ∧
    (0 ≤ e → p.elements mv s e = some (visits.map Visit.element)) ∧ Consecutive s visits stop ∧
    visits.Pairwise (fun v w => v.stop ≤ w.start) ∧
    (∀ v ∈ visits, v.stop ≤ e ∧ p.step mv e v.start = (v.stop, v.element)) ∧
    (p.step mv e stop).1 = -1 ∧
    (Tiles (p.declaredEnd mv e) e s ↔ stop = e ∧ ∀ v ∈ visits, (p.span v.element).2 ≤ e) ∧
    ∀ front mid, 0 ≤ s → Consecutive s front mid →
      (∀ v ∈ front, p.step mv e v.start = (v.stop, v.element)) → front <+: visits

theorem declaredEnd_visit {mv : Bytes} {e : Int} {v : Visit α} (hzero : 0 ≤ v.stop)
    (hv : p.step mv e v.start = (v.stop, v.element)) :
    p.declaredEnd mv e v.start = some v.stop ↔ (p.span v.element).2 ≤ e := by
  have hstop : (p.next mv v.start e).value.1 = v.stop := congrArg Prod.fst hv
  have helement : (p.next mv v.start e).value.2 = v.element := congrArg Prod.snd hv
  rcases p.meets mv v.start e with ⟨hnone, -⟩ | ⟨hspan, hnext⟩
  · omega
  · rw [helement] at hspan hnext
    rw [declaredEnd, hspan, Option.map_some, Option.some.injEq]
    omega

theorem walks {mv : Bytes} {e : Int} (he : e ≤ mv.length) : p.Walks mv e := by
  intro s
  have hfollows := p.follows mv e
  obtain ⟨visits, stop, hwalk, hcons, hvisits, hlast⟩ :=
    hfollows.walk_eq (o := s) (show e - s < ((e - s).toNat + 1 : Nat) by omega) (by omega)
  have hsteps : ∀ v ∈ visits, p.step mv e v.start = (v.stop, v.element) :=
    fun v hv => (hvisits v hv).2.2.2
  have htiles := hfollows.tiles_iff hcons (fun v hv => (hvisits v hv).1) hsteps hlast
  have hcut : (∀ v ∈ visits, p.declaredEnd mv e v.start = some v.stop) ↔
      ∀ v ∈ visits, (p.span v.element).2 ≤ e := by
    refine forall₂_congr fun v hv => p.declaredEnd_visit ?_ (hsteps v hv)
    obtain ⟨hzero, hlt, -⟩ := hvisits v hv
    omega
  rw [hcut] at htiles
  have helements (hzero : 0 ≤ e) : p.elements mv s e = some (visits.map Visit.element) := by
    rw [elements, endOf, if_neg (by omega), iter, hwalk, Option.map_some]
  exact ⟨visits, stop, hwalk, helements, hcons, hcons.disjoint,
    fun v hv => (hvisits v hv).2.2, hlast, htiles,
    fun front mid hzero hfront hfrontSteps =>
      visited_prefix hcons hsteps hlast hfront hzero hfrontSteps⟩

end Primitive

@[simp] theorem haveRange_iff {start stop least : Int} :
    haveRange start stop least = true ↔ 0 ≤ start ∧ start + least ≤ stop := by
  rw [haveRange, decide_eq_true_iff]
  omega

theorem value_rdU8 (mv : Bytes) (i : Int) : (rdU8 mv i).value = byteAt mv i := rfl

theorem within_rdU8 {lo hi i : Int} (mv : Bytes) (hlo : lo ≤ i) (hhi : i < hi) :
    (rdU8 mv i).Within lo hi := List.forall_mem_singleton.mpr ⟨hlo, hhi⟩

theorem within_rdU16 {lo hi i : Int} (mv : Bytes) (hlo : lo ≤ i) (hhi : i + 2 ≤ hi) :
    (rdU16 mv i).Within lo hi :=
  (within_rdU8 mv hlo (by omega)).bind ((within_rdU8 mv (by omega) (by omega)).bind (within_pure _))

theorem within_rdU32 {lo hi i : Int} (mv : Bytes) (hlo : lo ≤ i) (hhi : i + 4 ≤ hi) :
    (rdU32 mv i).Within lo hi :=
  (within_rdU16 mv hlo (by omega)).bind
    ((within_rdU16 mv (by omega) (by omega)).bind (within_pure _))

theorem clamped (claimed e : Int) : (if claimed > e then e else claimed) = min claimed e := by
  split
  · omega
  · omega

def cap : Primitive CapOut where
  next := bgpCapNext
  span out := (out.vs, out.ve)
  declares := capDeclares
  within := by
    intro mv o e
    rw [bgpCapNext]
    split
    · exact within_pure _
    · rename_i h
      rw [not_not, haveRange_iff] at h
      exact (within_rdU8 mv (by omega) (by omega)).bind
        ((within_rdU8 mv (by omega) (by omega)).bind (within_pure _))
  ahead := by
    intro mv o e value h
    rw [capDeclares] at h
    split at h
    · cases h
      omega
    · cases h
  meets := by
    intro mv o e
    rw [bgpCapNext, capDeclares]
    by_cases h : 0 ≤ o ∧ o + 2 ≤ e
    · rw [if_neg (by simp [h]), if_pos h]
      exact .inr ⟨rfl, clamped _ e⟩
    · rw [if_pos (by simpa using h), if_neg h]
      exact .inl ⟨rfl, by simp⟩

def attr : Primitive AttrOut where
  next := bgpAttrNext
  span out := (out.vs, out.ve)
  declares := attrDeclares
  within := by
    intro mv o e
    rw [bgpAttrNext]
    split
    · exact within_pure _
    · rename_i h
      rw [not_not, haveRange_iff] at h
      refine (within_rdU8 mv (by omega) (by omega)).bind
        ((within_rdU8 mv (by omega) (by omega)).bind ?_)
      split
      · split
        · exact within_pure _
        · rename_i h
          rw [not_not, haveRange_iff] at h
          exact (within_rdU16 mv (by omega) (by omega)).bind (within_pure _)
      · split
        · exact within_pure _
        · rename_i h
          rw [not_not, haveRange_iff] at h
          exact (within_rdU8 mv (by omega) (by omega)).bind (within_pure _)
  ahead := by
    intro mv o e value h
    rw [attrDeclares] at h
    obtain ⟨⟨hzero, hle⟩, h⟩ := Option.ite_none_right_eq_some.mp h
    cases h
    refine ⟨hzero, ?_, hle, by omega⟩
    dsimp only
    split <;> omega
  meets := by
    intro mv o e
    rw [bgpAttrNext, attrDeclares]
    by_cases h : 0 ≤ o ∧ o + 2 ≤ e
    · rw [if_neg (by simp [h])]
      simp only [value_bind]
      by_cases hflag : (rdU8 mv o).value &&& 0x10 ≠ 0
      · have hextended : decide (byteAt mv o &&& 0x10 ≠ 0) = true := decide_eq_true hflag
        rw [if_pos hflag]
        simp only [hextended, if_true]
        by_cases hlong : o + 4 ≤ e
        · rw [if_neg (by simp [h, hlong]), if_pos ⟨h.1, hlong⟩]
          exact .inr ⟨rfl, clamped _ e⟩
        · rw [if_pos (by simp [hlong]), if_neg (fun hle => hlong hle.2)]
          exact .inl ⟨rfl, by simp⟩
      · have hshort : decide (byteAt mv o &&& 0x10 ≠ 0) = false := decide_eq_false hflag
        rw [if_neg hflag]
        simp only [hshort, Bool.false_eq_true, if_false]
        by_cases hlong : o + 3 ≤ e
        · rw [if_neg (by simp [h, hlong]), if_pos ⟨h.1, hlong⟩]
          exact .inr ⟨rfl, clamped _ e⟩
        · rw [if_pos (by simp [hlong]), if_neg (fun hle => hlong hle.2)]
          exact .inl ⟨rfl, by simp⟩
    · rw [if_pos (by simpa using h)]
      refine .inl ⟨rfl, fun value hvalue => ?_⟩
      obtain ⟨⟨hzero, hle⟩, -⟩ := Option.ite_none_right_eq_some.mp hvalue
      split at hle <;> omega

theorem within_bgpNlriPrefix {mv : Bytes} {lo o e maxAddrBytes : Int} {pathId : Nat}
    (hlo : lo ≤ max 0 o) : (bgpNlriPrefix mv o e maxAddrBytes pathId).Within lo e := by
  rw [bgpNlriPrefix]
  split
  · exact within_pure _
  · rename_i h
    rw [not_not, haveRange_iff] at h
    refine (within_rdU8 mv (by omega) (by omega)).bind ?_
    dsimp only
    split
    · exact within_pure _
    · exact within_pure _

/-- A prefix is stepped over exactly when all of it is there and it is not too wide. -/
theorem bgpNlriPrefix_steps (mv : Bytes) (o e maxAddrBytes : Int) (pathId : Nat) {nbytes : Int}
    (hbytes : nbytes = ((byteAt mv o + 7) / 8 : Nat)) :
    (bgpNlriPrefix mv o e maxAddrBytes pathId).value.1 = -1 ∧
        ¬(0 ≤ o ∧ o + 1 + nbytes ≤ e ∧ nbytes ≤ maxAddrBytes) ∨
      (0 ≤ o ∧ o + 1 + nbytes ≤ e ∧ nbytes ≤ maxAddrBytes) ∧
        (bgpNlriPrefix mv o e maxAddrBytes pathId).value =
          (o + 1 + nbytes, ⟨pathId, byteAt mv o, o + 1⟩) := by
  rw [bgpNlriPrefix, hbytes]
  by_cases h : 0 ≤ o ∧ o + 1 ≤ e
  · rw [if_neg (by simp [h])]
    simp only [value_bind]
    by_cases hwide : ((((rdU8 mv o).value + 7) / 8 : Nat) : Int) > maxAddrBytes ∨
        ¬haveRange (o + 1) e (((rdU8 mv o).value + 7) / 8 : Nat)
    · rw [if_pos hwide]
      rw [haveRange_iff, value_rdU8] at hwide
      exact .inl ⟨rfl, by omega⟩
    · rw [if_neg hwide]
      rw [haveRange_iff, value_rdU8] at hwide
      exact .inr ⟨by omega, rfl⟩
  · rw [if_pos (by simpa using h)]
    exact .inl ⟨rfl, by omega⟩

/-- The same of an entry, with its path identifier in front. -/
theorem bgpNlriNext_steps (mv : Bytes) (o e : Int) (addPath : Bool) (maxAddrBytes : Int)
    {at_ nbytes : Int} (hat : at_ = o + if addPath then 4 else 0)
    (hbytes : nbytes = ((byteAt mv at_ + 7) / 8 : Nat)) :
    (bgpNlriNext mv o e addPath maxAddrBytes).value.1 = -1 ∧
        ¬(0 ≤ o ∧ at_ + 1 + nbytes ≤ e ∧ nbytes ≤ maxAddrBytes) ∨
      (0 ≤ o ∧ at_ + 1 + nbytes ≤ e ∧ nbytes ≤ maxAddrBytes) ∧
        ∃ pathId, (bgpNlriNext mv o e addPath maxAddrBytes).value =
          (at_ + 1 + nbytes, ⟨pathId, byteAt mv at_, at_ + 1⟩) := by
  rw [bgpNlriNext]
  by_cases hend : o ≥ e
  · rw [if_pos hend]
    exact .inl ⟨rfl, by split at hat <;> omega⟩
  · rw [if_neg hend]
    cases addPath
    · rw [if_neg Bool.false_ne_true, Int.add_zero] at hat
      subst hat
      rw [if_neg Bool.false_ne_true]
      rcases bgpNlriPrefix_steps mv at_ e maxAddrBytes 0 hbytes with hstop | ⟨hfits, hvalue⟩
      · exact .inl hstop
      · exact .inr ⟨hfits, 0, hvalue⟩
    · rw [if_pos rfl] at hat
      rw [if_pos rfl, hat]
      rw [hat] at hbytes
      by_cases hid : haveRange o e 4
      · rw [if_neg (not_not.mpr hid)]
        rw [haveRange_iff] at hid
        simp only [value_bind]
        rcases bgpNlriPrefix_steps mv (o + 4) e maxAddrBytes (rdU32 mv o).value hbytes with
          ⟨hstop, hnot⟩ | ⟨hfits, hvalue⟩
        · exact .inl ⟨hstop, by omega⟩
        · exact .inr ⟨by omega, _, hvalue⟩
      · rw [if_pos hid]
        rw [haveRange_iff] at hid
        exact .inl ⟨rfl, by omega⟩

def nlri (addPath : Bool) (maxAddrBytes : Int) : Primitive NlriOut where
  next mv o e := bgpNlriNext mv o e addPath maxAddrBytes
  span out := (out.addrStart, out.addrStart + ((out.plen + 7) / 8 : Nat))
  declares := nlriDeclares addPath maxAddrBytes
  within := by
    intro mv o e
    rw [bgpNlriNext]
    split
    · exact within_pure _
    · split
      · split
        · exact within_pure _
        · rename_i h
          rw [not_not, haveRange_iff] at h
          exact (within_rdU32 mv (by omega) (by omega)).bind (within_bgpNlriPrefix (by omega))
      · exact within_bgpNlriPrefix (by omega)
  ahead := by
    intro mv o e value h
    rw [nlriDeclares] at h
    obtain ⟨⟨hzero, hle, -⟩, h⟩ := Option.ite_none_right_eq_some.mp h
    cases h
    refine ⟨hzero, ?_, hle, by omega⟩
    dsimp only
    split <;> omega
  meets := by
    intro mv o e
    rw [nlriDeclares]
    rcases bgpNlriNext_steps mv o e addPath maxAddrBytes rfl rfl with
      ⟨hstop, hnot⟩ | ⟨⟨hzero, hle, hwide⟩, pathId, hvalue⟩
    · refine .inl ⟨hstop, fun value hvalue => ?_⟩
      obtain ⟨⟨hzero, -, hwide⟩, hvalue⟩ := Option.ite_none_right_eq_some.mp hvalue
      cases hvalue
      omega
    · rw [hvalue, min_eq_left hle]
      exact .inr ⟨if_pos ⟨hzero, by omega, hwide⟩, rfl⟩

theorem nlri_whole (addPath : Bool) (maxAddrBytes : Int) (mv : Bytes) (e o : Int) :
    ((nlri addPath maxAddrBytes).step mv e o).1 = -1 ∨
      ((nlri addPath maxAddrBytes).span ((nlri addPath maxAddrBytes).step mv e o).2).2 =
        ((nlri addPath maxAddrBytes).step mv e o).1 := by
  rcases bgpNlriNext_steps mv o e addPath maxAddrBytes rfl rfl with ⟨hstop, -⟩ | ⟨-, pathId, hvalue⟩
  · exact .inl hstop
  · right
    rw [Primitive.step, nlri, hvalue]

def seg (as4 : Bool) : Primitive SegOut where
  next mv o e := bgpAspathSegNext mv o e as4
  span out := (out.asnStart, out.asnStart + out.count * if as4 then 4 else 2)
  declares := segDeclares as4
  within := by
    intro mv o e
    rw [bgpAspathSegNext]
    split
    · exact within_pure _
    · rename_i h
      rw [not_not, haveRange_iff] at h
      exact (within_rdU8 mv (by omega) (by omega)).bind
        ((within_rdU8 mv (by omega) (by omega)).bind (within_pure _))
  ahead := by
    intro mv o e value h
    rw [segDeclares] at h
    split at h
    · cases h
      dsimp only
      split <;> omega
    · cases h
  meets := by
    intro mv o e
    rw [bgpAspathSegNext, segDeclares]
    by_cases h : 0 ≤ o ∧ o + 2 ≤ e
    · rw [if_neg (by simp [h]), if_pos h]
      cases as4
      · exact .inr ⟨rfl, clamped _ e⟩
      · exact .inr ⟨rfl, clamped _ e⟩
    · rw [if_pos (by simpa using h), if_neg h]
      exact .inl ⟨rfl, by simp⟩

/-- `iter_caps` -/
def iterCaps (buf : Bytes) (s e : Int) : Option (List CapOut) := cap.elements buf s e

/-- `iter_attrs` -/
def iterAttrs (buf : Bytes) (s e : Int) : Option (List AttrOut) := attr.elements buf s e

/-- `iter_nlri` -/
def iterNlri (buf : Bytes) (s e : Int) (addPath : Bool) (maxAddrBytes : Int) :
    Option (List NlriOut) := (nlri addPath maxAddrBytes).elements buf s e

/-- `iter_aspath` -/
def iterAspath (buf : Bytes) (s e : Int) (as4 : Bool) : Option (List SegOut) :=
  (seg as4).elements buf s e

/-- Every call reads inside its block and makes progress or says that it cannot; a loop over the
calls visits consecutive elements and ends, at the end of the block with none cut short exactly
when the lengths tile it. -/
theorem primitives_in_bounds (mv : Bytes) (e : Int) (he : e ≤ mv.length) :
    (cap.InBounds mv e ∧ cap.Walks mv e) ∧ (attr.InBounds mv e ∧ attr.Walks mv e) ∧
      (∀ addPath maxAddrBytes, (nlri addPath maxAddrBytes).InBounds mv e ∧
        (nlri addPath maxAddrBytes).Walks mv e ∧
        ∀ o, ((nlri addPath maxAddrBytes).step mv e o).1 = -1 ∨
          ((nlri addPath maxAddrBytes).span ((nlri addPath maxAddrBytes).step mv e o).2).2 =
            ((nlri addPath maxAddrBytes).step mv e o).1) ∧
      ∀ as4, (seg as4).InBounds mv e ∧ (seg as4).Walks mv e :=
  ⟨⟨cap.inBounds he, cap.walks he⟩, ⟨attr.inBounds he, attr.walks he⟩,
    fun addPath maxAddrBytes => ⟨(nlri addPath maxAddrBytes).inBounds he,
      (nlri addPath maxAddrBytes).walks he, nlri_whole addPath maxAddrBytes mv e⟩,
    fun as4 => ⟨(seg as4).inBounds he, (seg as4).walks he⟩⟩

/-- Two capabilities without a value. -/
theorem primitives_in_bounds_capabilities :
    iterCaps [2, 0, 6, 0] 0 4 = some [⟨2, 2, 2⟩, ⟨6, 4, 4⟩] ∧
      Tiles (cap.declaredEnd [2, 0, 6, 0] 4) 4 0 := by
  have hiter :
      cap.iter [2, 0, 6, 0] 0 4 = some ([⟨0, 2, ⟨2, 2, 2⟩⟩, ⟨2, 4, ⟨6, 4, 4⟩⟩], 4) := by decide
  obtain ⟨visits, stop, hwalk, helements, -, -, -, -, htiles, -⟩ :=
    (primitives_in_bounds [2, 0, 6, 0] 4 (by decide)).1.2 0
  rw [hiter] at hwalk
  obtain ⟨rfl, rfl⟩ := Prod.mk.inj (Option.some.inj hwalk)
  exact ⟨helements (by decide), htiles.mpr ⟨rfl, by decide⟩⟩

/-- A capability of five bytes in a block without them: the walk stops at the end of the
block all the same. -/
theorem not_covers_iff_tiles :
    ¬∀ (mv : Bytes) (e s stop : Int) (visits : List (Visit CapOut)),
      e ≤ mv.length → 0 ≤ s → cap.iter mv s e = some (visits, stop) →
        (stop = e ↔ Tiles (cap.declaredEnd mv e) e s) := by
  intro h
  have htiles := (h [1, 5] 2 0 2 [⟨0, 2, ⟨1, 2, 7⟩⟩] (by decide) (by decide) (by decide)).mp rfl
  cases htiles with
  | step hfirst hrest =>
    have hseven : cap.declaredEnd [1, 5] 2 0 = some 7 := by decide
    rw [hseven] at hfirst
    cases hfirst
    cases hrest with
    | step hnone _ =>
      have hpast : cap.declaredEnd [1, 5] 2 7 = none := by decide
      rw [hpast] at hnone
      cases hnone

end Packets.Bgp.Primitives
