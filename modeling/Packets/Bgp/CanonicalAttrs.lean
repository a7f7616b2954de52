/-
An attribute set as an object (`plugins/bgp/attrs.pyx`, `AttrSet`, `attrs_finalize`,
`attrs_cmp`).

It means an `AttrSet`: a value whose bit is off takes no part, nor the interning table's bit.
-/
import Packets.Bgp.AsPathSegments
import Mathlib.Order.Compare

namespace Packets

def ATTRF_MED : UInt8 := 0x01
def ATTRF_LOCAL_PREF : UInt8 := 0x02
def ATTRF_ATOMIC_AGGREGATE : UInt8 := 0x04
def ATTRF_ORIGINATOR_ID : UInt8 := 0x08
/-- The bits that stand for attributes. -/
def ATTRF_PRESENCE : UInt8 :=
  ATTRF_MED ||| ATTRF_LOCAL_PREF ||| ATTRF_ATOMIC_AGGREGATE ||| ATTRF_ORIGINATOR_ID

/-- `AttrSet`, field by field. -/
structure AttrObject where
  origin : UInt8
  flags : UInt8
  asPath : Bytes
  nexthop : Bytes
  nexthopLocal : Bytes
  med : UInt32
  localPref : UInt32
  communities : Bytes
  extCommunities : Bytes
  largeCommunities : Bytes
  originatorId : UInt32
  clusterList : Bytes
  aggregator : Bytes
  unknown : Bytes
  asPathLen : UInt32
  neighborAs : UInt32
  clusterLen : UInt16
  hash : UInt64
deriving DecidableEq

/-- `attrs_blank`: every field at its empty default. -/
def attrsBlank : AttrObject where
  origin := ORIGIN_IGP
  flags := 0
  asPath := []
  nexthop := []
  nexthopLocal := []
  med := 0
  localPref := 0
  communities := []
  extCommunities := []
  largeCommunities := []
  originatorId := 0
  clusterList := []
  aggregator := []
  unknown := []
  asPathLen := 0
  neighborAs := 0
  clusterLen := 0
  hash := 0

/-- A value that counts when its bit is on. -/
def flagged (flags bit : UInt8) (value : UInt32) : Option UInt32 :=
  if flags &&& bit ≠ 0 then some value else none

/-- What an object means. -/
def AttrObject.meaning (o : AttrObject) : AttrSet where
  origin := o.origin
  asPath := o.asPath
  nexthop := o.nexthop
  nexthopLocal := o.nexthopLocal
  med := flagged o.flags ATTRF_MED o.med
  localPref := flagged o.flags ATTRF_LOCAL_PREF o.localPref
  atomicAggregate := o.flags &&& ATTRF_ATOMIC_AGGREGATE ≠ 0
  communities := o.communities
  extCommunities := o.extCommunities
  largeCommunities := o.largeCommunities
  originatorId := flagged o.flags ATTRF_ORIGINATOR_ID o.originatorId
  clusterList := o.clusterList
  aggregator := o.aggregator
  unknown := o.unknown

/-- One segment as its header describes it, the members not taken apart. -/
def nextHeader : Records.Reader (UInt8 × UInt8 × Bytes) UInt8
  | segType :: count :: rest =>
    if rest.length < 4 * count.toNat then none
    else some ((segType, count, rest.take (4 * count.toNat)), rest.drop (4 * count.toNat))
  | _ => none

/-- The length so far, and the neighbouring AS once it is known. -/
structure PathWalk where
  total : UInt32 := 0
  nbr : Option UInt32 := none

/-- The body of the walk.  Confederation segments add nothing and name no neighbour. -/
def PathWalk.step (w : PathWalk) (seg : UInt8 × UInt8 × Bytes) : PathWalk :=
  let first := if seg.2.1 ≠ 0 then some (rdU32 seg.2.2) else none
  if seg.1 = AS_SEQUENCE then ⟨w.total + seg.2.1.toUInt32, w.nbr.or first⟩
  else if seg.1 = AS_SET then ⟨w.total + 1, w.nbr.or first⟩
  else w

/-- `_walk_as_path`: the path length and the neighbouring AS in one pass. -/
def walkAsPath (path : Bytes) : UInt32 × UInt32 :=
  let w := (Records.readAll nextHeader path.length path).1.foldl PathWalk.step {}
  (w.total, w.nbr.getD 0)

/-- One step of FNV-1a, in the 64 bits of a C `long`. -/
def fnv (acc octet : UInt64) : UInt64 := (acc ^^^ octet) * 16777619

/-- `_hash_bytes`: the bytes, and their number. -/
def hashBytes (h : UInt64) (v : Bytes) : UInt64 :=
  fnv (v.foldl (fun acc b => fnv acc b.toUInt64) h) (UInt64.ofNat v.length)

/-- `_hash_u32`: the low octet first. -/
def hashU32 (h : UInt64) (v : UInt32) : UInt64 :=
  [v &&& 0xff, (v >>> 8) &&& 0xff, (v >>> 16) &&& 0xff, (v >>> 24) &&& 0xff].foldl
    (fun acc octet => fnv acc octet.toUInt64) h

/-- A value that is hashed when its bit is on. -/
def hashFlagged (h : UInt64) (flags bit : UInt8) (value : UInt32) : UInt64 :=
  if flags &&& bit ≠ 0 then hashU32 h value else h

/-- All ones is -1, the error value of a hash. -/
def hashValue (h : UInt64) : UInt64 := if h = 0xffffffffffffffff then 0xfffffffffffffffe else h

/-- The hash `attrs_finalize` caches, of the canonical fields. -/
def hashFields (o : AttrObject) : UInt64 :=
  let h := hashU32 2166136261 o.origin.toUInt32
  let h := hashU32 h (o.flags &&& ATTRF_PRESENCE).toUInt32
  let h := hashBytes h o.asPath
  let h := hashBytes h o.nexthop
  let h := hashBytes h o.nexthopLocal
  let h := hashFlagged h o.flags ATTRF_MED o.med
  let h := hashFlagged h o.flags ATTRF_LOCAL_PREF o.localPref
  let h := hashBytes h o.communities
  let h := hashBytes h o.extCommunities
  let h := hashBytes h o.largeCommunities
  let h := hashFlagged h o.flags ATTRF_ORIGINATOR_ID o.originatorId
  let h := hashBytes h o.clusterList
  let h := hashBytes h o.aggregator
  let h := hashBytes h o.unknown
  hashValue h

/-- The fields `attrs_finalize` canonicalises and derives. -/
def canonicalFields (o : AttrObject) : AttrObject :=
  let clusterList := o.clusterList.take (o.clusterList.length / 4 * 4)
  let walk := walkAsPath o.asPath
  { o with
    communities := sortGroupsOnce 4 o.communities
    extCommunities := sortGroupsOnce 8 o.extCommunities
    largeCommunities := sortGroupsOnce 12 o.largeCommunities
    unknown := sortUnknown o.unknown
    clusterList := clusterList
    clusterLen := UInt16.ofNat (clusterList.length / 4)
    asPathLen := walk.1
    neighborAs := walk.2 }

def AttrObject.setHash (o : AttrObject) (h : UInt64) : AttrObject := { o with hash := h }

/-- `attrs_finalize`: canonicalise, derive the cached fields and compute the hash. -/
def attrsFinalize (o : AttrObject) : AttrObject :=
  (canonicalFields o).setHash (hashFields (canonicalFields o))

/-- `_cmp_bytes`: the shorter first, then byte by byte. -/
def cmpBytes (x y : Bytes) : Ordering := (compare x.length y.length).then (compare x y)

/-- Values that are compared when the bit is on. -/
def cmpFlagged (flags bit : UInt8) (x y : UInt32) : Ordering :=
  if flags &&& bit ≠ 0 then compare x y else .eq

/-- `attrs_cmp`, as the sign it returns. -/
def attrsCmp (a b : AttrObject) : Ordering :=
  let fa := a.flags &&& ATTRF_PRESENCE
  let fb := b.flags &&& ATTRF_PRESENCE
  (compare a.origin b.origin).then <|
  (compare fa fb).then <|
  (cmpBytes a.asPath b.asPath).then <|
  (cmpBytes a.nexthop b.nexthop).then <|
  (cmpBytes a.nexthopLocal b.nexthopLocal).then <|
  (cmpFlagged fa ATTRF_MED a.med b.med).then <|
  (cmpFlagged fa ATTRF_LOCAL_PREF a.localPref b.localPref).then <|
  (cmpBytes a.communities b.communities).then <|
  (cmpBytes a.extCommunities b.extCommunities).then <|
  (cmpBytes a.largeCommunities b.largeCommunities).then <|
  (cmpFlagged fa ATTRF_ORIGINATOR_ID a.originatorId b.originatorId).then <|
  (cmpBytes a.clusterList b.clusterList).then <|
  (cmpBytes a.aggregator b.aggregator).then <|
  cmpBytes a.unknown b.unknown

theorem nextTlv_consumes : Records.Consumes nextTlv := by
  intro s t rest h
  rcases s with _ | ⟨flags, _ | ⟨atype, _ | ⟨len, tail⟩⟩⟩
  iterate 3 simp [nextTlv] at h
  simp only [nextTlv] at h
  split at h
  · cases tail with
    | nil => simp at h
    | cons low tail =>
      simp only at h
      split at h
      · simp at h
      · simp only [Option.some.injEq, Prod.mk.injEq] at h
        rw [← h.2]
        simp only [List.length_drop, List.length_cons]
        omega
  · split at h
    · simp at h
    · simp only [Option.some.injEq, Prod.mk.injEq] at h
      rw [← h.2]
      simp only [List.length_drop, List.length_cons]
      omega

/-- A TLV is read again from its own bytes, whatever follows them. -/
theorem nextTlv_append {s rest : Bytes} {t : UInt8 × Bytes} (h : nextTlv s = some (t, rest))
    (rest' : Bytes) : nextTlv (t.2 ++ rest') = some (t, rest') := by
  rcases s with _ | ⟨flags, _ | ⟨atype, _ | ⟨len, tail⟩⟩⟩
  iterate 3 simp [nextTlv] at h
  simp only [nextTlv] at h
  split at h
  · next hext =>
      cases tail with
      | nil => simp at h
      | cons low tail =>
        simp only at h
        split at h
        · simp at h
        · next hfit =>
            simp only [Option.some.injEq, Prod.mk.injEq] at h
            have htake : (tail.take (len.toNat * 256 + low.toNat)).length =
                len.toNat * 256 + low.toNat :=
              List.length_take_of_le (Nat.not_lt.mp hfit)
            rw [← h.1]
            simp only [List.cons_append, nextTlv, if_pos hext, List.length_append, htake,
              List.take_left' htake, List.drop_left' htake]
            rw [if_neg (by omega)]
  · next hext =>
      split at h
      · simp at h
      · next hfit =>
          simp only [Option.some.injEq, Prod.mk.injEq] at h
          have htake : (tail.take len.toNat).length = len.toNat :=
            List.length_take_of_le (Nat.not_lt.mp hfit)
          rw [← h.1]
          simp only [List.cons_append, nextTlv, if_neg hext, List.length_append, htake,
            List.take_left' htake, List.drop_left' htake]
          rw [if_neg (by omega)]

theorem tlvs_flatten {v : Bytes} {ts : List (UInt8 × Bytes)} (h : ts ⊆ tlvs v) :
    tlvs (ts.map Prod.snd).flatten = ts := by
  have hread : ∀ t ∈ tlvs v, ∀ rest, nextTlv (t.2 ++ rest) = some (t, rest) :=
    Records.readAll_forall nextTlv _ (fun _ _ _ hnext => nextTlv_append hnext) _ v
  have hrun : Records.readAll nextTlv (ts.flatMap Prod.snd ++ []).length
      (ts.flatMap Prod.snd ++ []) = (ts, []) :=
    Records.readAll_flatMap nextTlv_consumes (fun t ht => hread t (h ht)) rfl
  rw [List.append_nil, List.flatMap_def] at hrun
  rw [tlvs, hrun]

instance : Std.Total fun x y : UInt8 × Bytes => tlvLe x y = true where
  total x y := by
    simp only [tlvLe, Bool.or_eq_true, Bool.and_eq_true, decide_eq_true_eq, beq_iff_eq]
    by_cases heq : x.1 = y.1
    · rcases Std.Total.total (r := (· ≤ ·)) x.2 y.2 with hle | hle
      · exact .inl (.inr ⟨heq, hle⟩)
      · exact .inr (.inr ⟨heq.symm, hle⟩)
    · rcases UInt8.lt_or_lt_of_ne heq with hlt | hgt
      · exact .inl (.inl hlt)
      · exact .inr (.inl hgt)

instance : IsTrans (UInt8 × Bytes) fun x y => tlvLe x y = true where
  trans x y z := by
    simp only [tlvLe, Bool.or_eq_true, Bool.and_eq_true, decide_eq_true_eq, beq_iff_eq]
    rintro (hxy | ⟨hxy, hle⟩) (hyz | ⟨hyz, hle'⟩)
    · exact .inl (UInt8.lt_trans hxy hyz)
    · exact .inl (hyz ▸ hxy)
    · exact .inl (hxy ▸ hyz)
    · exact .inr ⟨hxy.trans hyz, List.le_trans hle hle'⟩

instance : Std.Antisymm fun x y : UInt8 × Bytes => tlvLe x y = true where
  antisymm x y := by
    simp only [tlvLe, Bool.or_eq_true, Bool.and_eq_true, decide_eq_true_eq, beq_iff_eq]
    rintro (hxy | ⟨hxy, hle⟩) (hyx | ⟨hyx, hle'⟩)
    · exact absurd (UInt8.lt_trans hxy hyx) (UInt8.lt_irrefl _)
    · exact absurd (hyx ▸ hxy) (UInt8.lt_irrefl _)
    · exact absurd (hxy ▸ hyx) (UInt8.lt_irrefl _)
    · exact Prod.ext hxy (List.le_antisymm hle hle')

theorem tlvs_sortUnknown (v : Bytes) :
    tlvs (sortUnknown v) = (tlvs v).insertionSort fun x y => tlvLe x y :=
  tlvs_flatten (v := v) fun _ ht => (List.mem_insertionSort _).mp ht

theorem sortUnknown_sortUnknown (v : Bytes) : sortUnknown (sortUnknown v) = sortUnknown v := by
  have hsorted := List.pairwise_insertionSort (fun x y : UInt8 × Bytes => tlvLe x y = true) (tlvs v)
  rw [sortUnknown, tlvs_sortUnknown, hsorted.insertionSort_eq, ← sortUnknown]

theorem sortUnknown_perm {v w : Bytes} (h : (tlvs v).Perm (tlvs w)) :
    sortUnknown v = sortUnknown w := by
  have hsort : ((tlvs v).insertionSort fun x y => tlvLe x y) =
      (tlvs w).insertionSort fun x y => tlvLe x y := by
    apply List.Perm.eq_of_pairwise' (List.pairwise_insertionSort _ _)
      (List.pairwise_insertionSort _ _)
    exact ((List.perm_insertionSort _ _).trans h).trans (List.perm_insertionSort _ _).symm
  rw [sortUnknown, hsort, ← sortUnknown]

theorem meaning_canonicalFields (o : AttrObject) :
    (canonicalFields o).meaning = o.meaning.finalize := by
  simp only [canonicalFields, AttrObject.meaning, AttrSet.finalize, sortGroupsOnce_eq]

@[simp] theorem meaning_setHash (o : AttrObject) (h : UInt64) :
    (o.setHash h).meaning = o.meaning := rfl

@[simp] theorem hash_setHash (o : AttrObject) (h : UInt64) : (o.setHash h).hash = h := rfl

@[simp] theorem setHash_setHash (o : AttrObject) (h h' : UInt64) :
    (o.setHash h).setHash h' = o.setHash h' := rfl

theorem canonicalFields_setHash (o : AttrObject) (h : UInt64) :
    canonicalFields (o.setHash h) = (canonicalFields o).setHash h := rfl

theorem meaning_attrsFinalize (o : AttrObject) :
    (attrsFinalize o).meaning = o.meaning.finalize := by
  rw [attrsFinalize, meaning_setHash, meaning_canonicalFields]

theorem take_whole_take (v : Bytes) (width : Nat) :
    (v.take (v.length / width * width)).take
        ((v.take (v.length / width * width)).length / width * width) =
      v.take (v.length / width * width) := by
  have hlen : (v.take (v.length / width * width)).length = v.length / width * width :=
    List.length_take_of_le (Nat.div_mul_le_self _ _)
  apply List.take_of_length_le
  rw [hlen]
  rcases Nat.eq_zero_or_pos width with rfl | hpos
  · simp
  · rw [Nat.mul_div_cancel _ hpos]

/-- The presence bits as the attributes they stand for. -/
def bitsOf (med localPref atomicAggregate originatorId : Bool) : UInt8 :=
  (if med then ATTRF_MED else 0) ||| (if localPref then ATTRF_LOCAL_PREF else 0) |||
    (if atomicAggregate then ATTRF_ATOMIC_AGGREGATE else 0) |||
    (if originatorId then ATTRF_ORIGINATOR_ID else 0)

def AttrSet.presence (a : AttrSet) : UInt8 :=
  bitsOf a.med.isSome a.localPref.isSome a.atomicAggregate a.originatorId.isSome

theorem isSome_flagged (flags bit : UInt8) (value : UInt32) :
    (flagged flags bit value).isSome = decide (flags &&& bit ≠ 0) := by
  rw [flagged]
  split <;> simp_all

theorem bitsOf_flags (flags : UInt8) :
    bitsOf (decide (flags &&& ATTRF_MED ≠ 0)) (decide (flags &&& ATTRF_LOCAL_PREF ≠ 0))
      (decide (flags &&& ATTRF_ATOMIC_AGGREGATE ≠ 0))
      (decide (flags &&& ATTRF_ORIGINATOR_ID ≠ 0)) = flags &&& ATTRF_PRESENCE := by
  have hall : ∀ i : Fin 256, bitsOf (decide (UInt8.ofFin i &&& ATTRF_MED ≠ 0))
      (decide (UInt8.ofFin i &&& ATTRF_LOCAL_PREF ≠ 0))
      (decide (UInt8.ofFin i &&& ATTRF_ATOMIC_AGGREGATE ≠ 0))
      (decide (UInt8.ofFin i &&& ATTRF_ORIGINATOR_ID ≠ 0)) =
        UInt8.ofFin i &&& ATTRF_PRESENCE := by decide +kernel
  exact hall flags.toFin

theorem bitsOf_inj : ∀ m p t o m' p' t' o' : Bool, bitsOf m p t o = bitsOf m' p' t' o' →
    m = m' ∧ p = p' ∧ t = t' ∧ o = o' := by decide +kernel

theorem presence_meaning (o : AttrObject) : o.meaning.presence = o.flags &&& ATTRF_PRESENCE := by
  rw [← bitsOf_flags, AttrSet.presence]
  simp only [AttrObject.meaning, isSome_flagged]

theorem flagged_presence (flags : UInt8) {bit : UInt8} {value : UInt32}
    (h : ATTRF_PRESENCE &&& bit = bit) :
    flagged (flags &&& ATTRF_PRESENCE) bit value = flagged flags bit value := by
  rw [flagged, flagged, UInt8.and_assoc, h]

/-- A value that is hashed when it is there. -/
def hashOptional (h : UInt64) (value : Option UInt32) : UInt64 := value.elim h (hashU32 h)

/-- The hash of a set. -/
def AttrSet.hash (a : AttrSet) : UInt64 :=
  let h := hashU32 2166136261 a.origin.toUInt32
  let h := hashU32 h a.presence.toUInt32
  let h := hashBytes h a.asPath
  let h := hashBytes h a.nexthop
  let h := hashBytes h a.nexthopLocal
  let h := hashOptional h a.med
  let h := hashOptional h a.localPref
  let h := hashBytes h a.communities
  let h := hashBytes h a.extCommunities
  let h := hashBytes h a.largeCommunities
  let h := hashOptional h a.originatorId
  let h := hashBytes h a.clusterList
  let h := hashBytes h a.aggregator
  let h := hashBytes h a.unknown
  hashValue h

theorem hashFlagged_eq (h : UInt64) (flags bit : UInt8) (value : UInt32) :
    hashFlagged h flags bit value = hashOptional h (flagged flags bit value) := by
  rw [hashFlagged, hashOptional, flagged]
  split
  · rw [Option.elim_some]
  · rw [Option.elim_none]

theorem hashFields_eq (o : AttrObject) : hashFields o = o.meaning.hash := by
  simp only [hashFields, AttrSet.hash, hashFlagged_eq, ← presence_meaning]
  simp only [AttrObject.meaning]

theorem hash_attrsFinalize (o : AttrObject) : (attrsFinalize o).hash = o.meaning.finalize.hash := by
  rw [attrsFinalize, hash_setHash, hashFields_eq, meaning_canonicalFields]

theorem canonicalFields_canonicalFields (o : AttrObject) :
    canonicalFields (canonicalFields o) = canonicalFields o := by
  simp only [canonicalFields, sortGroupsOnce_eq, sortGroups_sortGroups (show 0 < 4 by decide),
    sortGroups_sortGroups (show 0 < 8 by decide),
    sortGroups_sortGroups (show 0 < 12 by decide), sortUnknown_sortUnknown, take_whole_take]

theorem attrsFinalize_attrsFinalize (o : AttrObject) :
    attrsFinalize (attrsFinalize o) = attrsFinalize o := by
  have hhash : ∀ h, hashFields ((canonicalFields o).setHash h) =
      hashFields (canonicalFields o) := by
    intro h
    rw [hashFields_eq, hashFields_eq, meaning_setHash]
  rw [attrsFinalize, attrsFinalize, canonicalFields_setHash, canonicalFields_canonicalFields,
    hhash, setHash_setHash]

section

variable {α : Type} (key : AttrSet → α) (cmp : α → α → Ordering)

/-- Sets compared by one field. -/
def byField (a b : AttrSet) : Ordering := cmp (key a) (key b)

instance [Std.TransCmp cmp] : Std.TransCmp (byField key cmp) where
  eq_swap := by
    intro a b
    rw [byField, byField]
    exact Std.OrientedCmp.eq_swap
  isLE_trans := by
    intro a b c hab hbc
    rw [byField] at hab hbc ⊢
    exact Std.TransCmp.isLE_trans hab hbc

instance : Std.TransCmp cmpBytes :=
  inferInstanceAs (Std.TransCmp (compareLex (compareOn List.length) compare))

instance : Std.LawfulEqCmp cmpBytes where
  compare_self := by
    intro x
    simp [cmpBytes]
  eq_of_compare := by
    intro x y h
    rw [cmpBytes, Ordering.then_eq_eq] at h
    exact Std.LawfulEqCmp.eq_of_compare h.2

end

theorem cmpBytes_eq_iff {x y : Bytes} : cmpBytes x y = .eq ↔ x = y :=
  Std.LawfulEqCmp.compare_eq_iff_eq

/-- The order of sets, field by field. -/
def attrsOrder : AttrSet → AttrSet → Ordering :=
  compareLex (byField AttrSet.origin compare) <|
  compareLex (byField AttrSet.presence compare) <|
  compareLex (byField AttrSet.asPath cmpBytes) <|
  compareLex (byField AttrSet.nexthop cmpBytes) <|
  compareLex (byField AttrSet.nexthopLocal cmpBytes) <|
  compareLex (byField (fun a => a.med.getD 0) compare) <|
  compareLex (byField (fun a => a.localPref.getD 0) compare) <|
  compareLex (byField AttrSet.communities cmpBytes) <|
  compareLex (byField AttrSet.extCommunities cmpBytes) <|
  compareLex (byField AttrSet.largeCommunities cmpBytes) <|
  compareLex (byField (fun a => a.originatorId.getD 0) compare) <|
  compareLex (byField AttrSet.clusterList cmpBytes) <|
  compareLex (byField AttrSet.aggregator cmpBytes) <|
  byField AttrSet.unknown cmpBytes

instance : Std.TransCmp attrsOrder := by
  rw [attrsOrder]
  infer_instance

/-- The order of objects is the order of what they mean. -/
theorem attrsCmp_eq (a b : AttrObject) : attrsCmp a b = attrsOrder a.meaning b.meaning := by
  by_cases hbits : a.flags &&& ATTRF_PRESENCE = b.flags &&& ATTRF_PRESENCE
  · have hflag : ∀ bit x y, ATTRF_PRESENCE &&& bit = bit →
        cmpFlagged (b.flags &&& ATTRF_PRESENCE) bit x y =
          compare ((flagged a.flags bit x).getD 0) ((flagged b.flags bit y).getD 0) := by
      intro bit x y hbit
      rw [← flagged_presence a.flags hbit, ← flagged_presence b.flags hbit, hbits,
        cmpFlagged, flagged, flagged]
      split
      · rfl
      · simp
    simp only [attrsCmp, attrsOrder, compareLex, byField, presence_meaning, hbits,
      hflag ATTRF_MED _ _ rfl, hflag ATTRF_LOCAL_PREF _ _ rfl, hflag ATTRF_ORIGINATOR_ID _ _ rfl]
    rfl
  · have hdiff : ∀ r r' : Ordering,
        (compare (a.flags &&& ATTRF_PRESENCE) (b.flags &&& ATTRF_PRESENCE)).then r =
          (compare (a.flags &&& ATTRF_PRESENCE) (b.flags &&& ATTRF_PRESENCE)).then r' := by
      intro r r'
      rcases hcmp : compare (a.flags &&& ATTRF_PRESENCE) (b.flags &&& ATTRF_PRESENCE)
      · rfl
      · exact absurd (Std.compare_eq_iff_eq.mp hcmp) hbits
      · rfl
    simp only [attrsCmp, attrsOrder, compareLex, byField, presence_meaning]
    exact congrArg (compare a.origin b.origin).then (hdiff _ _)

/-- Nothing but the same set compares equal. -/
theorem attrsOrder_eq_iff {a b : AttrSet} : attrsOrder a b = .eq ↔ a = b := by
  constructor
  · intro h
    simp only [attrsOrder, compareLex_eq_eq, byField, Std.compare_eq_iff_eq, cmpBytes_eq_iff] at h
    obtain ⟨horigin, hbits, hpath, hnexthop, hlocal, hmed, hpref, hcomm, hext, hlarge, horig,
      hcluster, hagg, hunknown⟩ := h
    have hsome : ∀ {x y : Option UInt32}, x.isSome = y.isSome → x.getD 0 = y.getD 0 → x = y := by
      intro x y hxy hget
      cases x <;> cases y <;> simp_all
    obtain ⟨hm, hp, hatomic, ho⟩ := bitsOf_inj _ _ _ _ _ _ _ _ hbits
    obtain ⟨⟩ := a
    obtain ⟨⟩ := b
    simp only [AttrSet.mk.injEq]
    exact ⟨horigin, hpath, hnexthop, hlocal, hsome hm hmed, hsome hp hpref, hatomic, hcomm, hext,
      hlarge, hsome ho horig, hcluster, hagg, hunknown⟩
  · rintro rfl
    exact Std.ReflCmp.compare_self

/-- A segment with its members taken apart. -/
def segmentOf (seg : UInt8 × UInt8 × Bytes) : Segment := (seg.1, rdGroups 4 seg.2.1.toNat seg.2.2)

theorem rdGroups_take (width n : Nat) (s : Bytes) :
    rdGroups width n (s.take (width * n)) = rdGroups width n s := by
  induction n generalizing s with
  | zero => rfl
  | succ n ih =>
    rw [rdGroups, rdGroups, List.take_take, Nat.mul_succ, Nat.min_eq_left (Nat.le_add_left _ _),
      List.drop_take, Nat.add_sub_cancel, ih]

theorem nextSegment_eq_map (s : Bytes) :
    nextSegment 4 s = (nextHeader s).map (Prod.map segmentOf id) := by
  match s with
  | [] | [_] => rfl
  | segType :: count :: rest =>
    rw [nextSegment, nextHeader]
    split
    · rfl
    · rw [Option.map_some, Prod.map_apply, segmentOf, rdGroups_take]
      rfl

theorem pathSegments_eq_map (path : Bytes) :
    pathSegments 4 path = (Records.readAll nextHeader path.length path).1.map segmentOf :=
  Records.readAll_map nextSegment_eq_map _ _

/-- What a segment adds to the length. -/
def segmentHops (seg : Segment) : Nat :=
  if seg.1 = AS_SEQUENCE then seg.2.length else if seg.1 = AS_SET then 1 else 0

/-- The members that may be the neighbouring AS. -/
def segmentAses (seg : Segment) : List Nat :=
  if seg.1 = AS_SEQUENCE ∨ seg.1 = AS_SET then seg.2 else []

theorem head?_rdGroups (count : UInt8) (s : Bytes) :
    (rdGroups 4 count.toNat s).head?.map UInt32.ofNat =
      if count ≠ 0 then some (rdU32 s) else none := by
  cases hcount : count.toNat with
  | zero =>
    have hzero : count = 0 := UInt8.toNat_inj.mp hcount
    rw [hzero]
    rfl
  | succ n =>
    have hne : count ≠ 0 := by
      intro hzero
      rw [hzero] at hcount
      exact absurd hcount (Nat.succ_ne_zero n).symm
    rw [if_pos hne]
    rfl

/-- One segment of the walk: its hops, and its first member for want of an earlier one. -/
theorem PathWalk.step_eq (w : PathWalk) (seg : UInt8 × UInt8 × Bytes) :
    w.step seg = ⟨w.total + UInt32.ofNat (segmentHops (segmentOf seg)),
      w.nbr.or ((segmentAses (segmentOf seg)).head?.map UInt32.ofNat)⟩ := by
  obtain ⟨segType, count, members⟩ := seg
  have hcount : count.toUInt32 = UInt32.ofNat count.toNat := UInt32.toNat_inj.mp (by simp)
  rw [PathWalk.step, segmentHops, segmentAses, segmentOf]
  simp only [length_rdGroups]
  by_cases hseq : segType = AS_SEQUENCE
  · have hkind : segType = AS_SEQUENCE ∨ segType = AS_SET := .inl hseq
    simp only [if_pos hseq, if_pos hkind, head?_rdGroups, hcount]
  · by_cases hset : segType = AS_SET
    · have hkind : segType = AS_SEQUENCE ∨ segType = AS_SET := .inr hset
      simp only [if_neg hseq, if_pos hset, if_pos hkind, head?_rdGroups]
      rfl
    · have hkind : ¬(segType = AS_SEQUENCE ∨ segType = AS_SET) := by simp [hseq, hset]
      simp only [if_neg hseq, if_neg hset, if_neg hkind]
      simp

theorem foldl_pathWalk (segs : List (UInt8 × UInt8 × Bytes)) (w : PathWalk) :
    segs.foldl PathWalk.step w =
      ⟨w.total + UInt32.ofNat ((segs.map segmentOf).map segmentHops).sum,
        w.nbr.or ((((segs.map segmentOf).map segmentAses).flatten).head?.map UInt32.ofNat)⟩ := by
  induction segs generalizing w with
  | nil => simp
  | cons seg segs ih =>
    rw [List.foldl_cons, ih, PathWalk.step_eq]
    simp only [List.map_cons, List.sum_cons, List.flatten_cons, List.head?_append,
      UInt32.ofNat_add, UInt32.add_assoc, Option.or_assoc, Option.map_or]

/-- The cached length and neighbour are those of the segment list. -/
theorem walkAsPath_eq (a : AttrSet) :
    walkAsPath a.asPath = (UInt32.ofNat a.asPathLen, UInt32.ofNat a.neighborAs) := by
  have hases : ((pathSegments 4 a.asPath).map segmentAses).flatten =
      (a.asPathList.filter fun seg => seg.1 = AS_SEQUENCE || seg.1 = AS_SET).flatMap Prod.snd := by
    rw [AttrSet.asPathList]
    induction pathSegments 4 a.asPath with
    | nil => rfl
    | cons seg segs ih =>
      rw [List.map_cons, List.flatten_cons, ih, List.filter_cons, segmentAses]
      by_cases hkind : seg.1 = AS_SEQUENCE ∨ seg.1 = AS_SET
      · rw [if_pos hkind, if_pos (by simpa using hkind), List.flatMap_cons]
      · rw [if_neg hkind, if_neg (by simpa using hkind), List.nil_append]
  have hhead : ∀ l : List Nat, ((none : Option UInt32).or (l.head?.map UInt32.ofNat)).getD 0 =
      UInt32.ofNat (l.headD 0) := by
    intro l
    cases l <;> rfl
  rw [walkAsPath, foldl_pathWalk, ← pathSegments_eq_map, hases]
  simp only [hhead, UInt32.zero_add]
  rfl

theorem AttrSet.neighborAs_lt (a : AttrSet) : a.neighborAs < 2 ^ 32 := by
  rw [AttrSet.neighborAs]
  cases hases : (a.asPathList.filter fun seg =>
      seg.1 = AS_SEQUENCE || seg.1 = AS_SET).flatMap Prod.snd with
  | nil => decide
  | cons asn rest =>
    have hmem : asn ∈ (a.asPathList.filter fun seg =>
        seg.1 = AS_SEQUENCE || seg.1 = AS_SET).flatMap Prod.snd := hases ▸ List.mem_cons_self
    obtain ⟨seg, hseg, hasn⟩ := List.mem_flatMap.mp hmem
    exact (pathSegments_fits seg (List.mem_of_mem_filter hseg)).members asn hasn

/-- Every hop takes two bytes at least. -/
theorem AttrSet.asPathLen_le (a : AttrSet) : 2 * a.asPathLen ≤ a.asPath.length := by
  have hcost : ∀ s seg rest, nextSegment 4 s = some (seg, rest) →
      2 * segmentHops seg + rest.length ≤ s.length := by
    intro s seg rest h
    obtain ⟨-, rfl⟩ := nextSegment_sound h
    have hlen := length_flatMap_ofNat 4 seg.2
    simp only [encodeSegment, List.length_append, List.length_cons, hlen, segmentHops]
    split
    · omega
    · split <;> omega
  have hpaid := Records.sum_readAll_le hcost a.asPath.length a.asPath
  have hdouble : ∀ segs : List Segment, (segs.map fun seg => 2 * segmentHops seg).sum =
      2 * (segs.map segmentHops).sum := by
    intro segs
    induction segs with
    | nil => rfl
    | cons seg segs ih => simp only [List.map_cons, List.sum_cons, ih, Nat.mul_add]
  rw [hdouble] at hpaid
  exact hpaid

/-- The same records in the three community values, the same preserved attributes in
another order, and every other attribute as it was. -/
structure Rearranges (a b : AttrObject) : Prop where
  communities : ∀ g, g ∈ groupsOf 4 a.communities ↔ g ∈ groupsOf 4 b.communities
  extCommunities : ∀ g, g ∈ groupsOf 8 a.extCommunities ↔ g ∈ groupsOf 8 b.extCommunities
  largeCommunities : ∀ g, g ∈ groupsOf 12 a.largeCommunities ↔ g ∈ groupsOf 12 b.largeCommunities
  unknown : (tlvs a.unknown).Perm (tlvs b.unknown)
  others : { a.meaning with
    communities := [], extCommunities := [], largeCommunities := [], unknown := [] } =
      { b.meaning with
        communities := [], extCommunities := [], largeCommunities := [], unknown := [] }

theorem Rearranges.finalize {a b : AttrObject} (h : Rearranges a b) :
    a.meaning.finalize = b.meaning.finalize := by
  have hothers := h.others
  simp only [AttrSet.mk.injEq] at hothers
  obtain ⟨horigin, hpath, hnexthop, hlocal, hmed, hpref, hatomic, -, -, -, horig, hcluster, hagg,
    -⟩ := hothers
  rw [AttrSet.finalize, AttrSet.finalize]
  simp only [AttrSet.mk.injEq, hcluster]
  exact ⟨horigin, hpath, hnexthop, hlocal, hmed, hpref, hatomic, sortGroups_congr h.communities,
    sortGroups_congr h.extCommunities, sortGroups_congr h.largeCommunities, horig, trivial, hagg,
    sortUnknown_perm h.unknown⟩

/-- Attribute sets that mean the same are the same. -/
theorem attrs_canonical :
    -- rearranging makes no difference to the set or its hash
    (∀ a b, Rearranges a b →
      attrsCmp (attrsFinalize a) (attrsFinalize b) = .eq ∧
        (attrsFinalize a).hash = (attrsFinalize b).hash) ∧
    (∀ a, attrsFinalize (attrsFinalize a) = attrsFinalize a) ∧
    -- the order is total, and what it calls equal is equal
    (∀ a b, attrsCmp b a = (attrsCmp a b).swap) ∧
    (∀ a b c, (attrsCmp a b).isLE → (attrsCmp b c).isLE → (attrsCmp a c).isLE) ∧
    (∀ a b, attrsCmp a b = .eq ↔ a.meaning = b.meaning) ∧
    (∀ a b, attrsCmp (attrsFinalize a) (attrsFinalize b) = .eq →
      (attrsFinalize a).hash = (attrsFinalize b).hash) ∧
    -- the cached numbers are those of the segment list
    (∀ a, (attrsFinalize a).asPathLen = UInt32.ofNat a.meaning.asPathLen ∧
      (a.asPath.length < 2 ^ 33 → (attrsFinalize a).asPathLen.toNat = a.meaning.asPathLen) ∧
      (attrsFinalize a).neighborAs.toNat = a.meaning.neighborAs) := by
  have heq : ∀ a b, attrsCmp a b = .eq ↔ a.meaning = b.meaning := by
    intro a b
    rw [attrsCmp_eq, attrsOrder_eq_iff]
  have hhash : ∀ a b, (attrsFinalize a).meaning = (attrsFinalize b).meaning →
      (attrsFinalize a).hash = (attrsFinalize b).hash := by
    intro a b h
    rw [meaning_attrsFinalize, meaning_attrsFinalize] at h
    rw [hash_attrsFinalize, hash_attrsFinalize, h]
  refine ⟨?_, attrsFinalize_attrsFinalize, ?_, ?_, heq, ?_, ?_⟩
  · intro a b h
    have hmeaning : (attrsFinalize a).meaning = (attrsFinalize b).meaning := by
      rw [meaning_attrsFinalize, meaning_attrsFinalize, h.finalize]
    exact ⟨(heq _ _).mpr hmeaning, hhash a b hmeaning⟩
  · intro a b
    rw [attrsCmp_eq, attrsCmp_eq]
    exact Std.OrientedCmp.eq_swap
  · intro a b c hab hbc
    rw [attrsCmp_eq] at hab hbc ⊢
    exact Std.TransCmp.isLE_trans hab hbc
  · intro a b h
    exact hhash a b ((heq _ _).mp h)
  · intro a
    have hlen : (attrsFinalize a).asPathLen = UInt32.ofNat a.meaning.asPathLen :=
      congrArg Prod.fst (walkAsPath_eq a.meaning)
    have hnbr : (attrsFinalize a).neighborAs = UInt32.ofNat a.meaning.neighborAs :=
      congrArg Prod.snd (walkAsPath_eq a.meaning)
    refine ⟨hlen, ?_, ?_⟩
    · intro hsize
      have hhops : 2 * a.meaning.asPathLen ≤ a.asPath.length := a.meaning.asPathLen_le
      have hword : a.meaning.asPathLen < 2 ^ 32 := by omega
      rw [hlen]
      exact UInt32.toNat_ofNat_of_lt' hword
    · rw [hnbr]
      exact UInt32.toNat_ofNat_of_lt' a.meaning.neighborAs_lt

theorem attrs_canonical_repeated :
    attrsCmp (attrsFinalize { attrsBlank with communities := [0, 1, 0, 2] ++ [0, 1, 0, 1] })
      (attrsFinalize
        { attrsBlank with communities := [0, 1, 0, 1] ++ [0, 1, 0, 2] ++ [0, 1, 0, 1] }) = .eq := by
  have hrearranged : Rearranges { attrsBlank with communities := [0, 1, 0, 2] ++ [0, 1, 0, 1] }
      { attrsBlank with communities := [0, 1, 0, 1] ++ [0, 1, 0, 2] ++ [0, 1, 0, 1] } := by
    refine ⟨?_, fun _ => Iff.rfl, fun _ => Iff.rfl, .refl _, rfl⟩
    intro g
    simp only [groupsOf, wholeGroups, List.length_cons, List.length_nil,
      List.cons_append, List.nil_append, List.take, List.drop, List.mem_cons, List.not_mem_nil,
      Nat.reduceAdd, Nat.reduceDiv, or_false]
    tauto
  exact (attrs_canonical.1 _ _ hrearranged).1

end Packets
