/-
BGP path attribute sets (`plugins/bgp/attrs.pyx`).

The presence bits of MED, LOCAL_PREF and ORIGINATOR_ID are the `some` of an option: a value
whose bit is off takes no part in `attrs_cmp`.
-/
import Packets.Lib.BigEndian
import Packets.Lib.Dict
import Packets.Lib.Records
import Packets.Rib.Prefix
import Mathlib.Data.List.Sort
import Mathlib.Data.List.Dedup

namespace Packets

def ORIGIN_IGP : UInt8 := 0
def ORIGIN_INCOMPLETE : UInt8 := 2

def AS_SET : UInt8 := 1
def AS_SEQUENCE : UInt8 := 2
def AS_CONFED_SEQUENCE : UInt8 := 3
def AS_CONFED_SET : UInt8 := 4

/-- What a 2-octet speaker sees in place of an AS it cannot represent. -/
def AS_TRANS : Nat := 23456

/-- One AS_PATH segment: its type and its members. -/
abbrev Segment := UInt8 × List Nat

/-- The fixed-width big-endian numbers a byte string holds. -/
def rdGroups (width : Nat) : Nat → Bytes → List Nat
  | 0, _ => []
  | n + 1, s => BigEndian.toNat (s.take width) :: rdGroups width n (s.drop width)

/-- Read one segment whose ASNs are `width` bytes wide.  A header without room
for its members stops the walk. -/
def nextSegment (width : Nat) : Records.Reader Segment UInt8
  | segType :: count :: rest =>
    if rest.length < width * count.toNat then none
    else some ((segType, rdGroups width count.toNat rest), rest.drop (width * count.toNat))
  | _ => none

theorem nextSegment_consumes (width : Nat) : Records.Consumes (nextSegment width) := by
  intro s seg rest h
  match s with
  | [] => simp [nextSegment] at h
  | [b] => simp [nextSegment] at h
  | segType :: count :: tail =>
    simp only [nextSegment] at h
    split at h
    · simp at h
    · simp only [Option.some.injEq, Prod.mk.injEq] at h
      rw [← h.2]
      simp only [List.length_drop, List.length_cons]
      omega

/-- The segments of an AS_PATH, up to the first that does not fit. -/
def pathSegments (width : Nat) (path : Bytes) : List Segment :=
  (Records.readAll (nextSegment width) path.length path).1

/-- One segment of at most 255 members on the wire. -/
def encodeSegment (width : Nat) (seg : Segment) : Bytes :=
  seg.1 :: UInt8.ofNat seg.2.length :: seg.2.flatMap (BigEndian.ofNat width)

/-- Consecutive runs of at most `size` elements; one empty run for no elements. -/
def chunksOf (size : Nat) : Nat → List Nat → List (List Nat)
  | 0, l => [l]
  | fuel + 1, l =>
    if l.length ≤ size then [l]
    else l.take size :: chunksOf size fuel (l.drop size)

/-- `make_as_path`: canonical AS_PATH bytes.  A sequence longer than 255 is split;
`none` is the `ValueError` of a longer segment of another type. -/
def makeAsPath : List Segment → Option Bytes
  | [] => some []
  | seg :: rest =>
    if seg.2.length > 255 ∧ seg.1 ≠ AS_SEQUENCE then none
    else
      (makeAsPath rest).map fun tail =>
        (chunksOf 255 seg.2.length seg.2).flatMap
          (fun chunk => encodeSegment 4 (seg.1, chunk)) ++ tail

/-- Distinct byte strings in ascending order. -/
def sortedSet (groups : List Bytes) : List Bytes := groups.dedup.insertionSort (· ≤ ·)

/-- The whole fixed-width records of a byte string. -/
def wholeGroups (width : Nat) : Nat → Bytes → List Bytes
  | 0, _ => []
  | n + 1, s => s.take width :: wholeGroups width n (s.drop width)

/-- `_sort_groups`: the whole records, sorted and without duplicates. -/
def sortGroups (width : Nat) (v : Bytes) : Bytes :=
  (sortedSet (wholeGroups width (v.length / width) v)).flatten

/-- Take one attribute TLV off the front, whole. -/
def nextTlv : Records.Reader (UInt8 × Bytes) UInt8
  | flags :: atype :: len :: rest =>
    if flags &&& 0x10 ≠ 0 then
      match rest with
      | [] => none
      | low :: rest =>
        let vlen := len.toNat * 256 + low.toNat
        if rest.length < vlen then none
        else some ((atype, flags :: atype :: len :: low :: rest.take vlen), rest.drop vlen)
    else if rest.length < len.toNat then none
    else some ((atype, flags :: atype :: len :: rest.take len.toNat), rest.drop len.toNat)
  | _ => none

/-- The complete TLVs of a byte string, up to the first that does not fit. -/
def tlvs (v : Bytes) : List (UInt8 × Bytes) := (Records.readAll nextTlv v.length v).1

/-- The order Python gives `(type, bytes)` pairs. -/
def tlvLe (x y : UInt8 × Bytes) : Bool := x.1 < y.1 || (x.1 == y.1 && decide (x.2 ≤ y.2))

/-- `_sort_unknown`: the complete TLVs ordered by type code. -/
def sortUnknown (v : Bytes) : Bytes :=
  (((tlvs v).insertionSort fun x y => tlvLe x y).map Prod.snd).flatten

/-- `make_communities`: packed, sorted community bytes. -/
def makeCommunities (values : List Nat) : Bytes :=
  ((values.dedup.insertionSort (· ≤ ·)).map (BigEndian.ofNat 4)).flatten

structure AttrSet where
  origin : UInt8 := ORIGIN_IGP
  asPath : Bytes := []
  nexthop : Bytes := []
  nexthopLocal : Bytes := []
  med : Option UInt32 := none
  localPref : Option UInt32 := none
  atomicAggregate : Bool := false
  communities : Bytes := []
  extCommunities : Bytes := []
  largeCommunities : Bytes := []
  originatorId : Option UInt32 := none
  clusterList : Bytes := []
  aggregator : Bytes := []
  unknown : Bytes := []
deriving DecidableEq, Inhabited

/-- `attrs_finalize`: the canonical form, which every set is stored in. -/
def AttrSet.finalize (a : AttrSet) : AttrSet :=
  { a with
    communities := sortGroups 4 a.communities
    extCommunities := sortGroups 8 a.extCommunities
    largeCommunities := sortGroups 12 a.largeCommunities
    unknown := sortUnknown a.unknown
    clusterList := a.clusterList.take (a.clusterList.length / 4 * 4) }

/-- `as_path_list`: the decoded segments, a truncated tail dropped. -/
def AttrSet.asPathList (a : AttrSet) : List Segment := pathSegments 4 a.asPath

/-- Numbers as text, separated. -/
def joinNats (sep : String) (values : List Nat) : String := sep.intercalate (values.map toString)

/-- `as_path_str`: the text an AS-path regex is matched against. -/
def AttrSet.asPathStr (a : AttrSet) : String :=
  " ".intercalate (a.asPathList.filterMap fun seg =>
    if seg.1 = AS_SET then some ("\x7b" ++ joinNats "," seg.2 ++ "\x7d")
    else if seg.1 = AS_CONFED_SEQUENCE then some ("(" ++ joinNats " " seg.2 ++ ")")
    else if seg.1 = AS_CONFED_SET then some ("[" ++ joinNats "," seg.2 ++ "]")
    else if seg.2 = [] then none
    else some (joinNats " " seg.2))

/-- `has_as`: loop detection over every segment type.  AS_TRANS never matches. -/
def AttrSet.hasAs (a : AttrSet) (asn : Nat) : Bool :=
  asn != AS_TRANS && a.asPathList.any fun seg => seg.2.contains asn

/-- `as_path_len`: a set counts one, a confederation segment nothing. -/
def AttrSet.asPathLen (a : AttrSet) : Nat :=
  (a.asPathList.map fun seg =>
    if seg.1 = AS_SEQUENCE then seg.2.length
    else if seg.1 = AS_SET then 1 else 0).sum

/-- `neighbor_as`: the leftmost AS of the first segment outside the
confederation that has one. -/
def AttrSet.neighborAs (a : AttrSet) : Nat :=
  ((a.asPathList.filter fun seg => seg.1 = AS_SEQUENCE || seg.1 = AS_SET).flatMap Prod.snd).headD 0

def AttrSet.clusterLen (a : AttrSet) : Nat := a.clusterList.length / 4

/-- The instance the table hands out for a set, and the number of its claims. -/
structure Interned where
  oid : Nat
  refs : Nat
deriving DecidableEq

/-- `AttrTable`: every interned set with its instance.  A set interned again after
the table forgot it is a new instance, from `nextSet` on. -/
structure AttrTable where
  sets : Dict AttrSet Interned
  nextSet : Nat

def AttrTable.empty : AttrTable := ⟨Dict.empty, 0⟩

/-- `intern`: claim a set, returning its instance. -/
def AttrTable.intern (t : AttrTable) (a : AttrSet) : AttrTable × Nat :=
  match t.sets.get? a with
  | some found => ({ t with sets := t.sets.set a { found with refs := found.refs + 1 } }, found.oid)
  | none => (⟨t.sets.set a ⟨t.nextSet, 1⟩, t.nextSet + 1⟩, t.nextSet)

/-- `release`: drop one claim, forgetting the set with the last one.  An instance
that is not the table's own is not its to free. -/
def AttrTable.release (t : AttrTable) (a : AttrSet) (oid : Nat) : AttrTable :=
  match t.sets.get? a with
  | none => t
  | some found =>
    if found.oid ≠ oid then t
    else if found.refs - 1 ≤ 0 then { t with sets := t.sets.erase a }
    else { t with sets := t.sets.set a { found with refs := found.refs - 1 } }

end Packets
