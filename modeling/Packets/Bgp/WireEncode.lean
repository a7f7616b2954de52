/-
The UPDATE encoders of the BGP codec (`plugins/bgp/wire.pyx`).

A writer is the bytes it has written; a length the source patches in afterwards is written
where it stands.  `none` is the `ValueError` of an encoder.
-/
import Packets.Lib.Packing
import Packets.Bgp.AsPathSegments

namespace Packets

/-- `_w_header` and `_w_finish`: a message around its body. -/
def wMessage (mtype : UInt8) (body : Bytes) : Bytes :=
  List.replicate 16 0xff ++ BigEndian.ofNat 2 (HEADER_LEN + body.length) ++ mtype :: body

/-- `_w_attr_hdr`: an attribute header, the length field widened if needed. -/
def wAttrHdr (flags atype : UInt8) (vlen : Nat) : Bytes :=
  let flags := if vlen > 255 then flags ||| AFLAG_EXT_LEN else flags
  flags :: atype ::
    if flags &&& AFLAG_EXT_LEN ≠ 0 then BigEndian.ofNat 2 vlen else [UInt8.ofNat vlen]

def wAttr (flags atype : UInt8) (value : Bytes) : Bytes :=
  wAttrHdr flags atype value.length ++ value

/-- An attribute that is only written when there is something to say. -/
def wAttrWhen (c : Bool) (flags atype : UInt8) (value : Bytes) : Bytes :=
  if c then wAttr flags atype value else []

/-- A 32-bit attribute, if present. -/
def wU32Attr (flags atype : UInt8) (value : Option UInt32) : Bytes :=
  match value with
  | some v => wAttr flags atype (BigEndian.ofNat 4 v.toNat)
  | none => []

/-- What a 2-octet peer is shown of an AS. -/
def downgradeAsn (asn : Nat) : Nat := if asn > 0xffff then AS_TRANS else asn

/-- `_downgrade_as_path`: the 2-byte form of a path, and whether an AS was replaced. -/
def downgradeAsPath (asPath : Bytes) : Bytes × Bool :=
  let segs := pathSegments 4 asPath
  (segs.flatMap fun seg =>
      if seg.2 = [] then []
      else (chunksOf 255 seg.2.length seg.2).flatMap fun chunk =>
        encodeSegment 2 (seg.1, chunk.map downgradeAsn),
    segs.any fun seg => seg.2.any fun asn => asn > 0xffff)

/-- Take one stored attribute off the front; the last may be cut short. -/
def nextUnknown : Records.Reader (UInt8 × Bytes) UInt8
  | flags :: atype :: len :: rest =>
    if flags &&& AFLAG_EXT_LEN ≠ 0 then
      match rest with
      | [] => none
      | low :: rest =>
        let vlen := len.toNat * 256 + low.toNat
        some ((atype, flags :: atype :: len :: low :: rest.take vlen), rest.drop vlen)
    else
      some ((atype, flags :: atype :: len :: rest.take len.toNat), rest.drop len.toNat)
  | _ => none

/-- `_split_unknown`: the stored attributes with their types, in order of type. -/
def splitUnknown (blob : Bytes) : List (UInt8 × Bytes) :=
  (Records.readAll nextUnknown blob.length blob).1.insertionSort fun x y => x.1 ≤ y.1

/-- `_w_unknown_below`: the attributes of a type below `below`, and those after. -/
def wUnknownBelow (unknown : List (UInt8 × Bytes)) (below : Nat) : Bytes × List (UInt8 × Bytes) :=
  let run := unknown.span fun u => u.1.toNat < below
  (run.1.flatMap Prod.snd, run.2)

/-- An AGGREGATOR whose AS does not fit two octets. -/
def wideAggregator (aggregator : Bytes) : Bool :=
  aggregator.length = 8 && aggregator.take 2 ≠ [0, 0]

/-- The AGGREGATOR as a session of this AS width carries it. -/
def wAggregator (aggregator : Bytes) (as4 : Bool) : Bytes :=
  if as4 then aggregator
  else if wideAggregator aggregator then BigEndian.ofNat 2 AS_TRANS ++ aggregator.drop 4
  else aggregator.drop 2

/-- Whether a 2-octet session has to be given the AS4 attributes too. -/
def needsAs4 (a : AttrSet) (as4 : Bool) : Bool :=
  !as4 && ((downgradeAsPath a.asPath).2 || wideAggregator a.aggregator)

/-- `_w_attrs`: the attributes of an announcement, in ascending order of type. -/
def wAttrs (a : AttrSet) (as4 withNexthop isEbgp : Bool) : Bytes :=
  let optTransitive := AFLAG_OPTIONAL ||| AFLAG_TRANSITIVE
  let belowOrigin := wUnknownBelow (splitUnknown a.unknown) 1
  let belowExt := wUnknownBelow belowOrigin.2 16
  let belowLarge := wUnknownBelow belowExt.2 32
  let above := wUnknownBelow belowLarge.2 256
  belowOrigin.1 ++
  wAttr AFLAG_TRANSITIVE ATTR_ORIGIN [a.origin] ++
  wAttr AFLAG_TRANSITIVE ATTR_AS_PATH (if as4 then a.asPath else (downgradeAsPath a.asPath).1) ++
  wAttrWhen (withNexthop && a.nexthop.length = 4) AFLAG_TRANSITIVE ATTR_NEXT_HOP a.nexthop ++
  wU32Attr AFLAG_OPTIONAL ATTR_MED a.med ++
  -- internal only
  (if isEbgp then [] else wU32Attr AFLAG_TRANSITIVE ATTR_LOCAL_PREF a.localPref) ++
  wAttrWhen a.atomicAggregate AFLAG_TRANSITIVE ATTR_ATOMIC_AGGREGATE [] ++
  wAttrWhen (a.aggregator.length = 8) optTransitive ATTR_AGGREGATOR
    (wAggregator a.aggregator as4) ++
  wAttrWhen (a.communities ≠ []) optTransitive ATTR_COMMUNITIES a.communities ++
  (if isEbgp then [] else wU32Attr AFLAG_OPTIONAL ATTR_ORIGINATOR_ID a.originatorId) ++
  wAttrWhen (a.clusterList ≠ [] && !isEbgp) AFLAG_OPTIONAL ATTR_CLUSTER_LIST a.clusterList ++
  belowExt.1 ++
  wAttrWhen (a.extCommunities ≠ []) optTransitive ATTR_EXT_COMMUNITIES a.extCommunities ++
  -- the true path rides alongside
  wAttrWhen (needsAs4 a as4) optTransitive ATTR_AS4_PATH a.asPath ++
  wAttrWhen (needsAs4 a as4 && wideAggregator a.aggregator) optTransitive
    ATTR_AS4_AGGREGATOR a.aggregator ++
  belowLarge.1 ++
  wAttrWhen (a.largeCommunities ≠ []) optTransitive ATTR_LARGE_COMMUNITY a.largeCommunities ++
  above.1

/-- `_w_prefix`: one entry in its truncated wire form. -/
def wPrefix (addPath : Bool) (e : Nlri) : Bytes :=
  (if addPath then BigEndian.ofNat 4 e.2 else []) ++
    UInt8.ofNat e.1.plen :: e.1.addr.take (plenBytes e.1.plen)

/-- `_prefix_wire_len`. -/
def prefixWireLen (addPath : Bool) (e : Nlri) : Nat :=
  1 + plenBytes e.1.plen + if addPath then 4 else 0

def wPrefixes (addPath : Bool) (items : List Nlri) : Bytes := items.flatMap (wPrefix addPath)

/-- The prefixes of successive messages, each with as many as its budget allows. -/
def splitPrefixes (addPath : Bool) (budget : Nat) (items : List Nlri) : Option (List (List Nlri)) :=
  Packing.parts (prefixWireLen addPath) budget items.length items

/-- The head of an MP attribute: its family. -/
def wFamily (family : Family) : Bytes := BigEndian.ofNat 2 family.1 ++ [UInt8.ofNat family.2]

/-- The body of an UPDATE by its three fields. -/
def wUpdate (withdrawn attrs nlri : Bytes) : Bytes :=
  wMessage MSG_UPDATE (BigEndian.ofNat 2 withdrawn.length ++ withdrawn ++
    BigEndian.ofNat 2 attrs.length ++ attrs ++ nlri)

/-- The flags of an MP attribute: always with the extended length. -/
def mpFlags : UInt8 := AFLAG_OPTIONAL ||| AFLAG_EXT_LEN

/-- One message of `encode_withdraw`. -/
def withdrawMsg (family : Family) (addPath : Bool) (items : List Nlri) : Bytes :=
  if family = IPV4_UNICAST then wUpdate (wPrefixes addPath items) [] []
  else
    wUpdate [] (wAttr mpFlags ATTR_MP_UNREACH (wFamily family ++ wPrefixes addPath items)) []

/-- `encode_withdraw`. -/
def encodeWithdraw (items : List Nlri) (family : Family) (maxSize : Nat)
    (addPath : Bool) : Option (List Bytes) :=
  let budget :=
    if family = IPV4_UNICAST then maxSize - HEADER_LEN - 4
    else maxSize - HEADER_LEN - 4 - 4 - 3
  (splitPrefixes addPath budget items).map fun parts => parts.map (withdrawMsg family addPath)

/-- What stands before the NLRI in an MP_REACH: the family, the next hop and the
reserved octet. -/
def mpReachHead (family : Family) (nexthop : Bytes) : Bytes :=
  wFamily family ++ UInt8.ofNat nexthop.length :: nexthop ++ [0]

/-- One message of `encode_announce`.  In another family than IPv4 unicast MP_REACH is
the last attribute, and its value ends with the NLRI. -/
def announceMsg (a : AttrSet) (family : Family) (as4 addPath isEbgp : Bool)
    (items : List Nlri) : Bytes :=
  if family = IPV4_UNICAST then
    wUpdate [] (wAttrs a as4 true isEbgp) (wPrefixes addPath items)
  else
    wUpdate []
      (wAttrs a as4 false isEbgp ++ wAttr mpFlags ATTR_MP_REACH
        (mpReachHead family a.nexthop ++ wPrefixes addPath items)) []

/-- `encode_announce`.  What a message without a prefix would take is the same for all
of them. -/
def encodeAnnounce (items : List Nlri) (a : AttrSet) (family : Family) (maxSize : Nat)
    (as4 addPath isEbgp : Bool) : Option (List Bytes) :=
  let mp := family ≠ IPV4_UNICAST
  if items = [] then some []
  else if mp ∧ a.nexthop.count 0 = a.nexthop.length then none
  else
    let budget := maxSize - (announceMsg a family as4 addPath isEbgp []).length
    if budget = 0 then none
    else
      (splitPrefixes addPath budget items).map fun parts =>
        parts.map (announceMsg a family as4 addPath isEbgp)

/-- A segment of a canonical path. -/
structure CanonicalSegment (seg : Segment) : Prop where
  fits : SegmentFits 4 seg
  ok : segmentOk seg

theorem CanonicalPath.segments {path : Bytes} (h : CanonicalPath path) :
    ∀ seg ∈ pathSegments 4 path, CanonicalSegment seg :=
  fun seg hseg => ⟨pathSegments_fits seg hseg, (canonicalPath_iff.mp h).2 seg hseg⟩

theorem canonicalPath_of_segments {segments : List Segment}
    (h : ∀ seg ∈ segments, CanonicalSegment seg) : CanonicalPath (encodePath 4 segments) :=
  canonicalPath_encodePath (fun seg hseg => (h seg hseg).fits) fun seg hseg => (h seg hseg).ok

theorem pathSegments_of_segments {segments : List Segment}
    (h : ∀ seg ∈ segments, CanonicalSegment seg) :
    pathSegments 4 (encodePath 4 segments) = segments :=
  pathSegments_encodePath fun seg hseg => (h seg hseg).fits

theorem CanonicalSegment.ne_nil {seg : Segment} (h : CanonicalSegment seg) : seg.2 ≠ [] := by
  have hok := h.ok
  simp only [segmentOk, Bool.and_eq_true, decide_eq_true_eq] at hok
  exact hok.2

theorem flatMap_prependOne (segments : List Segment) (asn : Nat) :
    (prependOne segments asn).flatMap Prod.snd = asn :: segments.flatMap Prod.snd := by
  cases segments with
  | nil => rfl
  | cons head rest =>
    rw [prependOne]
    split
    · rfl
    · rfl

/-- The AS goes into the leading sequence, or into a sequence of its own. -/
theorem prependOne_cases (segments : List Segment) (asn : Nat) :
    prependOne segments asn = (AS_SEQUENCE, [asn]) :: segments ∨
      ∃ asns rest, segments = (AS_SEQUENCE, asns) :: rest ∧
        prependOne segments asn = (AS_SEQUENCE, asn :: asns) :: rest := by
  cases segments with
  | nil => exact .inl rfl
  | cons head rest =>
    obtain ⟨segType, asns⟩ := head
    rw [prependOne]
    split
    · next hroom =>
        obtain ⟨rfl, -⟩ := hroom
        exact .inr ⟨asns, rest, rfl, rfl⟩
    · exact .inl rfl

theorem canonicalSegment_single {asn : Nat} (h : asn < 256 ^ 4) :
    CanonicalSegment (AS_SEQUENCE, [asn]) :=
  ⟨⟨by simp, by simpa using h⟩, rfl⟩

theorem prependOne_canonical {segments : List Segment}
    (h : ∀ seg ∈ segments, CanonicalSegment seg) {asn : Nat} (hasn : asn < 256 ^ 4) :
    ∀ seg ∈ prependOne segments asn, CanonicalSegment seg := by
  cases segments with
  | nil => exact List.forall_mem_singleton.mpr (canonicalSegment_single hasn)
  | cons head rest =>
    have hhead := h head List.mem_cons_self
    have hrest : ∀ seg ∈ rest, CanonicalSegment seg :=
      fun seg hseg => h seg (List.mem_cons_of_mem head hseg)
    rw [prependOne]
    split
    · next hroom =>
        have hfront : CanonicalSegment (head.1, asn :: head.2) := by
          refine ⟨⟨?_, ?_⟩, ?_⟩
          · have hlt := hroom.2
            simp only [List.length_cons]
            omega
          · exact List.forall_mem_cons.mpr ⟨hasn, hhead.fits.members⟩
          · simp [segmentOk, hroom.1]
        exact List.forall_mem_cons.mpr ⟨hfront, hrest⟩
    · exact List.forall_mem_cons.mpr ⟨canonicalSegment_single hasn, h⟩

end Packets
