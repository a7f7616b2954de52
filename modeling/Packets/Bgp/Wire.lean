/-
The BGP codec: messages and the UPDATE decoder (`plugins/bgp/wire.pyx`, with the
primitives it shares with `core/inetpkt.pyx`).

The decoder reads the whole message, records each fault, and leaves the verdict to the caller.
-/
import Packets.Bgp.Attrs

namespace Packets

def HEADER_LEN : Nat := 19
def MIN_UPDATE : Nat := 23

/-- The type octets of the messages. -/
def MSG_OPEN : UInt8 := 1
def MSG_UPDATE : UInt8 := 2
def MSG_NOTIFICATION : UInt8 := 3
def MSG_KEEPALIVE : UInt8 := 4
def MSG_ROUTE_REFRESH : UInt8 := 5

def ATTR_ORIGIN : UInt8 := 1
def ATTR_AS_PATH : UInt8 := 2
def ATTR_NEXT_HOP : UInt8 := 3
def ATTR_MED : UInt8 := 4
def ATTR_LOCAL_PREF : UInt8 := 5
def ATTR_ATOMIC_AGGREGATE : UInt8 := 6
def ATTR_AGGREGATOR : UInt8 := 7
def ATTR_COMMUNITIES : UInt8 := 8
def ATTR_ORIGINATOR_ID : UInt8 := 9
def ATTR_CLUSTER_LIST : UInt8 := 10
def ATTR_MP_REACH : UInt8 := 14
def ATTR_MP_UNREACH : UInt8 := 15
def ATTR_EXT_COMMUNITIES : UInt8 := 16
def ATTR_AS4_PATH : UInt8 := 17
def ATTR_AS4_AGGREGATOR : UInt8 := 18
def ATTR_LARGE_COMMUNITY : UInt8 := 32

def AFLAG_OPTIONAL : UInt8 := 0x80
def AFLAG_TRANSITIVE : UInt8 := 0x40
def AFLAG_PARTIAL : UInt8 := 0x20
def AFLAG_EXT_LEN : UInt8 := 0x10

/-- Why an attribute was rejected. -/
inductive Reason where
  | flags
  | length
  | value
  | duplicate
  | missing
  | unparseable
  | unnegotiated
deriving DecidableEq, Repr

/-- One decode fault.  No attribute type is the attribute list as a whole. -/
structure Fault where
  attr : Option UInt8
  reason : Reason
deriving DecidableEq

/-- `DecodeCtx`: how a session's bytes are read. -/
structure DecodeCtx where
  as4 : Bool := true
  isEbgp : Bool := true
  addPath : List Family := []
  /-- The families negotiated; none is no restriction. -/
  families : List Family := []
deriving DecidableEq

/-- A prefix with its path identifier. -/
abbrev Nlri := Prefix × Nat

structure MpReach where
  family : Family
  nexthop : Bytes
  nexthopLocal : Bytes
  prefixes : List Nlri
deriving DecidableEq

structure MpUnreach where
  family : Family
  prefixes : List Nlri
deriving DecidableEq

/-- A fully parsed UPDATE, applied by nobody yet. -/
structure UpdateMsg where
  withdrawn : List Nlri := []
  nlri : List Nlri := []
  attrs : Option AttrSet := none
  mpReach : Option MpReach := none
  mpUnreach : Option MpUnreach := none
  errors : List Fault := []
  endOfRib : Bool := false
deriving DecidableEq

/-- A 16-bit number at the front of a field. -/
def rdU16 (s : Bytes) : Nat := BigEndian.toNat (s.take 2)

/-- `_bgp_nlri_next`: take one prefix off the front of a field.  An entry that is
cut short, or wider than its family, stops the run. -/
def nlriNext (addPath : Bool) (afi : Nat) : Records.Reader Nlri UInt8 := fun s =>
  let skip := if addPath then 4 else 0
  if s.length < skip then none
  else
    match s.drop skip with
    | [] => none
    | plen :: rest =>
      let nbytes := plenBytes plen.toNat
      if nbytes > pfxAddrLen afi ∨ rest.length < nbytes then none
      else
        (pfxNew afi plen.toNat (rest.take nbytes)).map fun p =>
          ((p, BigEndian.toNat (s.take skip)), rest.drop nbytes)

/-- `_read_nlri`: the prefixes of a field up to the first that cannot be read, and
whether that was all of it. -/
def readNlri (addPath : Bool) (afi : Nat) (s : Bytes) : List Nlri × Bool :=
  let run := Records.readAll (nlriNext addPath afi) s.length s
  (run.1, run.2.isEmpty)

/-- Whether a segment has a known type and at least one AS. -/
def segmentOk (seg : Segment) : Bool :=
  (seg.1 = AS_SEQUENCE || seg.1 = AS_SET || seg.1 = AS_CONFED_SEQUENCE ||
    seg.1 = AS_CONFED_SET) && seg.2 ≠ []

/-- `_canon_as_path`: an on-wire AS_PATH in the canonical 4-byte form; `none` when
it is malformed. -/
def canonAsPath (as4 : Bool) (value : Bytes) : Option Bytes :=
  let run := Records.readAll (nextSegment (if as4 then 4 else 2)) value.length value
  if run.2 ≠ [] || !run.1.all segmentOk then none
  else some (if as4 then value else run.1.flatMap (encodeSegment 4))

/-- `_join_segments`: canonical bytes, in chunks of at most 255 ASNs. -/
def joinSegments (segments : List Segment) : Bytes :=
  segments.flatMap fun seg =>
    if seg.2 = [] then []
    else (chunksOf 255 seg.2.length seg.2).flatMap fun chunk => encodeSegment 4 (seg.1, chunk)

/-- `_count_asns`: the hops the merge is measured in. -/
def countAsns (segments : List Segment) : Nat :=
  (segments.map fun seg =>
    if seg.1 = AS_SEQUENCE then seg.2.length
    else if seg.1 = AS_SET then 1 else 0).sum

/-- The leading `keep` hops of a path.  Confederation segments ride along. -/
def leadingHops : Nat → List Segment → List Segment
  | _, [] => []
  | keep, seg :: rest =>
    if seg.1 = AS_CONFED_SEQUENCE ∨ seg.1 = AS_CONFED_SET then
      seg :: leadingHops keep rest
    else if keep = 0 then []
    else if seg.1 = AS_SET then seg :: leadingHops (keep - 1) rest
    else if seg.2.length ≤ keep then seg :: leadingHops (keep - seg.2.length) rest
    else (seg.1, seg.2.take keep) :: leadingHops 0 rest

/-- `_merge_as4`: the path an AS_PATH and an AS4_PATH stand for together. -/
def mergeAs4 (asPath as4Path : Bytes) : Bytes :=
  let segs := pathSegments 4 asPath
  let segs4 := pathSegments 4 as4Path
  if segs4 = [] then asPath
  else if countAsns segs4 > countAsns segs then asPath
  else joinSegments (leadingHops (countAsns segs - countAsns segs4) segs ++ segs4)

/-- One attribute as its header describes it.  `claimed` is the length the header
claims, `value` what there is of it. -/
structure RawAttr where
  flags : UInt8
  atype : UInt8
  claimed : Nat
  value : Bytes
deriving DecidableEq

/-- Whether an attribute claims more than the section holds. -/
def RawAttr.overruns (a : RawAttr) : Bool := a.value.length < a.claimed

/-- `_bgp_attr_next`: step over one attribute, extended length included. -/
def attrNext : Records.Reader RawAttr UInt8
  | flags :: atype :: len :: rest =>
    if flags &&& AFLAG_EXT_LEN ≠ 0 then
      match rest with
      | [] => none
      | low :: rest =>
        let claimed := BigEndian.toNat [len, low]
        some (⟨flags, atype, claimed, rest.take claimed⟩, rest.drop claimed)
    else
      some (⟨flags, atype, len.toNat, rest.take len.toNat⟩, rest.drop len.toNat)
  | _ => none

theorem attrNext_consumes : Records.Consumes attrNext := by
  intro s a rest h
  match s with
  | [] => simp [attrNext] at h
  | [_] => simp [attrNext] at h
  | [_, _] => simp [attrNext] at h
  | flags :: atype :: len :: tail =>
    simp only [attrNext] at h
    split at h
    · cases tail with
      | nil => simp at h
      | cons low tail =>
        simp only [Option.some.injEq, Prod.mk.injEq] at h
        rw [← h.2]
        simp only [List.length_drop, List.length_cons]
        omega
    · simp only [Option.some.injEq, Prod.mk.injEq] at h
      rw [← h.2]
      simp only [List.length_drop, List.length_cons]
      omega

/-- What the attribute loop has found so far.  `saw_origin` and its like are
membership in `seen`. -/
structure AttrState where
  attrs : AttrSet := {}
  as4Path : Option Bytes := none
  as4Aggregator : Option Bytes := none
  mpReach : Option MpReach := none
  mpUnreach : Option MpUnreach := none
  seen : List UInt8 := []
  errors : List Fault := []

namespace AttrState

/-- `_fault`. -/
def fault (st : AttrState) (attr : Option UInt8) (reason : Reason) : AttrState :=
  { st with errors := st.errors ++ [⟨attr, reason⟩] }

/-- An attribute that passed its checks. -/
def put (st : AttrState) (attrs : AttrSet) : AttrState := { st with attrs := attrs }

end AttrState

/-- `_family_ok`: whether an MP attribute's family is one this session takes. -/
def familyOk (ctx : DecodeCtx) (family : Family) : Bool :=
  (family.1 = AFI_IP || family.1 = AFI_IP6) && family.2 = SAFI_UNICAST &&
    (ctx.families = [] || ctx.families.contains family)

/-- The family at the front of an MP attribute: two octets of AFI, one of SAFI. -/
def rdFamily (value : Bytes) : Family := (rdU16 value, ((value.drop 2).headD 0).toNat)

/-- `_bgp_mp_reach_hdr`: the next hop and the NLRI, when the next hop is all
there.  One reserved octet stands between them. -/
def mpReachHdr (value : Bytes) : Option (Bytes × Bytes) :=
  match value.drop 3 with
  | [] => none
  | nhlen :: rest =>
    if rest.length < nhlen.toNat then none
    else some (rest.take nhlen.toNat, rest.drop (nhlen.toNat + 1))

/-- The global and the link-local next hop of a family, from the next-hop field. -/
def mpNexthop (afi : Nat) (field : Bytes) : Option (Bytes × Bytes) :=
  if afi = AFI_IP ∧ field.length = 4 then some (field, [])
  else if afi = AFI_IP6 ∧ field.length = 16 then some (field, [])
  else if afi = AFI_IP6 ∧ field.length = 32 then some (field.take 16, field.drop 16)
  else none

/-- `_decode_mp_reach`. -/
def decodeMpReach (ctx : DecodeCtx) (value : Bytes) (st : AttrState) : AttrState :=
  if value.length < 3 then st.fault (some ATTR_MP_REACH) .length
  else
    match mpReachHdr value with
    | none => st.fault (some ATTR_MP_REACH) .length
    | some (field, nlri) =>
      let family := rdFamily value
      if !familyOk ctx family then st.fault (some ATTR_MP_REACH) .unnegotiated
      else
        match mpNexthop family.1 field with
        | none => st.fault (some ATTR_MP_REACH) .length
        | some (nexthop, nexthopLocal) =>
          let run := readNlri (ctx.addPath.contains family) family.1 nlri
          if !run.2 then st.fault (some ATTR_MP_REACH) .unparseable
          else { st with
            attrs := { st.attrs with nexthop := nexthop, nexthopLocal := nexthopLocal }
            mpReach := some ⟨family, nexthop, nexthopLocal, run.1⟩ }

/-- `_decode_mp_unreach`. -/
def decodeMpUnreach (ctx : DecodeCtx) (value : Bytes) (st : AttrState) : AttrState :=
  if value.length < 3 then st.fault (some ATTR_MP_UNREACH) .length
  else
    let family := rdFamily value
    if !familyOk ctx family then st.fault (some ATTR_MP_UNREACH) .unnegotiated
    else
      let run := readNlri (ctx.addPath.contains family) family.1 (value.drop 3)
      if !run.2 then st.fault (some ATTR_MP_UNREACH) .unparseable
      else { st with mpUnreach := some ⟨family, run.1⟩ }

/-- `_reencode_attr`: one TLV with the narrowest legal length. -/
def reencodeAttr (flags atype : UInt8) (value : Bytes) : Bytes :=
  if value.length > 255 then
    (flags ||| AFLAG_EXT_LEN) :: atype :: BigEndian.ofNat 2 value.length ++ value
  else (flags &&& ~~~AFLAG_EXT_LEN) :: atype :: UInt8.ofNat value.length :: value

/-- A 32-bit number. -/
def rdU32 (s : Bytes) : UInt32 := UInt32.ofNat (BigEndian.toNat (s.take 4))

/-- `_decode_attr`: flags first, then the length, then the value. -/
def decodeAttr (ctx : DecodeCtx) (flags atype : UInt8) (value : Bytes)
    (st : AttrState) : AttrState :=
  let vlen := value.length
  let optional := flags &&& AFLAG_OPTIONAL ≠ 0
  let transitive := flags &&& AFLAG_TRANSITIVE ≠ 0
  -- the Partial bit must be clear on a well-known attribute
  let badWellKnown := optional ∨ ¬ transitive ∨ flags &&& AFLAG_PARTIAL ≠ 0
  let badOptTransitive := ¬ optional ∨ ¬ transitive
  let badOptNonTransitive := ¬ optional ∨ transitive
  let a := st.attrs
  let bad := st.fault (some atype)
  if atype = ATTR_ORIGIN then
    if badWellKnown then bad .flags
    else if vlen ≠ 1 then bad .length
    else if value.headD 0 > ORIGIN_INCOMPLETE then bad .value
    else st.put { a with origin := value.headD 0 }
  else if atype = ATTR_AS_PATH then
    if badWellKnown then bad .flags
    else
      match canonAsPath ctx.as4 value with
      | none => bad .value
      | some canon => st.put { a with asPath := canon }
  else if atype = ATTR_NEXT_HOP then
    if badWellKnown then bad .flags
    else if vlen ≠ 4 then bad .length
    else st.put { a with nexthop := value }
  else if atype = ATTR_MED then
    if badOptNonTransitive then bad .flags
    else if vlen ≠ 4 then bad .length
    else st.put { a with med := some (rdU32 value) }
  else if atype = ATTR_LOCAL_PREF then
    if badWellKnown then bad .flags
    else if vlen ≠ 4 then bad .length
    else if ctx.isEbgp then bad .value
    else st.put { a with localPref := some (rdU32 value) }
  else if atype = ATTR_ATOMIC_AGGREGATE then
    if badWellKnown then bad .flags
    else if vlen ≠ 0 then bad .length
    else st.put { a with atomicAggregate := true }
  else if atype = ATTR_AGGREGATOR then
    if badOptTransitive then bad .flags
    else if vlen ≠ (if ctx.as4 then 8 else 6) then bad .length
    else st.put { a with aggregator := if ctx.as4 then value else [0, 0] ++ value }
  else if atype = ATTR_COMMUNITIES then
    if badOptTransitive then bad .flags
    else if vlen % 4 ≠ 0 then bad .length
    else st.put { a with communities := value }
  else if atype = ATTR_ORIGINATOR_ID then
    if badOptNonTransitive then bad .flags
    else if vlen ≠ 4 then bad .length
    else if ctx.isEbgp then bad .value
    else st.put { a with originatorId := some (rdU32 value) }
  else if atype = ATTR_CLUSTER_LIST then
    if badOptNonTransitive then bad .flags
    else if vlen % 4 ≠ 0 then bad .length
    else if ctx.isEbgp then bad .value
    else st.put { a with clusterList := value }
  else if atype = ATTR_EXT_COMMUNITIES then
    if badOptTransitive then bad .flags
    else if vlen % 8 ≠ 0 then bad .length
    else st.put { a with extCommunities := value }
  else if atype = ATTR_LARGE_COMMUNITY then
    if badOptTransitive then bad .flags
    else if vlen % 12 ≠ 0 then bad .length
    else st.put { a with largeCommunities := value }
  else if atype = ATTR_AS4_PATH then
    if badOptTransitive then bad .flags
    else
      match canonAsPath true value with
      | none => bad .value
      -- a 4-octet session ignores it
      | some canon => if ctx.as4 then st else { st with as4Path := some canon }
  else if atype = ATTR_AS4_AGGREGATOR then
    if badOptTransitive then bad .flags
    else if vlen ≠ 8 then bad .length
    else if ctx.as4 then st
    else { st with as4Aggregator := some value }
  else if atype = ATTR_MP_REACH then
    if badOptNonTransitive then bad .flags
    else decodeMpReach ctx value st
  else if atype = ATTR_MP_UNREACH then
    if badOptNonTransitive then bad .flags
    else decodeMpUnreach ctx value st
  else
    -- unknown: kept when optional transitive, with the Partial bit set
    if ¬ optional then bad .value
    else if transitive then
      st.put { a with unknown := a.unknown ++ reencodeAttr (flags ||| AFLAG_PARTIAL) atype value }
    else st

/-- The body of the attribute loop. -/
def stepAttr (ctx : DecodeCtx) (st : AttrState) (a : RawAttr) : AttrState :=
  if a.overruns then st.fault (some a.atype) .length
  else if a.atype ∈ st.seen then st.fault (some a.atype) .duplicate
  else decodeAttr ctx a.flags a.atype a.value { st with seen := st.seen ++ [a.atype] }

/-- The attributes of a section, and whether they reach its end. -/
def rawAttrs (section' : Bytes) : List RawAttr × Bool :=
  let run := Records.readAll attrNext section'.length section'
  (run.1, run.2.isEmpty)

/-- The attribute loop. -/
def decodeAttrs (ctx : DecodeCtx) (section' : Bytes) : AttrState :=
  let run := rawAttrs section'
  let st := run.1.foldl (stepAttr ctx) {}
  if run.2 then st else st.fault none .unparseable

/-- AS_TRANS at the head of a stored AGGREGATOR. -/
def AGGREGATOR_AS_TRANS : Bytes := [0, 0, 0x5b, 0xa0]

/-- The AS4 attributes merged in, unless the AGGREGATOR shows them to be stale. -/
def mergeCarried (st : AttrState) : AttrSet :=
  let a := st.attrs
  if st.as4Aggregator.isSome ∧ a.aggregator ≠ [] ∧ a.aggregator.take 4 ≠ AGGREGATOR_AS_TRANS then a
  else
    { a with
      asPath := match st.as4Path with
        | some path => mergeAs4 a.asPath path
        | none => a.asPath
      aggregator := st.as4Aggregator.getD a.aggregator }

/-- `_check_mandatory`: the missing well-known attributes of an UPDATE that
announces something. -/
def checkMandatory (nlri : List Nlri) (mpReach : Option MpReach) (seen : List UInt8) : List Fault :=
  if nlri = [] ∧ ¬ mpReach.any (fun mp => mp.prefixes ≠ []) then []
  else
    (if ATTR_ORIGIN ∈ seen then [] else [⟨some ATTR_ORIGIN, .missing⟩]) ++
    (if ATTR_AS_PATH ∈ seen then [] else [⟨some ATTR_AS_PATH, .missing⟩]) ++
    (if nlri = [] ∨ ATTR_NEXT_HOP ∈ seen then []
      else [⟨some ATTR_NEXT_HOP, .missing⟩])

/-- `_is_end_of_rib`: the marker that the initial table of a family is complete. -/
def isEndOfRib (m : UpdateMsg) (tpalen : Nat) : Bool :=
  if m.nlri ≠ [] ∨ m.withdrawn ≠ [] ∨ m.mpReach.isSome then false
  else
    match m.mpUnreach with
    | some mp => mp.prefixes = []
    | none => tpalen = 0

/-- The attributes and the NLRI, once they are located. -/
def decodeFields (ctx : DecodeCtx) (m : UpdateMsg) (attrs nlri : Bytes) : UpdateMsg :=
  let st := decodeAttrs ctx attrs
  let run := readNlri (ctx.addPath.contains IPV4_UNICAST) AFI_IP nlri
  let m := { m with
    nlri := run.1
    mpReach := st.mpReach
    mpUnreach := st.mpUnreach
    errors := m.errors ++ st.errors }
  if !run.2 then { m with errors := m.errors ++ [⟨none, .unparseable⟩] }
  else
    let m := { m with
      errors := m.errors ++ checkMandatory m.nlri m.mpReach st.seen
      attrs := some (mergeCarried st).finalize }
    { m with endOfRib := isEndOfRib m attrs.length }

/-- What stands after the withdrawn routes. -/
def decodeRest (ctx : DecodeCtx) (m : UpdateMsg) (rest : Bytes) : UpdateMsg :=
  if rest.length < 2 then { m with errors := m.errors ++ [⟨none, .length⟩] }
  else
    let tpalen := rdU16 rest
    let body := rest.drop 2
    if body.length < tpalen then { m with errors := m.errors ++ [⟨none, .length⟩] }
    else decodeFields ctx m (body.take tpalen) (body.drop tpalen)

/-- `decode_update`: decode an UPDATE completely, applying nothing. -/
def decodeUpdate (msg : Bytes) (ctx : DecodeCtx) : UpdateMsg :=
  if msg.length < MIN_UPDATE then { errors := [⟨none, .length⟩] }
  else
    let body := msg.drop HEADER_LEN
    let wlen := rdU16 body
    let rest := body.drop 2
    if rest.length < wlen then { errors := [⟨none, .length⟩] }
    else
      let run := readNlri (ctx.addPath.contains IPV4_UNICAST) AFI_IP (rest.take wlen)
      let m : UpdateMsg := { withdrawn := run.1 }
      if !run.2 then { m with errors := [⟨none, .unparseable⟩] }
      else decodeRest ctx m (rest.drop wlen)

end Packets
