/-
The capabilities of an OPEN, written and read back, and their negotiation
(`plugins/bgp/capabilities.py`).

`fromTlvs` files what it does not know under `unknown`, which `asTlvs` never writes.
-/
import Packets.Lib.BigEndian
import Packets.Lib.Records
import Packets.Rib.Prefix
import Packets.Lib.Mapped
import Mathlib.Data.List.Sort

namespace Packets

/-- The capability codes. -/
def CAP_MP_EXT : UInt8 := 1
def CAP_ROUTE_REFRESH : UInt8 := 2
def CAP_EXTENDED_MESSAGE : UInt8 := 6
def CAP_GRACEFUL_RESTART : UInt8 := 64
def CAP_AS4 : UInt8 := 65
def CAP_ADD_PATH : UInt8 := 69
def CAP_ENHANCED_ROUTE_REFRESH : UInt8 := 70
def CAP_ROUTE_REFRESH_CISCO : UInt8 := 128

/-- The direction bits of ADD-PATH. -/
def ADD_PATH_RECEIVE : Nat := 1
def ADD_PATH_SEND : Nat := 2

/-- The message ceilings, without and with the extended-message capability. -/
def MSG_SIZE : Nat := 4096
def MSG_SIZE_EXTENDED : Nat := 65535

/-- What one side of a session advertises. -/
structure Capabilities where
  asn : Option Nat := none
  afiSafi : List Family := []
  as4 : Bool := false
  routeRefresh : Bool := false
  enhancedRouteRefresh : Bool := false
  extendedMessage : Bool := false
  /-- The direction bits of every family advertised. -/
  addPath : List (Family × Nat) := []
  gracefulRestart : Option Nat := none
  /-- What a peer sent that is not read. -/
  unknown : List (UInt8 × Bytes) := []
deriving DecidableEq

/-- The order families are sorted in. -/
def familyLe (x y : Family) : Bool := x.1 < y.1 || (x.1 == y.1 && x.2 ≤ y.2)

/-- `decode_mp_ext`: AFI, a reserved octet, SAFI. -/
def decodeMpExt (value : Bytes) : Option Family :=
  if value.length < 4 then none
  else some (BigEndian.toNat (value.take 2), ((value.drop 3).headD 0).toNat)

/-- `decode_as4`. -/
def decodeAs4 (value : Bytes) : Option Nat :=
  if value.length < 4 then none else some (BigEndian.toNat (value.take 4))

/-- One ADD-PATH record of four octets. -/
def nextAddPath : Records.Reader (Family × Nat) UInt8
  | a :: b :: safi :: direction :: rest =>
    some (((BigEndian.toNat [a, b], safi.toNat), direction.toNat), rest)
  | _ => none

/-- `decode_add_path`: the whole records whose direction is known. -/
def decodeAddPath (value : Bytes) : List (Family × Nat) :=
  (Records.readAll nextAddPath value.length value).1.filter fun e => 1 ≤ e.2 ∧ e.2 ≤ 3

/-- The later of two records for a family stands. -/
def Capabilities.setAddPath (c : Capabilities) (e : Family × Nat) : Capabilities :=
  { c with addPath := c.addPath.filter (fun held => held.1 ≠ e.1) ++ [e] }

/-- The body of `from_tlvs` for one capability.  A value that does not decode leaves
its field as it was. -/
def Capabilities.addTlv (c : Capabilities) (tlv : UInt8 × Bytes) : Capabilities :=
  let code := tlv.1
  let value := tlv.2
  if code = CAP_MP_EXT then
    match decodeMpExt value with
    | some family =>
      if c.afiSafi.contains family then c
      else { c with afiSafi := c.afiSafi ++ [family] }
    | none => c
  else if code = CAP_ROUTE_REFRESH then { c with routeRefresh := true }
  else if code = CAP_ROUTE_REFRESH_CISCO then
    -- unknown as well, so that it can be told from the standard one
    { c with routeRefresh := true, unknown := c.unknown ++ [tlv] }
  else if code = CAP_ENHANCED_ROUTE_REFRESH then { c with enhancedRouteRefresh := true }
  else if code = CAP_EXTENDED_MESSAGE then { c with extendedMessage := true }
  else if code = CAP_AS4 then
    match decodeAs4 value with
    | some asn => { c with as4 := true, asn := some asn }
    | none => c
  else if code = CAP_ADD_PATH then
    (decodeAddPath value).foldl Capabilities.setAddPath c
  else if code = CAP_GRACEFUL_RESTART then
    if 2 ≤ value.length then
      { c with gracefulRestart := some (BigEndian.toNat (value.take 2) &&& 0xfff) }
    else c
  else { c with unknown := c.unknown ++ [tlv] }

/-- `from_tlvs`: one side's capabilities from those of its OPEN. -/
def Capabilities.fromTlvs (tlvs : List (UInt8 × Bytes)) (asn : Option Nat) : Capabilities :=
  tlvs.foldl Capabilities.addTlv { asn := asn }

/-- What a session may actually do. -/
structure Negotiated where
  afiSafi : List Family
  as4 : Bool
  routeRefresh : Bool
  enhancedRouteRefresh : Bool
  extendedMessage : Bool
  addPathRecv : List Family
  addPathSend : List Family
  maxMessageSize : Nat
  peerAsn : Option Nat
  peerAs4 : Bool
deriving DecidableEq

/-- Whether a side advertised one direction of ADD-PATH for a family. -/
def Capabilities.addPathHas (c : Capabilities) (af : Family) (direction : Nat) : Bool :=
  match c.addPath.lookup af with
  | some bits => bits &&& direction ≠ 0
  | none => false

/-- The families both ends carry.  A peer that names none is an IPv4 unicast
speaker. -/
def negotiatedFamilies (self peer : Capabilities) : List Family :=
  let families := self.afiSafi.filter fun af => peer.afiSafi.contains af
  if families = [] ∧ peer.afiSafi = [] then
    if self.afiSafi.contains IPV4_UNICAST then [IPV4_UNICAST] else []
  else families

/-- `negotiate`: combine two advertisements.  Each side's word alone is never
enough, and ADD-PATH is read crosswise. -/
def negotiate (self peer : Capabilities) : Negotiated :=
  let families := negotiatedFamilies self peer
  let extended := self.extendedMessage && peer.extendedMessage
  { afiSafi := families
    as4 := self.as4 && peer.as4
    routeRefresh := self.routeRefresh && peer.routeRefresh
    enhancedRouteRefresh := self.enhancedRouteRefresh && peer.enhancedRouteRefresh
    extendedMessage := extended
    addPathRecv := families.filter fun af =>
      peer.addPathHas af ADD_PATH_SEND && self.addPathHas af ADD_PATH_RECEIVE
    addPathSend := []
    maxMessageSize := if extended then MSG_SIZE_EXTENDED else MSG_SIZE
    peerAsn := peer.asn
    peerAs4 := peer.as4 }

/-- `encode_mp_ext`. -/
def encodeMpExt (af : Family) : Option Bytes :=
  if af.1 ≤ 0xffff ∧ af.2 ≤ 0xff then
    some (BigEndian.ofNat 2 af.1 ++ [0, UInt8.ofNat af.2])
  else none

/-- `encode_as4`. -/
def encodeAs4 (asn : Nat) : Option Bytes :=
  if asn ≤ 0xffffffff then some (BigEndian.ofNat 4 asn) else none

/-- One record of `encode_add_path`. -/
def encodeAddPathRecord (e : Family × Nat) : Option Bytes :=
  if e.1.1 ≤ 0xffff ∧ e.1.2 ≤ 0xff ∧ 1 ≤ e.2 ∧ e.2 ≤ 3 then
    some (BigEndian.ofNat 2 e.1.1 ++ [UInt8.ofNat e.1.2, UInt8.ofNat e.2])
  else none

/-- `encode_add_path`. -/
def encodeAddPath (pairs : List (Family × Nat)) : Option Bytes :=
  (pairs.mapM encodeAddPathRecord).map List.flatten

/-- `encode_graceful_restart`, with no flags. -/
def encodeGracefulRestart (time : Nat) : Option Bytes :=
  if time ≤ 0xfff then some (BigEndian.ofNat 2 time) else none

namespace Capabilities

/-- The families and their directions are a set and a dict. -/
structure Filed (c : Capabilities) : Prop where
  families : c.afiSafi.Nodup
  directions : (c.addPath.map Prod.fst).Nodup

/-- A capability without a value, where it is advertised. -/
def flagTlv (code : UInt8) (advertised : Bool) : List (UInt8 × Bytes) :=
  if advertised then [(code, [])] else []

def restartTlv (c : Capabilities) : Option (List (UInt8 × Bytes)) :=
  match c.gracefulRestart with
  | some time => (encodeGracefulRestart time).map fun v => [(CAP_GRACEFUL_RESTART, v)]
  | none => some []

/-- The 4-octet AS, which there has to be. -/
def as4Tlv (c : Capabilities) : Option (List (UInt8 × Bytes)) :=
  if c.as4 then (c.asn.bind encodeAs4).map fun v => [(CAP_AS4, v)] else some []

def addPathTlv (c : Capabilities) : Option (List (UInt8 × Bytes)) :=
  if c.addPath = [] then some []
  else
    (encodeAddPath (c.addPath.insertionSort fun x y => familyLe x.1 y.1)).map fun v =>
      [(CAP_ADD_PATH, v)]

def familyTlvs (c : Capabilities) : Option (List (UInt8 × Bytes)) :=
  (c.afiSafi.insertionSort fun x y => familyLe x y).mapM fun af =>
    (encodeMpExt af).map fun v => (CAP_MP_EXT, v)

/-- `as_tlvs`: the capabilities to advertise, in order.  A field that does not fit
raises. -/
def asTlvs (c : Capabilities) : Option (List (UInt8 × Bytes)) := do
  let families ← c.familyTlvs
  let restart ← c.restartTlv
  let as4 ← c.as4Tlv
  let addPath ← c.addPathTlv
  some (families ++ flagTlv CAP_ROUTE_REFRESH c.routeRefresh ++
    flagTlv CAP_EXTENDED_MESSAGE c.extendedMessage ++ restart ++ as4 ++ addPath ++
    flagTlv CAP_ENHANCED_ROUTE_REFRESH c.enhancedRouteRefresh)

/-- Every field fits its place on the wire. -/
structure Representable (c : Capabilities) : Prop where
  families : ∀ af ∈ c.afiSafi, af.1 ≤ 0xffff ∧ af.2 ≤ 0xff
  restart : ∀ time, c.gracefulRestart = some time → time ≤ 0xfff
  as4 : c.as4 = true → ∃ asn, c.asn = some asn ∧ asn ≤ 0xffffffff
  directions : ∀ e ∈ c.addPath, e.1.1 ≤ 0xffff ∧ e.1.2 ≤ 0xff ∧ 1 ≤ e.2 ∧ e.2 ≤ 3

/-- The same advertisement, whatever the order of the set and the dict. -/
structure Same (c d : Capabilities) : Prop where
  asn : c.asn = d.asn
  afiSafi : c.afiSafi.Perm d.afiSafi
  as4 : c.as4 = d.as4
  routeRefresh : c.routeRefresh = d.routeRefresh
  enhancedRouteRefresh : c.enhancedRouteRefresh = d.enhancedRouteRefresh
  extendedMessage : c.extendedMessage = d.extendedMessage
  addPath : c.addPath.Perm d.addPath
  gracefulRestart : c.gracefulRestart = d.gracefulRestart
  unknown : c.unknown = d.unknown

theorem familyTlvs_isSome {c : Capabilities} (h : c.Representable) :
    ∃ tlvs, c.familyTlvs = some tlvs := by
  apply Mapped.exists_mapM
  intro af haf
  rw [encodeMpExt, if_pos (h.families af ((List.mem_insertionSort _).mp haf))]
  exact ⟨_, rfl⟩

theorem restartTlv_isSome {c : Capabilities} (h : c.Representable) :
    ∃ tlvs, c.restartTlv = some tlvs := by
  rw [restartTlv]
  cases htime : c.gracefulRestart with
  | none => exact ⟨[], rfl⟩
  | some time =>
    dsimp only
    rw [encodeGracefulRestart, if_pos (h.restart time htime)]
    exact ⟨_, rfl⟩

theorem as4Tlv_isSome {c : Capabilities} (h : c.Representable) : ∃ tlvs, c.as4Tlv = some tlvs := by
  rw [as4Tlv]
  split
  · rename_i has4
    obtain ⟨asn, hasn, hle⟩ := h.as4 has4
    rw [hasn, Option.bind_some, encodeAs4, if_pos hle]
    exact ⟨_, rfl⟩
  · exact ⟨[], rfl⟩

theorem addPathTlv_isSome {c : Capabilities} (h : c.Representable) :
    ∃ tlvs, c.addPathTlv = some tlvs := by
  rw [addPathTlv]
  split
  · exact ⟨[], rfl⟩
  · obtain ⟨records, hrecords⟩ := Mapped.exists_mapM (f := encodeAddPathRecord)
        (l := c.addPath.insertionSort fun x y => familyLe x.1 y.1) (by
      intro e he
      rw [encodeAddPathRecord, if_pos (h.directions e ((List.mem_insertionSort _).mp he))]
      exact ⟨_, rfl⟩)
    rw [encodeAddPath, hrecords]
    exact ⟨_, rfl⟩

theorem asTlvs_of_representable {c : Capabilities} (h : c.Representable) :
    ∃ tlvs, c.asTlvs = some tlvs := by
  obtain ⟨families, hfamilies⟩ := familyTlvs_isSome h
  obtain ⟨restart, hrestart⟩ := restartTlv_isSome h
  obtain ⟨as4, has4⟩ := as4Tlv_isSome h
  obtain ⟨addPath, haddPath⟩ := addPathTlv_isSome h
  rw [asTlvs, hfamilies, hrestart, has4, haddPath]
  exact ⟨_, rfl⟩

theorem decodeMpExt_encode {af : Family} {v : Bytes} (h : encodeMpExt af = some v) :
    decodeMpExt v = some af := by
  rw [encodeMpExt] at h
  split at h
  · rename_i hfits
    obtain rfl := Option.some.inj h
    have hafi : BigEndian.toNat (BigEndian.ofNat 2 af.1) = af.1 := BigEndian.toNat_ofNat (by omega)
    have hsafi : (UInt8.ofNat af.2).toNat = af.2 := UInt8.toNat_ofNat_of_lt' (by
      have : UInt8.size = 256 := rfl
      omega)
    have hlen := BigEndian.length_ofNat 2 af.1
    have hdrop : (BigEndian.ofNat 2 af.1 ++ [0, UInt8.ofNat af.2]).drop 3 = [UInt8.ofNat af.2] := by
      rw [List.drop_append, hlen, List.drop_eq_nil_of_le (by omega)]
      rfl
    rw [decodeMpExt, if_neg (by simp [hlen]), List.take_left' hlen, hafi, hdrop]
    simp only [List.headD_cons, hsafi]
  · cases h

theorem decodeAs4_encode {asn : Nat} {v : Bytes} (h : encodeAs4 asn = some v) :
    decodeAs4 v = some asn := by
  rw [encodeAs4] at h
  split at h
  · obtain rfl := Option.some.inj h
    have hlen := BigEndian.length_ofNat 4 asn
    rw [decodeAs4, if_neg (by omega), List.take_of_length_le (by omega),
      BigEndian.toNat_ofNat (by omega)]
  · cases h

theorem nextAddPath_consumes : Records.Consumes nextAddPath := by
  intro s e rest h
  match s with
  | a :: b :: safi :: direction :: tail =>
    simp only [nextAddPath, Option.some.injEq, Prod.mk.injEq] at h
    rw [← h.2]
    simp only [List.length_cons]
    omega
  | [] | [_] | [_, _] | [_, _, _] => simp [nextAddPath] at h

theorem nextAddPath_encode {e : Family × Nat} {v : Bytes} (h : encodeAddPathRecord e = some v)
    (rest : Bytes) : nextAddPath (v ++ rest) = some (e, rest) := by
  rw [encodeAddPathRecord] at h
  split at h
  · rename_i hfits
    obtain rfl := Option.some.inj h
    have hsize : UInt8.size = 256 := rfl
    have hafi : BigEndian.toNat (BigEndian.ofNat 2 e.1.1) = e.1.1 :=
      BigEndian.toNat_ofNat (by omega)
    have hsafi : (UInt8.ofNat e.1.2).toNat = e.1.2 := UInt8.toNat_ofNat_of_lt' (by omega)
    have hdirection : (UInt8.ofNat e.2).toNat = e.2 := UInt8.toNat_ofNat_of_lt' (by omega)
    simp only [BigEndian.ofNat, List.cons_append, List.nil_append, nextAddPath]
    simp only [BigEndian.ofNat] at hafi
    rw [hafi, hsafi, hdirection]
  · cases h

theorem encodeAddPath_reads {pairs : List (Family × Nat)} {v : Bytes}
    (h : encodeAddPath pairs = some v) : decodeAddPath v = pairs := by
  rw [encodeAddPath, Option.map_eq_some_iff] at h
  obtain ⟨records, hrecords, rfl⟩ := h
  have hread : (Records.readAll nextAddPath records.flatten.length records.flatten).1 =
      pairs := by
    induction pairs generalizing records with
    | nil =>
      obtain rfl : records = [] := by simpa using hrecords.symm
      rfl
    | cons e pairs ih =>
      rw [List.mapM_cons] at hrecords
      simp only [bind, pure, Option.bind_eq_some_iff] at hrecords
      obtain ⟨v, hv, vs, hvs, heq⟩ := hrecords
      obtain rfl := Option.some.inj heq
      rw [List.flatten_cons,
        Records.readAll_cons nextAddPath_consumes (nextAddPath_encode hv vs.flatten), ih vs hvs]
  rw [decodeAddPath, hread]
  apply List.filter_eq_self.mpr
  intro e he
  obtain ⟨v, -, hv⟩ := Mapped.exists_of_mem_left hrecords he
  rw [encodeAddPathRecord] at hv
  split at hv
  · rename_i hfits
    exact decide_eq_true hfits.2.2
  · cases hv

theorem addTlv_family {c : Capabilities} {af : Family} {v : Bytes} (h : encodeMpExt af = some v)
    (hnew : af ∉ c.afiSafi) :
    c.addTlv (CAP_MP_EXT, v) = { c with afiSafi := c.afiSafi ++ [af] } := by
  have hcontains : c.afiSafi.contains af = false := by simpa using hnew
  rw [addTlv, if_pos rfl, decodeMpExt_encode h]
  dsimp only
  rw [hcontains, if_neg Bool.false_ne_true]

/-- Families that are not there yet are filed in turn. -/
theorem foldl_addTlv_families {families : List Family} {tlvs : List (UInt8 × Bytes)}
    (h : families.mapM (fun af => (encodeMpExt af).map fun v => (CAP_MP_EXT, v)) = some tlvs)
    {c : Capabilities} (hnodup : (c.afiSafi ++ families).Nodup) :
    tlvs.foldl addTlv c = { c with afiSafi := c.afiSafi ++ families } := by
  have hread := Mapped.mapM_eq_some_iff.mp h
  clear h
  induction hread generalizing c with
  | nil => rw [List.append_nil]; rfl
  | cons head _ ih =>
    rename_i af tlv rest tlvs _
    obtain ⟨v, hv, rfl⟩ := Option.map_eq_some_iff.mp head
    have hnew : af ∉ c.afiSafi := by
      intro hmem
      exact (List.nodup_append.mp hnodup).2.2 af hmem af List.mem_cons_self rfl
    rw [List.foldl_cons, addTlv_family hv hnew, ih]
    · rw [List.append_assoc, List.singleton_append]
    · rwa [List.append_assoc, List.singleton_append]

/-- Directions of families that have none yet are filed in turn. -/
theorem foldl_setAddPath {pairs : List (Family × Nat)} {c : Capabilities}
    (hnodup : ((c.addPath ++ pairs).map Prod.fst).Nodup) :
    pairs.foldl setAddPath c = { c with addPath := c.addPath ++ pairs } := by
  induction pairs generalizing c with
  | nil => rw [List.append_nil]; rfl
  | cons e pairs ih =>
    have hkeep : c.addPath.filter (fun held => held.1 ≠ e.1) = c.addPath := by
      apply List.filter_eq_self.mpr
      intro held hheld
      rw [List.map_append, List.nodup_append] at hnodup
      exact decide_eq_true (hnodup.2.2 held.1 (List.mem_map_of_mem hheld) e.1
        (List.mem_map_of_mem List.mem_cons_self))
    have hset : c.setAddPath e = { c with addPath := c.addPath ++ [e] } := by rw [setAddPath, hkeep]
    rw [List.foldl_cons, hset, ih]
    · rw [List.append_assoc, List.singleton_append]
    · rwa [List.append_assoc, List.singleton_append]

theorem foldl_addTlv_routeRefresh (c : Capabilities) (b : Bool) :
    (flagTlv CAP_ROUTE_REFRESH b).foldl addTlv c =
      { c with routeRefresh := c.routeRefresh || b } := by
  cases b with
  | false => rw [Bool.or_false]; rfl
  | true => rw [Bool.or_true]; rfl

theorem foldl_addTlv_extendedMessage (c : Capabilities) (b : Bool) :
    (flagTlv CAP_EXTENDED_MESSAGE b).foldl addTlv c =
      { c with extendedMessage := c.extendedMessage || b } := by
  cases b with
  | false => rw [Bool.or_false]; rfl
  | true => rw [Bool.or_true]; rfl

theorem foldl_addTlv_enhancedRouteRefresh (c : Capabilities) (b : Bool) :
    (flagTlv CAP_ENHANCED_ROUTE_REFRESH b).foldl addTlv c =
      { c with enhancedRouteRefresh := c.enhancedRouteRefresh || b } := by
  cases b with
  | false => rw [Bool.or_false]; rfl
  | true => rw [Bool.or_true]; rfl

theorem foldl_addTlv_restart {c d : Capabilities} {tlvs : List (UInt8 × Bytes)}
    (h : c.restartTlv = some tlvs) (hnone : d.gracefulRestart = none) :
    tlvs.foldl addTlv d = { d with gracefulRestart := c.gracefulRestart } := by
  rw [restartTlv] at h
  cases htime : c.gracefulRestart with
  | none =>
    rw [htime] at h
    obtain rfl := Option.some.inj h
    rw [← hnone]
    rfl
  | some time =>
    rw [htime] at h
    obtain ⟨v, hv, rfl⟩ := Option.map_eq_some_iff.mp h
    rw [encodeGracefulRestart] at hv
    split at hv
    · rename_i hfits
      obtain rfl := Option.some.inj hv
      have hlen := BigEndian.length_ofNat 2 time
      have hmask : time &&& 0xfff = time := by
        rw [show 0xfff = 2 ^ 12 - 1 from rfl, Nat.and_two_pow_sub_one_eq_mod]
        exact Nat.mod_eq_of_lt (by omega)
      have hadd : d.addTlv (CAP_GRACEFUL_RESTART, BigEndian.ofNat 2 time) =
          (if 2 ≤ (BigEndian.ofNat 2 time).length then
            { d with
              gracefulRestart :=
                some (BigEndian.toNat ((BigEndian.ofNat 2 time).take 2) &&& 0xfff) }
          else d) := rfl
      rw [List.foldl_cons, List.foldl_nil, hadd, if_pos (by omega),
        List.take_of_length_le (by omega), BigEndian.toNat_ofNat (by omega), hmask]
    · cases hv

theorem foldl_addTlv_as4 {c d : Capabilities} {tlvs : List (UInt8 × Bytes)}
    (h : c.as4Tlv = some tlvs) (hasn : d.asn = c.asn) (hnone : d.as4 = false) :
    tlvs.foldl addTlv d = { d with as4 := c.as4 } := by
  rw [as4Tlv] at h
  split at h
  · rename_i has4
    obtain ⟨v, hv, rfl⟩ := Option.map_eq_some_iff.mp h
    obtain ⟨asn, heq, hencode⟩ := Option.bind_eq_some_iff.mp hv
    have hadd : d.addTlv (CAP_AS4, v) =
        (match decodeAs4 v with
          | some asn => { d with as4 := true, asn := some asn }
          | none => d) := rfl
    rw [List.foldl_cons, List.foldl_nil, hadd, decodeAs4_encode hencode, has4]
    dsimp only
    rw [← hasn.trans heq]
  · rename_i has4
    obtain rfl := Option.some.inj h
    rw [Bool.eq_false_of_not_eq_true has4, ← hnone]
    rfl

theorem foldl_addTlv_addPath {c d : Capabilities} {tlvs : List (UInt8 × Bytes)}
    (h : c.addPathTlv = some tlvs) (hnodup : (c.addPath.map Prod.fst).Nodup)
    (hnone : d.addPath = []) :
    tlvs.foldl addTlv d =
      { d with addPath := c.addPath.insertionSort fun x y => familyLe x.1 y.1 } := by
  rw [addPathTlv] at h
  split at h
  · rename_i hempty
    obtain rfl := Option.some.inj h
    rw [hempty, List.insertionSort_nil, ← hnone]
    rfl
  · obtain ⟨v, hv, rfl⟩ := Option.map_eq_some_iff.mp h
    have hadd : d.addTlv (CAP_ADD_PATH, v) = (decodeAddPath v).foldl setAddPath d := rfl
    have hperm := List.perm_insertionSort
      (fun x y : Family × Nat => familyLe x.1 y.1 = true) c.addPath
    rw [List.foldl_cons, List.foldl_nil, hadd, encodeAddPath_reads hv, foldl_setAddPath, hnone,
      List.nil_append]
    rw [hnone, List.nil_append]
    exact (hperm.map Prod.fst).nodup_iff.mpr hnodup

/-- What is advertised is read back as the same advertisement. -/
theorem fromTlvs_asTlvs {c : Capabilities} {tlvs : List (UInt8 × Bytes)} (hfiled : c.Filed)
    (h : c.asTlvs = some tlvs) : (fromTlvs tlvs c.asn).Same { c with unknown := [] } := by
  simp only [asTlvs, bind, Option.bind_eq_some_iff] at h
  obtain ⟨families, hfamilies, restart, hrestart, as4, has4, addPath, haddPath, heq⟩ := h
  obtain rfl := Option.some.inj heq
  have hsorted := List.perm_insertionSort (fun x y : Family => familyLe x y = true) c.afiSafi
  have hdirections := List.perm_insertionSort
    (fun x y : Family × Nat => familyLe x.1 y.1 = true) c.addPath
  have hread : fromTlvs (families ++ flagTlv CAP_ROUTE_REFRESH c.routeRefresh ++
      flagTlv CAP_EXTENDED_MESSAGE c.extendedMessage ++ restart ++ as4 ++ addPath ++
      flagTlv CAP_ENHANCED_ROUTE_REFRESH c.enhancedRouteRefresh) c.asn =
      { c with
        afiSafi := c.afiSafi.insertionSort fun x y => familyLe x y
        addPath := c.addPath.insertionSort fun x y => familyLe x.1 y.1
        unknown := [] } := by
    simp only [fromTlvs, List.foldl_append]
    rw [foldl_addTlv_families hfamilies, foldl_addTlv_routeRefresh,
      foldl_addTlv_extendedMessage, foldl_addTlv_restart hrestart ?_,
      foldl_addTlv_as4 has4 ?_ ?_, foldl_addTlv_addPath haddPath hfiled.directions ?_,
      foldl_addTlv_enhancedRouteRefresh]
    · simp only [List.nil_append, Bool.false_or]
    · rfl
    · rfl
    · rfl
    · rfl
    · exact hsorted.nodup_iff.mpr hfiled.families
  rw [hread]
  constructor
  · rfl
  · exact hsorted
  · rfl
  · rfl
  · rfl
  · rfl
  · exact hdirections
  · rfl
  · rfl

end Capabilities

end Packets
