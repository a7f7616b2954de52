/-
Group membership and neighbour discovery messages and the packets that carry them, parsed and
written again (`core/inetpkt.pyx`).
-/
import Packets.Inet.Fragments
import Packets.Inet.Icmp6
import Packets.Inet.Igmp

namespace Packets.Inet

open BigEndian (ofNat readInt takeBytes readInt_ofNat takeBytes_of_length length_ofNat)

/-- A group record with addresses of `n` bytes. -/
structure GroupRecord (n : Nat) where
  type : Nat
  auxWords : Nat
  address : Bytes
  sources : List Bytes
  auxData : Bytes
  type_fits : type < 256 ^ 1
  auxWords_fits : auxWords < 256 ^ 1
  address_size : address.length = n
  sources_fit : sources.length < 256 ^ 2
  sources_size : ∀ source ∈ sources, source.length = n
  auxData_size : auxData.length = 4 * auxWords

def GroupRecord.bytes {n : Nat} (r : GroupRecord n) : Bytes :=
  ofNat 1 r.type ++ (ofNat 1 r.auxWords ++ (ofNat 2 r.sources.length ++ (r.address ++
    (r.sources.flatten ++ r.auxData))))

/-- The record as it is parsed. -/
def GroupRecord.igmp (r : GroupRecord 4) : IGMPGroupRecord :=
  ⟨r.type, r.auxWords, r.sources.length, r.address, r.sources.flatten, r.auxData⟩

def GroupRecord.mldv2 (r : GroupRecord 16) : MLDv2AddressRecord :=
  ⟨r.type, r.auxWords, r.sources.length, r.address, r.sources.flatten, r.auxData⟩

/-- A list of addresses of `n` bytes, as a query has it. -/
structure Sources (n : Nat) where
  addresses : List Bytes
  count_fits : addresses.length < 256 ^ 2
  sizes : ∀ address ∈ addresses, address.length = n

/-- An address of `n` bytes. -/
structure Address (n : Nat) where
  bytes : Bytes
  size : bytes.length = n

/-- A number of `width` bytes. -/
structure Number (width : Nat) where
  value : Nat
  fits : value < 256 ^ width

def Number.bytes {width : Nat} (n : Number width) : Bytes := ofNat width n.value

/-- IGMP messages of all versions, without their checksum.  Reserved fields are zero. -/
inductive IgmpMessage where
  | query (maxResp : Number 1) (group : Address 4)
  | v1Report (group : Address 4)
  | v2Report (maxResp : Number 1) (group : Address 4)
  | leave (maxResp : Number 1) (group : Address 4)
  | v3Query (maxResp : Number 1) (group : Address 4) (sQrv qqic : Number 1) (sources : Sources 4)
  | v3Report (records : List (GroupRecord 4)) (count_fits : records.length < 256 ^ 2)

namespace IgmpMessage

/-- A query of eight bytes with a maximum response time of zero is of version 1. -/
def version : IgmpMessage → Nat
  | query maxResp _ => if maxResp.value = 0 then 1 else 2
  | v1Report _ => 1
  | v2Report _ _ => 2
  | leave _ _ => 2
  | v3Query _ _ _ _ _ => 3
  | v3Report _ _ => 3

def type : IgmpMessage → Nat
  | query _ _ => IGMP_MEMBER_QUERY
  | v1Report _ => IGMP_V1_MEMBER_REPORT
  | v2Report _ _ => IGMP_V2_MEMBER_REPORT
  | leave _ _ => IGMP_LEAVE_GROUP
  | v3Query _ _ _ _ _ => IGMP_MEMBER_QUERY
  | v3Report _ _ => IGMP_V3_MEMBER_REPORT

/-- The second byte. -/
def second : IgmpMessage → Nat
  | query maxResp _ => maxResp.value
  | v1Report _ => 0
  | v2Report maxResp _ => maxResp.value
  | leave maxResp _ => maxResp.value
  | v3Query maxResp _ _ _ _ => maxResp.value
  | v3Report _ _ => 0

/-- What follows the checksum. -/
def content : IgmpMessage → Bytes
  | query _ group => group.bytes
  | v1Report group => group.bytes
  | v2Report _ group => group.bytes
  | leave _ group => group.bytes
  | v3Query _ group sQrv qqic sources =>
    group.bytes ++ (sQrv.bytes ++ (qqic.bytes ++
      (ofNat 2 sources.addresses.length ++ sources.addresses.flatten)))
  | v3Report records _ => [0, 0] ++ ofNat 2 records.length ++ records.flatMap GroupRecord.bytes

def bytes (m : IgmpMessage) (checksum : Number 2) : Bytes :=
  ofNat 1 m.type ++ (ofNat 1 m.second ++ (checksum.bytes ++ m.content))

/-- The message with its version and its own values. -/
def object (m : IgmpMessage) (checksum : Number 2) : IGMP :=
  let base : IGMP :=
    { version := m.version, type := m.type, maxResp := m.second, checksum := checksum.value }
  match m with
  | query _ group => { base with groupAddress := some group.bytes }
  | v1Report group => { base with groupAddress := some group.bytes }
  | v2Report _ group => { base with groupAddress := some group.bytes }
  | leave _ group => { base with groupAddress := some group.bytes }
  | v3Query _ group sQrv qqic sources => { base with
      groupAddress := some group.bytes, sQrv := sQrv.value, qqic := qqic.value,
      numRecords := sources.addresses.length, sourceAddresses := sources.addresses.flatten }
  | v3Report records _ => { base with
      numRecords := records.length, groupRecords := records.map GroupRecord.igmp }

end IgmpMessage

/-- An option of Neighbor Discovery. -/
structure NdOption where
  type : Number 1
  length : Number 1
  data : Bytes
  nonempty : 0 < length.value
  data_size : data.length + 2 = 8 * length.value

def NdOption.bytes (o : NdOption) : Bytes := o.type.bytes ++ (o.length.bytes ++ o.data)

def NdOption.object (o : NdOption) : ICMP6Opt := ⟨o.type.value, o.length.value, o.data⟩

/-- ICMPv6 messages of MLD and Neighbor Discovery, without their code and checksum.  Reserved fields
are zero. -/
inductive Icmp6Message where
  | mldQuery (maxResp : Number 2) (address : Address 16)
  | mldReport (maxResp : Number 2) (address : Address 16)
  | mldDone (maxResp : Number 2) (address : Address 16)
  | mldv2Query (maxResp : Number 2) (address : Address 16) (sQrv qqic : Number 1)
      (sources : Sources 16)
  | mldv2Report (records : List (GroupRecord 16)) (count_fits : records.length < 256 ^ 2)
  | routerSolicit (options : List NdOption)
  | routerAdvert (curHopLimit raFlags : Number 1) (routerLifetime : Number 2)
      (reachableTime retransTimer : Number 4) (options : List NdOption)
  | neighborSolicit (target : Address 16) (options : List NdOption)
  | neighborAdvert (naFlags : Number 1) (target : Address 16) (options : List NdOption)
  | redirect (target dest : Address 16) (options : List NdOption)

namespace Icmp6Message

def type : Icmp6Message → Nat
  | mldQuery _ _ => ICMP6_MLD_QUERY
  | mldReport _ _ => ICMP6_MLD_REPORT
  | mldDone _ _ => ICMP6_MLD_DONE
  | mldv2Query _ _ _ _ _ => ICMP6_MLD_QUERY
  | mldv2Report _ _ => ICMP6_MLDV2_REPORT
  | routerSolicit _ => ICMP6_ND_ROUTER_SOLICIT
  | routerAdvert _ _ _ _ _ _ => ICMP6_ND_ROUTER_ADVERT
  | neighborSolicit _ _ => ICMP6_ND_NEIGHBOR_SOLICIT
  | neighborAdvert _ _ _ => ICMP6_ND_NEIGHBOR_ADVERT
  | redirect _ _ _ => ICMP6_ND_REDIRECT

def mldBytes (maxResp : Number 2) (address : Address 16) : Bytes :=
  maxResp.bytes ++ ([0, 0] ++ address.bytes)

/-- What follows the checksum. -/
def content : Icmp6Message → Bytes
  | mldQuery maxResp address => mldBytes maxResp address
  | mldReport maxResp address => mldBytes maxResp address
  | mldDone maxResp address => mldBytes maxResp address
  | mldv2Query maxResp address sQrv qqic sources =>
    maxResp.bytes ++ ([0, 0] ++ (address.bytes ++ (sQrv.bytes ++ (qqic.bytes ++
      (ofNat 2 sources.addresses.length ++ sources.addresses.flatten)))))
  | mldv2Report records _ => [0, 0] ++ (ofNat 2 records.length ++ records.flatMap GroupRecord.bytes)
  | routerSolicit options => [0, 0, 0, 0] ++ options.flatMap NdOption.bytes
  | routerAdvert curHopLimit raFlags routerLifetime reachableTime retransTimer options =>
    curHopLimit.bytes ++ (raFlags.bytes ++ (routerLifetime.bytes ++ (reachableTime.bytes ++
      (retransTimer.bytes ++ options.flatMap NdOption.bytes))))
  | neighborSolicit target options =>
    [0] ++ ([0, 0, 0] ++ (target.bytes ++ options.flatMap NdOption.bytes))
  | neighborAdvert naFlags target options =>
    naFlags.bytes ++ ([0, 0, 0] ++ (target.bytes ++ options.flatMap NdOption.bytes))
  | redirect target dest options =>
    [0, 0, 0, 0] ++ (target.bytes ++ (dest.bytes ++ options.flatMap NdOption.bytes))

def bytes (m : Icmp6Message) (code : Number 1) (checksum : Number 2) : Bytes :=
  ofNat 1 m.type ++ (code.bytes ++ (checksum.bytes ++ m.content))

/-- The message with its version and its own values. -/
def object (m : Icmp6Message) (code : Number 1) (checksum : Number 2) : ICMP6 :=
  let base : ICMP6 := { type := m.type, code := code.value, checksum := checksum.value }
  match m with
  | mldQuery maxResp address => { base with
      mldVersion := 1, maxResp := maxResp.value, multicastAddress := address.bytes }
  | mldReport maxResp address => { base with
      mldVersion := 1, maxResp := maxResp.value, multicastAddress := address.bytes }
  | mldDone maxResp address => { base with
      mldVersion := 1, maxResp := maxResp.value, multicastAddress := address.bytes }
  | mldv2Query maxResp address sQrv qqic sources => { base with
      mldVersion := 2, maxResp := maxResp.value, multicastAddress := address.bytes,
      sQrv := sQrv.value, qqic := qqic.value, numSrc := sources.addresses.length,
      sourceAddresses := sources.addresses.flatten }
  | mldv2Report records _ => { base with
      mldVersion := 2, numRecords := records.length, records := records.map GroupRecord.mldv2 }
  | routerSolicit options => { base with options := options.map NdOption.object }
  | routerAdvert curHopLimit raFlags routerLifetime reachableTime retransTimer options =>
    { base with
      curHopLimit := curHopLimit.value, raFlags := raFlags.value,
      routerLifetime := routerLifetime.value, reachableTime := reachableTime.value,
      retransTimer := retransTimer.value, options := options.map NdOption.object }
  | neighborSolicit target options => { base with
      targetAddress := target.bytes, options := options.map NdOption.object }
  | neighborAdvert naFlags target options => { base with
      naFlags := naFlags.value, targetAddress := target.bytes,
      options := options.map NdOption.object }
  | redirect target dest options => { base with
      targetAddress := target.bytes, destAddress := dest.bytes,
      options := options.map NdOption.object }

end Icmp6Message

open Records (readAll)

@[simp] theorem Number.length_bytes {width : Nat} (n : Number width) : n.bytes.length = width :=
  length_ofNat width n.value

theorem Number.read {width : Nat} (n : Number width) (rest : Bytes) :
    readInt width (n.bytes ++ rest) = some (n.value, rest) := readInt_ofNat n.fits rest

theorem Address.take {n : Nat} (a : Address n) (rest : Bytes) :
    takeBytes n (a.bytes ++ rest) = some (a.bytes, rest) := takeBytes_of_length a.size rest

theorem length_flatten {n : Nat} {l : List Bytes} (h : ∀ a ∈ l, a.length = n) :
    l.flatten.length = n * l.length := by
  induction l with
  | nil => simp
  | cons a l ih =>
    have hrest := ih fun b hb => h b (List.mem_cons_of_mem a hb)
    rw [List.flatten_cons, List.length_append, hrest, h a List.mem_cons_self, List.length_cons]
    ring

theorem Sources.take {n : Nat} (s : Sources n) (rest : Bytes) :
    takeBytes (n * s.addresses.length) (s.addresses.flatten ++ rest) =
      some (s.addresses.flatten, rest) := takeBytes_of_length (length_flatten s.sizes) rest

theorem GroupRecord.length_bytes {n : Nat} (r : GroupRecord n) :
    r.bytes.length = 4 + n + n * r.sources.length + 4 * r.auxWords := by
  simp only [GroupRecord.bytes, List.length_append, length_ofNat, r.address_size,
    length_flatten r.sources_size, r.auxData_size]
  omega

theorem decodeIgmpGroupRecord_bytes (r : GroupRecord 4) (rest : Bytes) :
    decodeIgmpGroupRecord (r.bytes ++ rest) = .ok r.igmp := by
  simp only [GroupRecord.bytes, List.append_assoc, decodeIgmpGroupRecord,
    readInt_ofNat r.type_fits, readInt_ofNat r.auxWords_fits, readInt_ofNat r.sources_fit,
    takeBytes_of_length r.address_size, takeBytes_of_length (length_flatten r.sources_size),
    takeBytes_of_length r.auxData_size, need_bind_some]
  rfl

theorem decodeMldv2AddressRecord_bytes (r : GroupRecord 16) (rest : Bytes) :
    decodeMldv2AddressRecord (r.bytes ++ rest) = .ok r.mldv2 := by
  simp only [GroupRecord.bytes, List.append_assoc, decodeMldv2AddressRecord,
    readInt_ofNat r.type_fits, readInt_ofNat r.auxWords_fits, readInt_ofNat r.sources_fit,
    takeBytes_of_length r.address_size, takeBytes_of_length (length_flatten r.sources_size),
    takeBytes_of_length r.auxData_size, need_bind_some]
  rfl

/-- Each record starts where the one before it ends. -/
theorem decodeIgmpGroupRecords_bytes (records : List (GroupRecord 4)) (rest : Bytes) :
    decodeIgmpGroupRecords records.length (records.flatMap GroupRecord.bytes ++ rest) =
      .ok (records.map GroupRecord.igmp) := by
  induction records with
  | nil => rfl
  | cons r records ih =>
    have hlen : r.igmp.byteLen = r.bytes.length := by
      rw [r.length_bytes, IGMPGroupRecord.byteLen]
      dsimp only [GroupRecord.igmp]
      omega
    rw [List.length_cons, decodeIgmpGroupRecords, List.flatMap_cons, List.append_assoc,
      decodeIgmpGroupRecord_bytes]
    simp only [bind, Except.bind, hlen, List.drop_left, ih]
    rfl

theorem decodeMldv2AddressRecords_bytes (records : List (GroupRecord 16)) (rest : Bytes) :
    decodeMldv2AddressRecords records.length (records.flatMap GroupRecord.bytes ++ rest) =
      .ok (records.map GroupRecord.mldv2) := by
  induction records with
  | nil => rfl
  | cons r records ih =>
    have hlen : r.mldv2.byteLen = r.bytes.length := by
      rw [r.length_bytes, MLDv2AddressRecord.byteLen]
      dsimp only [GroupRecord.mldv2]
      omega
    rw [List.length_cons, decodeMldv2AddressRecords, List.flatMap_cons, List.append_assoc,
      decodeMldv2AddressRecord_bytes]
    simp only [bind, Except.bind, hlen, List.drop_left, ih]
    rfl

theorem write_igmp_record (r : GroupRecord 4) : r.igmp.write = r.bytes := by
  simp [IGMPGroupRecord.write, GroupRecord.igmp, GroupRecord.bytes]

theorem write_mldv2_record (r : GroupRecord 16) : r.mldv2.write = r.bytes := by
  simp [MLDv2AddressRecord.write, GroupRecord.mldv2, GroupRecord.bytes]

namespace IgmpMessage

/-- A report of version 3 that reports nothing. -/
def IsEmptyReport : IgmpMessage → Prop
  | v3Report records _ => records = []
  | _ => False

theorem igmpVersion_short (s : Bytes) (operation second : Nat) :
    igmpVersion s operation second 8 =
      if operation = IGMP_MEMBER_QUERY then if second = 0 then 1 else 2
      else if operation = IGMP_V1_MEMBER_REPORT then 1 else 2 := rfl

theorem igmpVersion_long (s : Bytes) (operation second : Nat) {n : Nat} (h : 8 < n) :
    igmpVersion s operation second n = 3 := by
  rw [igmpVersion, if_pos (Nat.ne_of_gt (Nat.lt_trans (by decide) h)), if_pos h]

/-- A message of eight bytes is never taken for one of version 3. -/
theorem decodeIgmp_short {type second version : Nat} (htype : type < 256 ^ 1)
    (hsecond : second < 256 ^ 1) (checksum : Number 2) (address : Address 4)
    (hversion : igmpVersion [] type second 8 = version) :
    decodeIgmp (ofNat 1 type ++ (ofNat 1 second ++ (checksum.bytes ++ address.bytes))) 8 =
      .ok { version := version, type := type, maxResp := if version = 1 then 0 else second,
            checksum := checksum.value,
            groupAddress := if type ≠ IGMP_V3_MEMBER_REPORT then some address.bytes else none } := by
  have haddress := address.take []
  rw [List.append_nil] at haddress
  have hcases : version = 1 ∨ version = 2 := by
    rw [igmpVersion_short] at hversion
    split at hversion
    · split at hversion <;> omega
    · split at hversion <;> omega
  simp only [decodeIgmp, readInt_ofNat htype, readInt_ofNat hsecond, checksum.read, haddress,
    need_bind_some]
  rw [igmpVersion_short, ← igmpVersion_short [], hversion, if_neg (by decide)]
  rcases hcases with rfl | rfl
  · rfl
  · rfl

theorem decodeIgmp_bytes {m : IgmpMessage} (hm : ¬m.IsEmptyReport) {checksum : Number 2}
    (hfits : (m.bytes checksum).length < 65536) :
    decodeIgmp (m.bytes checksum) (m.bytes checksum).length = .ok (m.object checksum) := by
  have hlen : (m.bytes checksum).length = 4 + m.content.length := by
    simp only [bytes, List.length_append, length_ofNat, Number.length_bytes]
    omega
  cases m with
  | query maxResp group =>
    rw [hlen, content, group.size]
    by_cases hzero : maxResp.value = 0
    · have hread := decodeIgmp_short (show IGMP_MEMBER_QUERY < 256 ^ 1 by decide) maxResp.fits
        checksum group (by rw [igmpVersion_short, if_pos rfl, if_pos hzero])
      have hobject : (query maxResp group).object checksum =
          { version := 1, type := IGMP_MEMBER_QUERY, maxResp := 0,
            checksum := checksum.value, groupAddress := some group.bytes } := by
        simp only [object, version, second, type, hzero, if_true]
      rw [hobject]
      exact hread
    · have hread := decodeIgmp_short (show IGMP_MEMBER_QUERY < 256 ^ 1 by decide) maxResp.fits
        checksum group (by rw [igmpVersion_short, if_pos rfl, if_neg hzero])
      have hobject : (query maxResp group).object checksum =
          { version := 2, type := IGMP_MEMBER_QUERY, maxResp := maxResp.value,
            checksum := checksum.value, groupAddress := some group.bytes } := by
        simp only [object, version, second, type, hzero, if_false]
      rw [hobject]
      exact hread
  | v1Report group =>
    rw [hlen, content, group.size]
    exact decodeIgmp_short (show IGMP_V1_MEMBER_REPORT < 256 ^ 1 by decide)
      (show 0 < 256 ^ 1 by decide) checksum group rfl
  | v2Report maxResp group =>
    rw [hlen, content, group.size]
    exact decodeIgmp_short (show IGMP_V2_MEMBER_REPORT < 256 ^ 1 by decide) maxResp.fits checksum group rfl
  | leave maxResp group =>
    rw [hlen, content, group.size]
    exact decodeIgmp_short (show IGMP_LEAVE_GROUP < 256 ^ 1 by decide) maxResp.fits checksum group rfl
  | v3Query maxResp group sQrv qqic sources =>
    have hlong : 8 < ((v3Query maxResp group sQrv qqic sources).bytes checksum).length := by
      rw [hlen]
      simp only [content, List.length_append, group.size, Number.length_bytes, length_ofNat]
      omega
    have hsources := sources.take []
    rw [List.append_nil] at hsources
    generalize hn : ((v3Query maxResp group sQrv qqic sources).bytes checksum).length = n at *
    simp only [bytes, content, decodeIgmp, type, second,
      readInt_ofNat (show IGMP_MEMBER_QUERY < 256 ^ 1 by decide), readInt_ofNat maxResp.fits,
      checksum.read, group.take, need_bind_some, igmpVersion_long _ _ _ hlong,
      if_neg (Nat.not_le_of_lt hfits), sQrv.read, qqic.read,
      readInt_ofNat sources.count_fits, hsources]
    rfl
  | v3Report records count_fits =>
    obtain ⟨r, rest, rfl⟩ : ∃ r rest, records = r :: rest := List.exists_cons_of_ne_nil hm
    generalize hrecords : r :: rest = records at *
    have hlong : 8 < ((v3Report records count_fits).bytes checksum).length := by
      have hpos : 8 ≤ (records.flatMap GroupRecord.bytes).length := by
        rw [← hrecords, List.flatMap_cons, List.length_append, r.length_bytes]
        omega
      rw [hlen]
      simp only [content, List.length_append, length_ofNat, List.length_cons, List.length_nil]
      omega
    have haddress : ([0, 0] ++ ofNat 2 records.length).length = 4 := by simp
    have hcount : BigEndian.toNat (([0, 0] ++ ofNat 2 records.length).drop 2) =
        records.length := BigEndian.toNat_ofNat count_fits
    have hparsed := decodeIgmpGroupRecords_bytes records []
    rw [List.append_nil] at hparsed
    generalize hn : ((v3Report records count_fits).bytes checksum).length = n at *
    simp only [bytes, content, decodeIgmp, type, second,
      readInt_ofNat (show IGMP_V3_MEMBER_REPORT < 256 ^ 1 by decide),
      readInt_ofNat (show 0 < 256 ^ 1 by decide), checksum.read, takeBytes_of_length haddress,
      need_bind_some, igmpVersion_long _ _ _ hlong, if_neg (Nat.not_le_of_lt hfits), hcount,
      hparsed]
    rfl

theorem decodeIgmp_emptyReport (checksum : Number 2) (h : [].length < 256 ^ 2) :
    decodeIgmp ((v3Report [] h).bytes checksum) ((v3Report [] h).bytes checksum).length =
      .ok { version := 2, type := IGMP_V3_MEMBER_REPORT, maxResp := 0,
            checksum := checksum.value } := by
  have hlen : ((v3Report [] h).bytes checksum).length = 8 := by simp [bytes, content]
  rw [hlen]
  exact decodeIgmp_short (show IGMP_V3_MEMBER_REPORT < 256 ^ 1 by decide)
    (show 0 < 256 ^ 1 by decide) checksum ⟨[0, 0, 0, 0], rfl⟩ rfl

/-- Without keywords a message is written as it was. -/
theorem write_object (m : IgmpMessage) (checksum : Number 2) :
    (m.object checksum).write false false = some (m.bytes checksum) := by
  cases m with
  | query maxResp group =>
    by_cases hzero : maxResp.value = 0
    · simp [object, IGMP.write, IGMP.content, IGMP.second, version, bytes, content, type, second,
        hzero, Number.bytes]
    · simp [object, IGMP.write, IGMP.content, IGMP.second, version, bytes, content, type, second,
        hzero, Number.bytes]
  | v1Report group =>
    simp [object, IGMP.write, IGMP.content, IGMP.second, version, bytes, content, type, second,
      Number.bytes]
  | v2Report maxResp group =>
    simp [object, IGMP.write, IGMP.content, IGMP.second, version, bytes, content, type, second,
      Number.bytes]
  | leave maxResp group =>
    simp [object, IGMP.write, IGMP.content, IGMP.second, version, bytes, content, type, second,
      Number.bytes]
  | v3Query maxResp group sQrv qqic sources =>
    simp [object, IGMP.write, IGMP.content, IGMP.second, version, bytes, content, type, second,
      Number.bytes]
  | v3Report records count_fits =>
    have hrecords : (records.map GroupRecord.igmp).flatMap IGMPGroupRecord.write =
        records.flatMap GroupRecord.bytes := by
      rw [List.flatMap_map]
      exact congrArg (records.flatMap ·) (funext write_igmp_record)
    have hzeros : ofNat 2 0 = [0, 0] := rfl
    have hreport : ¬IGMP_V3_MEMBER_REPORT = IGMP_MEMBER_QUERY := by decide
    simp [object, IGMP.write, IGMP.content, IGMP.second, version, bytes, content, type, second,
      Number.bytes, hrecords, hzeros, hreport]

end IgmpMessage

theorem NdOption.length_bytes (o : NdOption) : o.bytes.length = 8 * o.length.value := by
  have hsize := o.data_size
  simp only [NdOption.bytes, List.length_append, Number.length_bytes]
  omega

theorem decodeIcmp6Opt_bytes (o : NdOption) : decodeIcmp6Opt o.bytes = some o.object := by
  have hdata : takeBytes (o.length.value * 8 - 2) o.data = some (o.data, []) := by
    have htake := takeBytes_of_length (show o.data.length = o.length.value * 8 - 2 by
      have hsize := o.data_size
      omega) []
    rwa [List.append_nil] at htake
  simp only [decodeIcmp6Opt, NdOption.bytes, Number.read, hdata, Option.bind_eq_bind,
    Option.bind_some, Option.pure_def, NdOption.object]

theorem nextOption_bytes (o : NdOption) (rest : Bytes) :
    nextOption (o.bytes ++ rest) = some (o.object, rest) := by
  have hfits : o.length.value < 256 := o.length.fits
  have hsplit : o.bytes ++ rest =
      UInt8.ofNat (o.type.value / 256 ^ 0) :: UInt8.ofNat (o.length.value / 256 ^ 0) ::
        (o.data ++ rest) := by
    simp only [NdOption.bytes, List.append_assoc]
    rfl
  have hlength : (UInt8.ofNat (o.length.value / 256 ^ 0)).toNat = o.length.value := by
    rw [UInt8.toNat_ofNat', Nat.pow_zero, Nat.div_one]
    exact Nat.mod_eq_of_lt hfits
  have hbytes := o.length_bytes
  have hnonempty := o.nonempty
  have hroom : ¬(o.length.value * 8 = 0 ∨ (o.bytes ++ rest).length < o.length.value * 8) := by
    rw [List.length_append]
    omega
  have htake : (o.bytes ++ rest).take (o.length.value * 8) = o.bytes := List.take_left' (by omega)
  have hdrop : (o.bytes ++ rest).drop (o.length.value * 8) = rest := List.drop_left' (by omega)
  rw [hsplit] at hroom htake hdrop ⊢
  simp only [nextOption, hlength]
  rw [if_neg hroom, htake, hdrop, decodeIcmp6Opt_bytes, Option.map_some]

theorem write_option (o : NdOption) : o.object.write = o.bytes := by
  simp [NdOption.bytes, NdOption.object, ICMP6Opt.write, Number.bytes]

theorem nextOption_consumes : Records.Consumes nextOption := by
  intro s o rest h
  unfold nextOption at h
  split at h
  · dsimp only at h
    split at h
    · cases h
    · rename_i hroom
      obtain ⟨opt, -, hopt⟩ := Option.map_eq_some_iff.mp h
      simp only [Prod.mk.injEq] at hopt
      rw [← hopt.2, List.length_drop]
      omega
  · cases h

theorem flatMap_write_options (options : List NdOption) :
    (options.map NdOption.object).flatMap ICMP6Opt.write = options.flatMap NdOption.bytes := by
  rw [List.flatMap_map]
  exact congrArg (options.flatMap ·) (funext write_option)

theorem readAll_options (options : List NdOption) :
    readAll nextOption (options.flatMap NdOption.bytes).length (options.flatMap NdOption.bytes) =
      (options.map NdOption.object, []) := by
  have hread : ∀ opt ∈ options.map NdOption.object, ∀ rest,
      nextOption (opt.write ++ rest) = some (opt, rest) := by
    intro opt hopt rest
    obtain ⟨o, -, rfl⟩ := List.mem_map.mp hopt
    rw [write_option]
    exact nextOption_bytes o rest
  have hall := Records.readAll_flatMap nextOption_consumes hread (rfl : nextOption [] = none)
  rwa [List.append_nil, flatMap_write_options] at hall

theorem parseOptions_bytes (pkt : ICMP6) (options : List NdOption) :
    pkt.parseOptions (options.flatMap NdOption.bytes) =
      { pkt with options := options.map NdOption.object, body := [] } := by
  rw [ICMP6.parseOptions, readAll_options]

theorem tail_options {pkt : ICMP6} {options : List NdOption}
    (hoptions : pkt.options = options.map NdOption.object) (hbody : pkt.body = []) :
    pkt.tail = options.flatMap NdOption.bytes := by
  rw [ICMP6.tail, hoptions, hbody, flatMap_write_options, List.append_nil]

namespace Icmp6Message

theorem type_fits (m : Icmp6Message) : m.type < 256 ^ 1 := by
  have hall : ∀ type ∈ [ICMP6_MLD_QUERY, ICMP6_MLD_REPORT, ICMP6_MLD_DONE, ICMP6_MLDV2_REPORT,
      ICMP6_ND_ROUTER_SOLICIT, ICMP6_ND_ROUTER_ADVERT, ICMP6_ND_NEIGHBOR_SOLICIT,
      ICMP6_ND_NEIGHBOR_ADVERT, ICMP6_ND_REDIRECT], type < 256 ^ 1 := by decide
  apply hall
  cases m <;> simp [type]

theorem length_bytes (m : Icmp6Message) (code : Number 1) (checksum : Number 2) :
    (m.bytes code checksum).length = 4 + m.content.length := by
  simp only [bytes, List.length_append, length_ofNat, Number.length_bytes]
  omega

/-- A message of MLD that is not of version 2. -/
theorem decodeIcmp6_mld (inner : Decoder) {m : Icmp6Message} (code : Number 1)
    (checksum maxResp : Number 2) (address : Address 16) (hmld : ICMP6.isMld m.type = true)
    (hcontent : m.content = mldBytes maxResp address) :
    decodeIcmp6 inner (m.bytes code checksum) =
      .ok { type := m.type, code := code.value, checksum := checksum.value, mldVersion := 1,
            maxResp := maxResp.value, multicastAddress := address.bytes } := by
  have hshort : ¬(m.type = ICMP6_MLD_QUERY ∧ 24 < (m.bytes code checksum).length) := by
    rw [length_bytes, hcontent]
    simp [mldBytes, address.size]
  have hkind : ICMP6.isEcho m.type = false ∧ ICMP6.isError m.type = false := by
    simp only [ICMP6.isMld, Bool.or_eq_true, decide_eq_true_eq] at hmld
    rcases hmld with (htype | htype) | htype
    · rw [htype]
      decide
    · rw [htype]
      decide
    · rw [htype]
      decide
  have haddress := address.take []
  rw [List.append_nil] at haddress
  have hreserved := takeBytes_of_length (show [(0 : UInt8), 0].length = 2 from rfl) address.bytes
  rw [decodeIcmp6]
  generalize (m.bytes code checksum).length = n at *
  simp only [bytes, hcontent, mldBytes, readInt_ofNat m.type_fits, code.read, checksum.read,
    maxResp.read, hreserved, haddress, need_bind_some, hkind, hmld, if_neg hshort,
    Bool.false_eq_true, if_false, if_true]
  rfl

/-- Whatever the decoder of quoted packets is: these messages quote none. -/
theorem decodeIcmp6_bytes (inner : Decoder) (m : Icmp6Message) (code : Number 1)
    (checksum : Number 2) :
    decodeIcmp6 inner (m.bytes code checksum) = .ok (m.object code checksum) := by
  have htype := m.type_fits
  have hlen := m.length_bytes code checksum
  cases m with
  | mldQuery maxResp address => exact decodeIcmp6_mld inner code checksum maxResp address rfl rfl
  | mldReport maxResp address => exact decodeIcmp6_mld inner code checksum maxResp address rfl rfl
  | mldDone maxResp address => exact decodeIcmp6_mld inner code checksum maxResp address rfl rfl
  | mldv2Query maxResp address sQrv qqic sources =>
    have hlong : 24 < ((mldv2Query maxResp address sQrv qqic sources).bytes code
        checksum).length := by
      rw [hlen]
      simp only [content, List.length_append, Number.length_bytes, address.size, length_ofNat]
      omega
    have hreserved := takeBytes_of_length (show [(0 : UInt8), 0].length = 2 from rfl)
      (address.bytes ++ (sQrv.bytes ++ (qqic.bytes ++
        (ofNat 2 sources.addresses.length ++ sources.addresses.flatten))))
    have hsources := sources.take []
    rw [List.append_nil] at hsources
    rw [decodeIcmp6]
    generalize hn : ((mldv2Query maxResp address sQrv qqic sources).bytes code
      checksum).length = n at *
    simp only [bytes, content, readInt_ofNat htype, code.read, checksum.read, maxResp.read,
      hreserved, address.take, sQrv.read, qqic.read, readInt_ofNat sources.count_fits, hsources,
      need_bind_some, hlong, and_true]
    rfl
  | mldv2Report records count_fits =>
    have hreserved := takeBytes_of_length (show [(0 : UInt8), 0].length = 2 from rfl)
      (ofNat 2 records.length ++ records.flatMap GroupRecord.bytes)
    have hrecords := decodeMldv2AddressRecords_bytes records []
    rw [List.append_nil] at hrecords
    simp only [decodeIcmp6, bytes, content, readInt_ofNat htype, code.read, checksum.read,
      hreserved, readInt_ofNat count_fits, hrecords, need_bind_some]
    rfl
  | routerSolicit options =>
    have hreserved := takeBytes_of_length (show [(0 : UInt8), 0, 0, 0].length = 4 from rfl)
      (options.flatMap NdOption.bytes)
    simp only [decodeIcmp6, bytes, content, readInt_ofNat htype, code.read, checksum.read,
      hreserved, need_bind_some, parseOptions_bytes]
    rfl
  | routerAdvert curHopLimit raFlags routerLifetime reachableTime retransTimer options =>
    simp only [decodeIcmp6, bytes, content, readInt_ofNat htype, code.read, checksum.read,
      curHopLimit.read, raFlags.read, routerLifetime.read, reachableTime.read,
      retransTimer.read, need_bind_some, parseOptions_bytes]
    rfl
  | neighborSolicit target options =>
    have hflags : readInt 1 ([0] ++ ([0, 0, 0] ++ (target.bytes ++
        options.flatMap NdOption.bytes))) =
          some (0, [0, 0, 0] ++ (target.bytes ++ options.flatMap NdOption.bytes)) :=
      readInt_ofNat (show 0 < 256 ^ 1 by decide) _
    have hreserved := takeBytes_of_length (show [(0 : UInt8), 0, 0].length = 3 from rfl)
      (target.bytes ++ options.flatMap NdOption.bytes)
    simp only [decodeIcmp6, bytes, content, readInt_ofNat htype, code.read, checksum.read,
      hflags, hreserved, target.take, need_bind_some, parseOptions_bytes]
    rfl
  | neighborAdvert naFlags target options =>
    have hreserved := takeBytes_of_length (show [(0 : UInt8), 0, 0].length = 3 from rfl)
      (target.bytes ++ options.flatMap NdOption.bytes)
    simp only [decodeIcmp6, bytes, content, readInt_ofNat htype, code.read, checksum.read,
      naFlags.read, hreserved, target.take, need_bind_some, parseOptions_bytes]
    rfl
  | redirect target dest options =>
    have hreserved := takeBytes_of_length (show [(0 : UInt8), 0, 0, 0].length = 4 from rfl)
      (target.bytes ++ (dest.bytes ++ options.flatMap NdOption.bytes))
    simp only [decodeIcmp6, bytes, content, readInt_ofNat htype, code.read, checksum.read,
      hreserved, target.take, dest.take, need_bind_some, parseOptions_bytes]
    rfl

theorem flatMap_write_mldv2 (records : List (GroupRecord 16)) :
    (records.map GroupRecord.mldv2).flatMap MLDv2AddressRecord.write =
      records.flatMap GroupRecord.bytes := by
  rw [List.flatMap_map]
  exact congrArg (records.flatMap ·) (funext write_mldv2_record)

/-- What `_write` appends for a message of MLD that is not of version 2. -/
theorem message_mld {pkt : ICMP6} (hmld : ICMP6.isMld pkt.type = true)
    (hversion : pkt.mldVersion = 1) :
    pkt.message = ofNat 2 pkt.maxResp ++ [0, 0] ++ pkt.multicastAddress := by
  have hkind : ICMP6.isEcho pkt.type = false := by
    simp only [ICMP6.isMld, Bool.or_eq_true, decide_eq_true_eq] at hmld
    rcases hmld with (htype | htype) | htype
    · rw [htype]
      decide
    · rw [htype]
      decide
    · rw [htype]
      decide
  simp [ICMP6.message, hkind, hmld, hversion]

/-- The part of a message behind its checksum is written as it was. -/
theorem message_object (m : Icmp6Message) (code : Number 1) (checksum : Number 2) :
    (m.object code checksum).message = m.content := by
  cases m with
  | mldQuery maxResp address =>
    rw [message_mld rfl rfl]
    simp [object, content, mldBytes, Number.bytes]
  | mldReport maxResp address =>
    rw [message_mld rfl rfl]
    simp [object, content, mldBytes, Number.bytes]
  | mldDone maxResp address =>
    rw [message_mld rfl rfl]
    simp [object, content, mldBytes, Number.bytes]
  | mldv2Query maxResp address sQrv qqic sources =>
    have hform : ((mldv2Query maxResp address sQrv qqic sources).object code checksum).message =
        ofNat 2 maxResp.value ++ [0, 0] ++ address.bytes ++ (ofNat 1 sQrv.value ++
          ofNat 1 qqic.value ++ ofNat 2 (sources.addresses.flatten.length / 16) ++
            sources.addresses.flatten) := rfl
    have hcount : sources.addresses.flatten.length / 16 = sources.addresses.length := by
      rw [length_flatten sources.sizes]
      omega
    rw [hform, hcount]
    simp [content, Number.bytes]
  | mldv2Report records count_fits =>
    have hform : ((mldv2Report records count_fits).object code checksum).message =
        [0, 0] ++ ofNat 2 (records.map GroupRecord.mldv2).length ++
          (records.map GroupRecord.mldv2).flatMap MLDv2AddressRecord.write := rfl
    rw [hform, flatMap_write_mldv2, List.length_map]
    simp [content]
  | routerSolicit options =>
    have htail : ((routerSolicit options).object code checksum).tail =
        options.flatMap NdOption.bytes := tail_options rfl rfl
    have hform : ((routerSolicit options).object code checksum).message =
        [0, 0, 0, 0] ++ ((routerSolicit options).object code checksum).tail := rfl
    rw [hform, htail, content]
  | routerAdvert curHopLimit raFlags routerLifetime reachableTime retransTimer options =>
    generalize hpkt : (routerAdvert curHopLimit raFlags routerLifetime reachableTime retransTimer
      options).object code checksum = pkt
    have htail : pkt.tail = options.flatMap NdOption.bytes := by
      rw [← hpkt]
      exact tail_options rfl rfl
    have hform : pkt.message = ofNat 1 curHopLimit.value ++ ofNat 1 raFlags.value ++
        ofNat 2 routerLifetime.value ++ ofNat 4 reachableTime.value ++
          ofNat 4 retransTimer.value ++ pkt.tail := by
      rw [← hpkt]
      rfl
    rw [hform, htail]
    simp [content, Number.bytes]
  | neighborSolicit target options =>
    have htail : ((neighborSolicit target options).object code checksum).tail =
        options.flatMap NdOption.bytes := tail_options rfl rfl
    have hform : ((neighborSolicit target options).object code checksum).message =
        [0, 0, 0, 0] ++ target.bytes ++
          ((neighborSolicit target options).object code checksum).tail := rfl
    rw [hform, htail]
    simp [content]
  | neighborAdvert naFlags target options =>
    have htail : ((neighborAdvert naFlags target options).object code checksum).tail =
        options.flatMap NdOption.bytes := tail_options rfl rfl
    have hform : ((neighborAdvert naFlags target options).object code checksum).message =
        (ofNat 1 naFlags.value ++ [0, 0, 0]) ++ target.bytes ++
          ((neighborAdvert naFlags target options).object code checksum).tail := rfl
    rw [hform, htail]
    simp [content, Number.bytes]
  | redirect target dest options =>
    have htail : ((redirect target dest options).object code checksum).tail =
        options.flatMap NdOption.bytes := tail_options rfl rfl
    have hform : ((redirect target dest options).object code checksum).message =
        [0, 0, 0, 0] ++ target.bytes ++ dest.bytes ++
          ((redirect target dest options).object code checksum).tail := rfl
    rw [hform, htail]
    simp [content]

theorem write_object (m : Icmp6Message) (code : Number 1) (checksum : Number 2) {k : Keywords}
    (hk : k.csum = false) : (m.object code checksum).write k = m.bytes code checksum := by
  have herror : ICMP6.isError (m.object code checksum).type = false := by cases m <;> rfl
  have hheader : (⟨(m.object code checksum).type, (m.object code checksum).code,
      (m.object code checksum).checksum⟩ : ICMPHeader) = ⟨m.type, code.value, checksum.value⟩ := by
    cases m <;> rfl
  rw [ICMP6.write, ICMP6.layer, herror, if_neg Bool.false_ne_true, message_object, hheader]
  simp [Layer.write, hk, ICMPHeader.bytes, bytes, Number.bytes]

end Icmp6Message

end Packets.Inet
