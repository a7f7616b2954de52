/-
ICMPv6 messages: `ICMP6`, `ICMP6Opt` and `MLDv2AddressRecord` (`core/inetpkt.pyx`).
-/
import Packets.Inet.Decode
import Packets.Lib.Records

namespace Packets.Inet

open BigEndian (readInt takeBytes)
open Records (Reader readAll)

def ICMP6_DST_UNREACH : Nat := 1
def ICMP6_PKT_TOO_BIG : Nat := 2
def ICMP6_TIME_EXCEEDED : Nat := 3
def ICMP6_PARAM_PROB : Nat := 4
def ICMP6_ECHO_REQUEST : Nat := 128
def ICMP6_ECHO_REPLY : Nat := 129
def ICMP6_MLD_QUERY : Nat := 130
def ICMP6_MLD_REPORT : Nat := 131
def ICMP6_MLD_DONE : Nat := 132
def ICMP6_ND_ROUTER_SOLICIT : Nat := 133
def ICMP6_ND_ROUTER_ADVERT : Nat := 134
def ICMP6_ND_NEIGHBOR_SOLICIT : Nat := 135
def ICMP6_ND_NEIGHBOR_ADVERT : Nat := 136
def ICMP6_ND_REDIRECT : Nat := 137
def ICMP6_MLDV2_REPORT : Nat := 143

/-- `ICMP6Opt`.  The length counts the whole option in units of eight bytes. -/
structure ICMP6Opt where
  type : Nat
  length : Nat
  data : Bytes
deriving DecidableEq

/-- `MLDv2AddressRecord`.  The auxiliary data is counted in words. -/
structure MLDv2AddressRecord where
  type : Nat
  auxDataLen : Nat
  numSrc : Nat
  multicastAddress : Bytes
  sourceAddresses : Bytes
  auxData : Bytes
deriving DecidableEq

/-- `_V6_ANY` -/
def v6Any : Bytes := List.replicate 16 0

/-- `ICMP6`.  `hdrPkt` is the packet an error quotes. -/
structure ICMP6 where
  type : Nat
  code : Nat
  checksum : Nat
  identifier : Nat := 0
  sequence : Nat := 0
  echoData : Bytes := []
  errWord : Nat := 0
  hdrPkt : Layer := .null []
  mldVersion : Nat := 0
  maxResp : Nat := 0
  multicastAddress : Bytes := v6Any
  sQrv : Nat := 0
  qqic : Nat := 0
  numSrc : Nat := 0
  sourceAddresses : Bytes := []
  numRecords : Nat := 0
  records : List MLDv2AddressRecord := []
  curHopLimit : Nat := 0
  raFlags : Nat := 0
  routerLifetime : Nat := 0
  reachableTime : Nat := 0
  retransTimer : Nat := 0
  naFlags : Nat := 0
  targetAddress : Bytes := v6Any
  destAddress : Bytes := v6Any
  options : List ICMP6Opt := []
  body : Bytes := []
deriving DecidableEq

/-- `_decode_icmp6_opt` -/
def decodeIcmp6Opt (s : Bytes) : Option ICMP6Opt := do
  let (type, rest) ← readInt 1 s
  let (length, rest) ← readInt 1 rest
  let (data, _) ← takeBytes (length * 8 - 2) rest
  pure ⟨type, length, data⟩

/-- One step of `_parse_options`, which does not go on when a length is zero or runs off the end. -/
def nextOption : Reader ICMP6Opt UInt8
  | type :: length :: rest =>
    let size := length.toNat * 8
    if size = 0 ∨ (type :: length :: rest).length < size then none
    else
      (decodeIcmp6Opt ((type :: length :: rest).take size)).map fun opt =>
        (opt, (type :: length :: rest).drop size)
  | _ => none

/-- `_parse_options`.  What is left when it stops is the body. -/
def ICMP6.parseOptions (m : ICMP6) (s : Bytes) : ICMP6 :=
  let walk := readAll nextOption s.length s
  { m with options := walk.1, body := walk.2 }

/-- `byte_len` -/
def MLDv2AddressRecord.byteLen (r : MLDv2AddressRecord) : Nat :=
  20 + r.numSrc * 16 + r.auxDataLen * 4

/-- `_decode_mldv2_address_record`, of what is left of the message. -/
def decodeMldv2AddressRecord (s : Bytes) : Except Failure MLDv2AddressRecord := do
  let (type, rest) ← need (readInt 1 s)
  let (auxDataLen, rest) ← need (readInt 1 rest)
  let (numSrc, rest) ← need (readInt 2 rest)
  let (multicastAddress, rest) ← need (takeBytes 16 rest)
  let (sourceAddresses, rest) ← need (takeBytes (16 * numSrc) rest)
  let (auxData, _) ← need (takeBytes (4 * auxDataLen) rest)
  pure ⟨type, auxDataLen, numSrc, multicastAddress, sourceAddresses, auxData⟩

/-- The loop over the records.  Each starts `byte_len` behind the one before. -/
def decodeMldv2AddressRecords : Nat → Bytes → Except Failure (List MLDv2AddressRecord)
  | 0, _ => pure []
  | n + 1, s => do
    let rec' ← decodeMldv2AddressRecord s
    let rest ← decodeMldv2AddressRecords n (s.drop rec'.byteLen)
    pure (rec' :: rest)

namespace ICMP6

def isEcho (type : Nat) : Bool := type = ICMP6_ECHO_REQUEST || type = ICMP6_ECHO_REPLY

def isError (type : Nat) : Bool :=
  type = ICMP6_DST_UNREACH || type = ICMP6_PKT_TOO_BIG || type = ICMP6_TIME_EXCEEDED ||
    type = ICMP6_PARAM_PROB

def isMld (type : Nat) : Bool :=
  type = ICMP6_MLD_QUERY || type = ICMP6_MLD_REPORT || type = ICMP6_MLD_DONE

end ICMP6

/-- `_decode_icmp6`.  A quoted packet that cannot be parsed is kept as its bytes. -/
def decodeIcmp6 (inner : Decoder) (s : Bytes) : Except Failure ICMP6 := do
  let (type, rest) ← need (readInt 1 s)
  let (code, rest) ← need (readInt 1 rest)
  let (checksum, rest) ← need (readInt 2 rest)
  let pkt : ICMP6 := { type := type, code := code, checksum := checksum }
  if ICMP6.isEcho type then do
    let (identifier, rest) ← need (readInt 2 rest)
    let (sequence, echoData) ← need (readInt 2 rest)
    pure { pkt with identifier := identifier, sequence := sequence, echoData := echoData }
  else if ICMP6.isError type then do
    let (errWord, rest) ← need (readInt 4 rest)
    if rest.isEmpty then pure { pkt with errWord := errWord }
    else
      match inner .ip6 rest with
      | .ok hdrPkt => pure { pkt with errWord := errWord, hdrPkt := hdrPkt }
      | .error .valueError => pure { pkt with errWord := errWord, hdrPkt := .null rest }
      | .error e => .error e
  else if ICMP6.isMld type then do
    let (maxResp, rest) ← need (readInt 2 rest)
    let (_, rest) ← need (takeBytes 2 rest)
    let (multicastAddress, rest) ← need (takeBytes 16 rest)
    let pkt := { pkt with
      mldVersion := 1, maxResp := maxResp, multicastAddress := multicastAddress }
    if type = ICMP6_MLD_QUERY ∧ 24 < s.length then do
      let (sQrv, rest) ← need (readInt 1 rest)
      let (qqic, rest) ← need (readInt 1 rest)
      let (numSrc, rest) ← need (readInt 2 rest)
      let (sourceAddresses, _) ← need (takeBytes (16 * numSrc) rest)
      pure { pkt with
        mldVersion := 2, sQrv := sQrv, qqic := qqic, numSrc := numSrc,
        sourceAddresses := sourceAddresses }
    else pure pkt
  else if type = ICMP6_MLDV2_REPORT then do
    let (_, rest) ← need (takeBytes 2 rest)
    let (numRecords, rest) ← need (readInt 2 rest)
    let records ← decodeMldv2AddressRecords numRecords rest
    pure { pkt with mldVersion := 2, numRecords := numRecords, records := records }
  else if type = ICMP6_ND_ROUTER_SOLICIT then do
    let (_, rest) ← need (takeBytes 4 rest)
    pure (pkt.parseOptions rest)
  else if type = ICMP6_ND_ROUTER_ADVERT then do
    let (curHopLimit, rest) ← need (readInt 1 rest)
    let (raFlags, rest) ← need (readInt 1 rest)
    let (routerLifetime, rest) ← need (readInt 2 rest)
    let (reachableTime, rest) ← need (readInt 4 rest)
    let (retransTimer, rest) ← need (readInt 4 rest)
    pure (ICMP6.parseOptions { pkt with
      curHopLimit := curHopLimit, raFlags := raFlags, routerLifetime := routerLifetime,
      reachableTime := reachableTime, retransTimer := retransTimer } rest)
  else if type = ICMP6_ND_NEIGHBOR_SOLICIT ∨ type = ICMP6_ND_NEIGHBOR_ADVERT then do
    let (naFlags, rest) ← need (readInt 1 rest)
    let (_, rest) ← need (takeBytes 3 rest)
    let (targetAddress, rest) ← need (takeBytes 16 rest)
    pure (ICMP6.parseOptions { pkt with
      naFlags := if type = ICMP6_ND_NEIGHBOR_ADVERT then naFlags else 0,
      targetAddress := targetAddress } rest)
  else if type = ICMP6_ND_REDIRECT then do
    let (_, rest) ← need (takeBytes 4 rest)
    let (targetAddress, rest) ← need (takeBytes 16 rest)
    let (destAddress, rest) ← need (takeBytes 16 rest)
    pure (ICMP6.parseOptions { pkt with
      targetAddress := targetAddress, destAddress := destAddress } rest)
  else pure { pkt with body := rest }

/-- `ICMP6Opt._write` -/
def ICMP6Opt.write (o : ICMP6Opt) : Bytes :=
  BigEndian.ofNat 1 o.type ++ BigEndian.ofNat 1 o.length ++ o.data

/-- `MLDv2AddressRecord._write` -/
def MLDv2AddressRecord.write (r : MLDv2AddressRecord) : Bytes :=
  BigEndian.ofNat 1 r.type ++ BigEndian.ofNat 1 r.auxDataLen ++ BigEndian.ofNat 2 r.numSrc ++
    r.multicastAddress ++ r.sourceAddresses ++ r.auxData

namespace ICMP6

/-- The options and what was left behind them. -/
def tail (m : ICMP6) : Bytes := m.options.flatMap ICMP6Opt.write ++ m.body

/-- What `_write` appends to the header of a message that quotes nothing. -/
def message (m : ICMP6) : Bytes :=
  if isEcho m.type then
    BigEndian.ofNat 2 m.identifier ++ BigEndian.ofNat 2 m.sequence ++ m.echoData
  else if isMld m.type then
    BigEndian.ofNat 2 m.maxResp ++ [0, 0] ++ m.multicastAddress ++
      if m.type = ICMP6_MLD_QUERY ∧ m.mldVersion = 2 then
        BigEndian.ofNat 1 m.sQrv ++ BigEndian.ofNat 1 m.qqic ++
          BigEndian.ofNat 2 (m.sourceAddresses.length / 16) ++ m.sourceAddresses
      else []
  else if m.type = ICMP6_MLDV2_REPORT then
    [0, 0] ++ BigEndian.ofNat 2 m.records.length ++ m.records.flatMap MLDv2AddressRecord.write
  else if m.type = ICMP6_ND_ROUTER_SOLICIT then [0, 0, 0, 0] ++ m.tail
  else if m.type = ICMP6_ND_ROUTER_ADVERT then
    BigEndian.ofNat 1 m.curHopLimit ++ BigEndian.ofNat 1 m.raFlags ++
      BigEndian.ofNat 2 m.routerLifetime ++ BigEndian.ofNat 4 m.reachableTime ++
      BigEndian.ofNat 4 m.retransTimer ++ m.tail
  else if m.type = ICMP6_ND_NEIGHBOR_SOLICIT ∨ m.type = ICMP6_ND_NEIGHBOR_ADVERT then
    (if m.type = ICMP6_ND_NEIGHBOR_ADVERT then BigEndian.ofNat 1 m.naFlags ++ [0, 0, 0]
      else [0, 0, 0, 0]) ++ m.targetAddress ++ m.tail
  else if m.type = ICMP6_ND_REDIRECT then
    [0, 0, 0, 0] ++ m.targetAddress ++ m.destAddress ++ m.tail
  else m.body

/-- The message as a layer, which is written with its header. -/
def layer (m : ICMP6) : Layer :=
  if isError m.type then
    .icmp6Error ⟨m.type, m.code, m.checksum⟩ (BigEndian.ofNat 4 m.errWord) m.hdrPkt
  else .icmp6 ⟨m.type, m.code, m.checksum⟩ m.message

/-- `ICMP6._write` -/
def write (k : Keywords) (m : ICMP6) : Bytes := m.layer.write k

end ICMP6

end Packets.Inet
