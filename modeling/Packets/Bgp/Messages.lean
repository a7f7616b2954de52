/-
The BGP codec: framing, and the OPEN and NOTIFICATION messages
(`plugins/bgp/wire.pyx`, with the primitives of `core/inetpkt.pyx`).
-/
import Packets.Bgp.PeerConfig
import Packets.Bgp.Wire

namespace Packets

def MIN_OPEN : Nat := 29
def MAX_MSG : Nat := 4096

/-- `_length_fits_type`: the length rule of each message type. -/
def lengthFitsType (mtype : UInt8) (mlen : Nat) : Bool :=
  if mtype = MSG_KEEPALIVE then mlen = HEADER_LEN
  else if mtype = MSG_OPEN then MIN_OPEN ≤ mlen ∧ mlen ≤ MAX_MSG
  else if mtype = MSG_UPDATE then MIN_UPDATE ≤ mlen
  else if mtype = MSG_NOTIFICATION then HEADER_LEN + 2 ≤ mlen
  else if mtype = MSG_ROUTE_REFRESH then HEADER_LEN + 4 ≤ mlen
  else true

/-- What latched a framer: the subcode of the Message Header Error and its data. -/
structure FramerFault where
  subcode : Nat
  data : Bytes
deriving DecidableEq

/-- `Framer`: a byte stream cut into whole messages.  `buf` is the part not yet
consumed. -/
structure Framer where
  buf : Bytes := []
  maxMsg : Nat := MAX_MSG
  fault : Option FramerFault := none
deriving DecidableEq

namespace Framer

def failed (f : Framer) : Bool := f.fault.isSome

def feed (f : Framer) (data : Bytes) : Framer := { f with buf := f.buf ++ data }

def setMaxMsg (f : Framer) (maxMsg : Nat) : Framer := { f with maxMsg := maxMsg }

/-- `reset`: forget the buffer and the fault. -/
def reset (f : Framer) : Framer := { f with buf := [], fault := none }

def latch (f : Framer) (subcode : Nat) (data : Bytes) : Framer :=
  { f with fault := some ⟨subcode, data⟩ }

/-- `next_message`: take the next complete message, if one is buffered. -/
def nextMessage (f : Framer) : Option (UInt8 × Bytes) × Framer :=
  if f.failed then (none, f)
  else if f.buf.length < HEADER_LEN then (none, f)
  -- the marker first: a stream out of step tends to have a plausible length
  else if f.buf.take 16 ≠ List.replicate 16 0xff then (none, f.latch HDR_CONN_NOT_SYNC [])
  else
    let lengthField := (f.buf.drop 16).take 2
    let mlen := BigEndian.toNat lengthField
    let mtype := (f.buf.drop 18).headD 0
    if mlen < HEADER_LEN ∨ f.maxMsg < mlen then (none, f.latch HDR_BAD_LENGTH lengthField)
    else if mtype < MSG_OPEN ∨ MSG_ROUTE_REFRESH < mtype then
      (none, f.latch HDR_BAD_TYPE [mtype])
    else if !lengthFitsType mtype mlen then (none, f.latch HDR_BAD_LENGTH lengthField)
    else if f.buf.length < mlen then (none, f)
    else (some (mtype, f.buf.take mlen), { f with buf := f.buf.drop mlen })

end Framer

/-- `OpenMsg`.  `myAs` is the AS of the AS4 capability when there is one. -/
structure OpenMsg where
  version : Nat := 0
  myAs : Nat := 0
  holdTime : Nat := 0
  bgpId : Nat := 0
  capabilities : List (UInt8 × Bytes) := []
  unsupportedParams : List (UInt8 × Bytes) := []
  errors : List Reason := []
deriving DecidableEq

/-- `_bgp_cap_next`: a code, a length octet and a value.  A value that is not all
there ends the walk. -/
def capNext : Records.Reader (UInt8 × Bytes) UInt8
  | code :: len :: rest =>
    if rest.length < len.toNat then none
    else some ((code, rest.take len.toNat), rest.drop len.toNat)
  | _ => none

/-- `_ext_param_next`: the same with two length octets. -/
def extParamNext : Records.Reader (UInt8 × Bytes) UInt8
  | ptype :: high :: low :: rest =>
    let len := BigEndian.toNat [high, low]
    if rest.length < len then none
    else some ((ptype, rest.take len), rest.drop len)
  | _ => none

/-- The fault a walk of code, length and value ended in: no room for a header, or
for the value it claims. -/
def walkFault (left : Bytes) : List Reason :=
  if left = [] then [] else if left.length < 2 then [.unparseable] else [.length]

/-- The capabilities of one optional parameter. -/
def readCapabilities (value : Bytes) : List (UInt8 × Bytes) × List Reason :=
  let run := Records.readAll capNext value.length value
  (run.1, walkFault run.2)

/-- Take one optional parameter into the message: capabilities are type 2. -/
def OpenMsg.addParam (m : OpenMsg) (param : UInt8 × Bytes) : OpenMsg :=
  if param.1 = 2 then
    let run := readCapabilities param.2
    let as4 := run.1.filter fun cap => cap.1 = CAP_AS4 ∧ cap.2.length = 4
    { m with
      myAs := match as4.getLast? with
        | some cap => BigEndian.toNat cap.2
        | none => m.myAs
      capabilities := m.capabilities ++ run.1
      errors := m.errors ++ run.2 }
  else { m with unsupportedParams := m.unsupportedParams ++ [param] }

/-- Whether the optional parameters take the extended form: a non-zero length octet
and a type octet of 255. -/
def extendedParams (body : Bytes) : Bool :=
  (body.drop 9).headD 0 ≠ 0 && 13 ≤ body.length && (body.drop 10).headD 0 = 255

/-- `decode_open`. -/
def decodeOpen (msg : Bytes) : OpenMsg :=
  if msg.length < MIN_OPEN then { errors := [.length] }
  else
    let body := msg.drop HEADER_LEN
    let extended := extendedParams body
    let claimed := if extended then BigEndian.toNat ((body.drop 11).take 2)
      else ((body.drop 9).headD 0).toNat
    let params := body.drop (if extended then 13 else 10)
    let m : OpenMsg := {
      version := (body.headD 0).toNat
      myAs := BigEndian.toNat ((body.drop 1).take 2)
      holdTime := BigEndian.toNat ((body.drop 3).take 2)
      bgpId := BigEndian.toNat ((body.drop 5).take 4)
      errors := if params.length < claimed then [.length] else [] }
    let run := Records.readAll (if extended then extParamNext else capNext) claimed
      (params.take claimed)
    let m := run.1.foldl OpenMsg.addParam m
    { m with errors := m.errors ++
        (if extended ∧ run.2 ≠ [] then [.unparseable] else walkFault run.2) }

/-- `decode_notification`: the code and the subcode, zeros when truncated. -/
def decodeNotification (msg : Bytes) : Nat × Nat :=
  (((msg.drop HEADER_LEN).headD 0).toNat, ((msg.drop (HEADER_LEN + 1)).headD 0).toNat)

end Packets
