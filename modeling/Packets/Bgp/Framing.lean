/-
The framer as it keeps its buffer (`plugins/bgp/wire.pyx`, `Framer`).

Consumed bytes stay at the front until it is worth the copy to drop them; `toFramer` and
`cutter` forget where the rest begins.
-/
import Packets.Bgp.Messages
import Packets.Lib.Chunked

namespace Packets

/-- The fault a framer latches: code, subcode, text and the data of the NOTIFICATION. -/
structure FrameFault where
  code : Nat
  subcode : Nat
  detail : String
  data : Option Bytes
deriving DecidableEq

/-- `%02x`. -/
def hexOctet (b : UInt8) : String :=
  String.ofList [Nat.digitChar (b.toNat / 16), Nat.digitChar (b.toNat % 16)]

/-- `MSG_NAMES`, with the number for a type that has no name. -/
def msgName (mtype : UInt8) : String :=
  if mtype = MSG_OPEN then "OPEN"
  else if mtype = MSG_UPDATE then "UPDATE"
  else if mtype = MSG_NOTIFICATION then "NOTIFICATION"
  else if mtype = MSG_KEEPALIVE then "KEEPALIVE"
  else if mtype = MSG_ROUTE_REFRESH then "ROUTE-REFRESH"
  else toString mtype.toNat

/-- The length and the type of a header, as it claims them. -/
def frameLength (header : Bytes) : Nat := BigEndian.toNat ((header.drop 16).take 2)

def frameType (header : Bytes) : UInt8 := (header.drop 18).headD 0

/-- `_u16_bytes`: the length field for a NOTIFICATION. -/
def u16Bytes (value : Nat) : Bytes := BigEndian.ofNat 2 value

/-- The first marker byte that is not all ones. -/
def badMarker (header : Bytes) : Option Nat :=
  (List.range 16).find? fun i => header.getD i 0 != 0xff

/-- The checks of `next_message` on a header, the marker first: a stream out of step
tends to have a plausible length. -/
def headerFault (maxMsg : Int) (header : Bytes) : Option FrameFault :=
  let mlen := frameLength header
  let mtype := frameType header
  match badMarker header with
  | some i =>
    some ⟨1, HDR_CONN_NOT_SYNC,
      "connection not synchronised: marker byte " ++ toString i ++ " is 0x" ++
        hexOctet (header.getD i 0), none⟩
  | none =>
    if mlen < HEADER_LEN ∨ maxMsg < mlen then
      some ⟨1, HDR_BAD_LENGTH,
        "bad message length " ++ toString mlen ++ " (allowed " ++ toString HEADER_LEN ++
          ".." ++ toString maxMsg ++ ")", some (u16Bytes mlen)⟩
    else if mtype < MSG_OPEN ∨ MSG_ROUTE_REFRESH < mtype then
      some ⟨1, HDR_BAD_TYPE, "bad message type " ++ toString mtype.toNat, some [mtype]⟩
    else if !lengthFitsType mtype mlen then
      some ⟨1, HDR_BAD_LENGTH, "bad message length " ++ toString mlen ++ " for " ++ msgName mtype,
        some (u16Bytes mlen)⟩
    else none

/-- `Framer`: the first `start` bytes of the buffer are consumed. -/
structure FramerBuf where
  buf : Bytes
  start : Nat
  start_le : start ≤ buf.length
  maxMsg : Int
  fault : Option FrameFault
  messages : Nat
  bytesIn : Nat

namespace FramerBuf

def new (maxMsg : Int) : FramerBuf := ⟨[], 0, Nat.le_refl 0, maxMsg, none, 0, 0⟩

/-- What is not consumed yet. -/
def unread (f : FramerBuf) : Bytes := f.buf.drop f.start

/-- `feed`: add received bytes to the buffer, returning their number. -/
def feed (f : FramerBuf) (data : Bytes) : Nat × FramerBuf :=
  if data = [] then (0, f)
  else
    (data.length, { f with
      buf := f.buf ++ data
      start_le := by
        rw [List.length_append]
        exact Nat.le_trans f.start_le (Nat.le_add_right _ _)
      bytesIn := f.bytesIn + data.length })

/-- `_compact`: reclaim the consumed front once it is worth the copy. -/
def compact (f : FramerBuf) : FramerBuf :=
  if f.start ≠ 0 ∧ (65536 ≤ f.start ∨ f.buf.length ≤ f.start * 2) then
    { f with buf := f.buf.drop f.start, start := 0, start_le := Nat.zero_le _ }
  else f

/-- `_fault`: the first one wins. -/
def latch (f : FramerBuf) (fault : FrameFault) : FramerBuf :=
  { f with fault := f.fault.or (some fault) }

/-- Consume the bytes of a message. -/
def advance (f : FramerBuf) (mlen : Nat) (h : ¬f.buf.length - f.start < mlen) : FramerBuf :=
  { f with
    start := f.start + mlen
    start_le := by
      have hstart := f.start_le
      omega
    messages := f.messages + 1 }

/-- `next_message`: take the next complete message, if one is buffered. -/
def nextMessage (f : FramerBuf) : Option (UInt8 × Bytes) × FramerBuf :=
  if f.fault.isSome then (none, f)
  else if f.buf.length - f.start < HEADER_LEN then (none, f.compact)
  else
    let header := f.unread.take HEADER_LEN
    match headerFault f.maxMsg header with
    | some fault => (none, f.latch fault)
    | none =>
      let mlen := frameLength header
      if h : f.buf.length - f.start < mlen then (none, f.compact)
      else (some (frameType header, f.unread.take mlen), f.advance mlen h)

/-- `messages_available`: drain every complete message buffered.  Each takes at least a
byte, so the fuel is never spent. -/
def messagesFrom : Nat → FramerBuf → List (UInt8 × Bytes) × FramerBuf
  | 0, f => ([], f)
  | fuel + 1, f =>
    match f.nextMessage with
    | (none, f) => ([], f)
    | (some msg, f) =>
      let tail := messagesFrom fuel f
      (msg :: tail.1, tail.2)

def messagesAvailable (f : FramerBuf) : List (UInt8 × Bytes) × FramerBuf :=
  messagesFrom (f.unread.length + 1) f

/-- A sequence of `feed` and `next_message` calls, with the messages they return. -/
def runCalls : List (Chunked.Call UInt8) → FramerBuf → List (UInt8 × Bytes) × FramerBuf
  | [], f => ([], f)
  | .feed data :: calls, f => runCalls calls (f.feed data).2
  | .next :: calls, f =>
    let head := f.nextMessage
    let tail := runCalls calls head.2
    (head.1.toList ++ tail.1, tail.2)

/-- The rest of the stream and the fault. -/
def cutter (f : FramerBuf) : Chunked.Cutter UInt8 FrameFault := ⟨f.unread, f.fault⟩

theorem length_unread (f : FramerBuf) : f.unread.length = f.buf.length - f.start := List.length_drop

@[simp] theorem unread_compact (f : FramerBuf) : f.compact.unread = f.unread := by
  rw [compact]
  split
  · exact List.drop_zero
  · rfl

@[simp] theorem fault_compact (f : FramerBuf) : f.compact.fault = f.fault := by
  rw [compact]
  split <;> rfl

@[simp] theorem maxMsg_compact (f : FramerBuf) : f.compact.maxMsg = f.maxMsg := by
  rw [compact]
  split <;> rfl

theorem unread_advance (f : FramerBuf) (mlen : Nat) (h : ¬f.buf.length - f.start < mlen) :
    (f.advance mlen h).unread = f.unread.drop mlen := by
  rw [unread, unread, List.drop_drop]
  rfl

@[simp] theorem fault_advance (f : FramerBuf) (mlen : Nat)
    (h : ¬f.buf.length - f.start < mlen) : (f.advance mlen h).fault = f.fault := rfl

theorem cutter_feed (f : FramerBuf) (data : Bytes) :
    (f.feed data).2.cutter = f.cutter.feed data := by
  rw [feed]
  split
  · next hnil => simp [hnil, cutter, Chunked.Cutter.feed]
  · simp only [cutter, Chunked.Cutter.feed, unread, List.drop_append_of_le_length f.start_le]

theorem maxMsg_feed (f : FramerBuf) (data : Bytes) : (f.feed data).2.maxMsg = f.maxMsg := by
  rw [feed]
  split <;> rfl

end FramerBuf

/-- What the bytes at hand say of the next message. -/
def scanMessage (maxMsg : Int) (s : Bytes) : Chunked.Verdict (UInt8 × Bytes) FrameFault :=
  if s.length < HEADER_LEN then .more
  else
    let header := s.take HEADER_LEN
    match headerFault maxMsg header with
    | some fault => .broken fault
    | none =>
      if s.length < frameLength header then .more
      else .item (frameType header, s.take (frameLength header)) (frameLength header)

/-- A header without a fault claims at least its own length. -/
theorem headerFault_none {maxMsg : Int} {header : Bytes} (h : headerFault maxMsg header = none) :
    badMarker header = none ∧ HEADER_LEN ≤ frameLength header ∧
      (frameLength header : Int) ≤ maxMsg ∧
      MSG_OPEN ≤ frameType header ∧ frameType header ≤ MSG_ROUTE_REFRESH ∧
      lengthFitsType (frameType header) (frameLength header) = true := by
  unfold headerFault at h
  cases hmarker : badMarker header with
  | some i => simp [hmarker] at h
  | none =>
    simp only [hmarker] at h
    split at h
    · simp at h
    · next hlen =>
        split at h
        · simp at h
        · next htype =>
            split at h
            · simp at h
            · next hfits =>
                rw [not_or] at hlen htype
                exact ⟨rfl, Nat.le_of_not_lt hlen.1, Int.not_lt.mp hlen.2,
                  UInt8.not_lt.mp htype.1, UInt8.not_lt.mp htype.2, by simpa using hfits⟩

theorem scanMessage_item {maxMsg : Int} {s : Bytes} {msg : UInt8 × Bytes} {n : Nat}
    (h : scanMessage maxMsg s = .item msg n) :
    HEADER_LEN ≤ s.length ∧ headerFault maxMsg (s.take HEADER_LEN) = none ∧
      n = frameLength (s.take HEADER_LEN) ∧ n ≤ s.length ∧
      msg = (frameType (s.take HEADER_LEN), s.take n) := by
  unfold scanMessage at h
  split at h
  · simp at h
  · next hheader =>
      cases hfault : headerFault maxMsg (s.take HEADER_LEN) with
      | some fault => simp [hfault] at h
      | none =>
        simp only [hfault] at h
        split at h
        · simp at h
        · next hlen =>
            simp only [Chunked.Verdict.item.injEq] at h
            obtain ⟨rfl, rfl⟩ := h
            exact ⟨Nat.le_of_not_lt hheader, rfl, rfl, Nat.le_of_not_lt hlen, rfl⟩

theorem scanMessage_stable (maxMsg : Int) : Chunked.Stable (scanMessage maxMsg) where
  extend s t h := by
    have hheader : ¬s.length < HEADER_LEN := by
      intro hlt
      exact h (by rw [scanMessage, if_pos hlt])
    have hlonger : ¬(s ++ t).length < HEADER_LEN := by
      rw [List.length_append]
      omega
    have htake : (s ++ t).take HEADER_LEN = s.take HEADER_LEN :=
      List.take_append_of_le_length (Nat.le_of_not_lt hheader)
    simp only [scanMessage, if_neg hheader, if_neg hlonger, htake] at h ⊢
    cases hfault : headerFault maxMsg (s.take HEADER_LEN) with
    | some fault => rfl
    | none =>
      simp only [hfault] at h ⊢
      have hlen : ¬s.length < frameLength (s.take HEADER_LEN) := by
        intro hlt
        exact h (by rw [if_pos hlt])
      have hlen' : ¬(s ++ t).length < frameLength (s.take HEADER_LEN) := by
        rw [List.length_append]
        omega
      rw [if_neg hlen, if_neg hlen', List.take_append_of_le_length (Nat.le_of_not_lt hlen)]
  fits s msg n h := by
    obtain ⟨-, hfault, rfl, hlen, -⟩ := scanMessage_item h
    have hmin := (headerFault_none hfault).2.1
    have hpos : 0 < HEADER_LEN := by decide
    omega

namespace FramerBuf

/-- The call takes what the scanner finds at the front of the rest. -/
theorem nextMessage_cutter (f : FramerBuf) :
    f.nextMessage.1 = (f.cutter.next (scanMessage f.maxMsg)).1 ∧
      f.nextMessage.2.cutter = (f.cutter.next (scanMessage f.maxMsg)).2 ∧
      f.nextMessage.2.maxMsg = f.maxMsg := by
  unfold nextMessage Chunked.Cutter.next
  cases hfault : f.fault with
  | some fault => simp [cutter, hfault]
  | none =>
    have hclear : f.cutter.fault = none := hfault
    simp only [hclear, Option.isSome_none, Bool.false_eq_true, ↓reduceIte]
    rw [scanMessage]
    have hrest : f.cutter.rest = f.unread := rfl
    simp only [hrest, length_unread]
    split
    · simp [cutter, hfault]
    · cases hheader : headerFault f.maxMsg (f.unread.take HEADER_LEN) with
      | some fault => simp [cutter, latch, hfault, unread]
      | none =>
        dsimp only
        split
        · simp [cutter, hfault]
        · exact ⟨rfl, by rw [cutter, unread_advance, fault_advance, hfault], rfl⟩

theorem runCalls_cutter (calls : List (Chunked.Call UInt8)) (f : FramerBuf) :
    (runCalls calls f).1 = (Chunked.run (scanMessage f.maxMsg) calls f.cutter).1 ∧
      (runCalls calls f).2.cutter = (Chunked.run (scanMessage f.maxMsg) calls f.cutter).2 ∧
      (runCalls calls f).2.maxMsg = f.maxMsg := by
  induction calls generalizing f with
  | nil => exact ⟨rfl, rfl, rfl⟩
  | cons call calls ih =>
    cases call with
    | feed data =>
      obtain ⟨hout, hrest, hmax⟩ := ih (f.feed data).2
      rw [maxMsg_feed] at hout hrest hmax
      rw [cutter_feed] at hout hrest
      exact ⟨hout, hrest, hmax⟩
    | next =>
      obtain ⟨hhead, hcutter, hkept⟩ := f.nextMessage_cutter
      obtain ⟨hout, hrest, hmax⟩ := ih f.nextMessage.2
      rw [hkept] at hout hrest hmax
      rw [hcutter] at hout hrest
      exact ⟨by rw [runCalls, Chunked.run, hout, hhead], hrest, hmax⟩

theorem messagesFrom_cutter (fuel : Nat) (f : FramerBuf) :
    (messagesFrom fuel f).1 = (f.cutter.drain (scanMessage f.maxMsg) fuel).1 ∧
      (messagesFrom fuel f).2.cutter = (f.cutter.drain (scanMessage f.maxMsg) fuel).2 := by
  induction fuel generalizing f with
  | zero => exact ⟨rfl, rfl⟩
  | succ fuel ih =>
    obtain ⟨hhead, hcutter, hkept⟩ := f.nextMessage_cutter
    rw [messagesFrom, Chunked.Cutter.drain]
    rcases hnext : f.nextMessage with ⟨_ | msg, g⟩
    · rw [hnext] at hhead hcutter
      rcases hcut : f.cutter.next (scanMessage f.maxMsg) with ⟨o, c⟩
      rw [hcut] at hhead hcutter
      obtain rfl : none = o := hhead
      exact ⟨rfl, hcutter⟩
    · rw [hnext] at hhead hcutter hkept
      rcases hcut : f.cutter.next (scanMessage f.maxMsg) with ⟨o, c⟩
      rw [hcut] at hhead hcutter
      obtain rfl : some msg = o := hhead
      obtain rfl : g.cutter = c := hcutter
      have hmax : g.maxMsg = f.maxMsg := hkept
      obtain ⟨hout, hrest⟩ := ih g
      rw [hmax] at hout hrest
      exact ⟨congrArg (msg :: ·) hout, hrest⟩

theorem messagesAvailable_cutter (f : FramerBuf) :
    f.messagesAvailable.1 = (f.cutter.settle (scanMessage f.maxMsg)).1 ∧
      f.messagesAvailable.2.cutter = (f.cutter.settle (scanMessage f.maxMsg)).2 :=
  messagesFrom_cutter (f.unread.length + 1) f

/-- The messages of a sequence of calls and of draining the framer after it, and the
framer this leaves. -/
def deliver (maxMsg : Int) (calls : List (Chunked.Call UInt8)) : List (UInt8 × Bytes) × FramerBuf :=
  let run := runCalls calls (new maxMsg)
  let rest := run.2.messagesAvailable
  (run.1 ++ rest.1, rest.2)

theorem deliver_settle (maxMsg : Int) (calls : List (Chunked.Call UInt8)) :
    ((deliver maxMsg calls).1, (deliver maxMsg calls).2.cutter) =
      (Chunked.Cutter.mk (Chunked.fed calls) none).settle (scanMessage maxMsg) := by
  obtain ⟨hout, hcutter, hmax⟩ := runCalls_cutter calls (new maxMsg)
  obtain ⟨htail, hrest⟩ := messagesAvailable_cutter (runCalls calls (new maxMsg)).2
  rw [hmax, hcutter] at htail hrest
  have hsettle := Chunked.settle_run (scanMessage_stable maxMsg) calls (new maxMsg).cutter
  exact (Prod.ext (congrArg₂ (· ++ ·) hout htail) hrest).trans hsettle

end FramerBuf

/-- A well-formed message within a maximum size: the marker, a length that is its own
and within the limits of its type. -/
structure WellFramed (maxMsg : Int) (msg : UInt8 × Bytes) : Prop where
  marker : msg.2.take 16 = List.replicate 16 0xff
  length : BigEndian.toNat ((msg.2.drop 16).take 2) = msg.2.length
  mtype : msg.2[18]? = some msg.1
  known : MSG_OPEN ≤ msg.1 ∧ msg.1 ≤ MSG_ROUTE_REFRESH
  fits : HEADER_LEN ≤ msg.2.length ∧ (msg.2.length : Int) ≤ maxMsg
  fitsType : lengthFitsType msg.1 msg.2.length = true

/-- Whole marker bytes are all ones. -/
theorem take_marker {header : Bytes} (hlen : 16 ≤ header.length)
    (h : badMarker header = none) : header.take 16 = List.replicate 16 0xff := by
  have hones : ∀ i < 16, header.getD i 0 = 0xff := by
    intro i hi
    have hgood := List.find?_eq_none.mp h i (List.mem_range.mpr hi)
    simpa using hgood
  apply List.ext_getElem
  · rw [List.length_take_of_le hlen, List.length_replicate]
  · intro i hi _
    have hlt : i < 16 := by
      rw [List.length_take_of_le hlen] at hi
      exact hi
    have hbyte := hones i hlt
    rw [List.getD_eq_getElem?_getD, List.getElem?_eq_getElem (by omega), Option.getD_some] at hbyte
    rw [List.getElem_take, List.getElem_replicate]
    exact hbyte

/-- A message the scanner cuts is well framed. -/
theorem wellFramed_of_scan {maxMsg : Int} {s : Bytes} {msg : UInt8 × Bytes} {n : Nat}
    (h : scanMessage maxMsg s = .item msg n) : WellFramed maxMsg msg := by
  obtain ⟨hheader, hfault, rfl, hlen, rfl⟩ := scanMessage_item h
  obtain ⟨hmarker, hmin, hmax, hknown, hknown', hfits⟩ := headerFault_none hfault
  have hsize : (s.take (frameLength (s.take HEADER_LEN))).length =
      frameLength (s.take HEADER_LEN) := List.length_take_of_le hlen
  -- the header stands at the front of the message
  have hfront : (s.take (frameLength (s.take HEADER_LEN))).take HEADER_LEN = s.take HEADER_LEN := by
    rw [List.take_take, Nat.min_eq_left hmin]
  have hfull : (s.take HEADER_LEN).length = HEADER_LEN := List.length_take_of_le hheader
  have hin : ∀ k l : Nat, k + l ≤ HEADER_LEN → ∀ t : Bytes,
      (t.drop k).take l = ((t.take HEADER_LEN).drop k).take l := by
    intro k l hkl t
    rw [List.drop_take, List.take_take, Nat.min_eq_left (by omega)]
  constructor
  · have hsplit := hin 0 16 (by decide) (s.take (frameLength (s.take HEADER_LEN)))
    rw [List.drop_zero, List.drop_zero, hfront] at hsplit
    rw [hsplit]
    exact take_marker (by rw [hfull]; decide) hmarker
  · rw [hin 16 2 (by decide), hfront, hsize]
    rfl
  · have hlt : 18 < (s.take (frameLength (s.take HEADER_LEN))).length := by
      rw [hsize]
      exact Nat.lt_of_lt_of_le (by decide) hmin
    have hlt' : 18 < (s.take HEADER_LEN).length := by
      rw [hfull]
      decide
    have hhead : (s.take HEADER_LEN)[18]? = some (frameType (s.take HEADER_LEN)) := by
      rw [frameType, List.headD_eq_head?_getD, List.head?_drop,
        List.getElem?_eq_getElem hlt', Option.getD_some]
    rw [← hhead, List.getElem?_take_of_lt (Nat.lt_of_lt_of_le (by decide) hmin),
      List.getElem?_take_of_lt (by decide)]
  · exact ⟨hknown, hknown'⟩
  · rw [hsize]
    exact ⟨hmin, hmax⟩
  · rw [hsize]
    exact hfits

namespace FramerBuf

end FramerBuf

end Packets
