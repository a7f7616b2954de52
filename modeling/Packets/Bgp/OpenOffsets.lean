/-
The OPEN decoder as it reads the message, at offsets (`plugins/bgp/wire.pyx`, with the
primitives of `core/inetpkt.pyx`).

A read outside the message has no result here, and neither has a loop without end.
-/
import Packets.Bgp.OpenRoundTrip
import Packets.Lib.Slices

namespace Packets

open Slices

/-- `rd_u16`. -/
def readU16At (mv : Bytes) (o : Nat) : Option Nat := do
  let high ← mv[o]?
  let low ← mv[o + 1]?
  some (BigEndian.toNat [high, low])

/-- `rd_u32`. -/
def readU32At (mv : Bytes) (o : Nat) : Option Nat := do
  let b ← mv[o]?
  let c ← mv[o + 1]?
  let d ← mv[o + 2]?
  let e ← mv[o + 3]?
  some (BigEndian.toNat [b, c, d, e])

/-- One code, length and value: the code, where the value starts, where its length says it
ends, and where the next one starts. -/
structure TlvAt where
  code : UInt8
  vs : Nat
  ve : Nat
  next : Nat

/-- `_bgp_cap_next`, with -1 as `none`. -/
def capNextAt (mv : Bytes) (o e : Nat) : Option (Option TlvAt) :=
  if e < o + 2 then some none
  else do
    let code ← mv[o]?
    let len ← mv[o + 1]?
    let ve := o + 2 + len.toNat
    some (some { code := code, vs := o + 2, ve := ve, next := if e < ve then e else ve })

/-- `_ext_param_next`. -/
def extParamNextAt (mv : Bytes) (o e : Nat) : Option (Option TlvAt) :=
  if e < o + 3 then some none
  else do
    let ptype ← mv[o]?
    let len ← readU16At mv (o + 1)
    let ve := o + 3 + len
    if e < ve then some none
    else some (some { code := ptype, vs := o + 3, ve := ve, next := ve })

/-- Whether the octets after the fixed part mark the extended form. -/
def extendedAt (mv : Bytes) (o e : Nat) (olen : UInt8) : Option Bool :=
  if olen ≠ 0 ∧ o + 13 ≤ e then (mv[o + 10]?).map fun b => decide (b = 255) else some false

/-- `_bgp_open_fixed`, with RFC 9072's form honoured: the fields, and where the optional
parameters start and are said to end. -/
def openFixedAt (mv : Bytes) (o e : Nat) : Option (Option (OpenMsg × Nat × Nat)) :=
  if e < o + 10 then some none
  else do
    let version ← mv[o]?
    let myAs ← readU16At mv (o + 1)
    let holdTime ← readU16At mv (o + 3)
    let bgpId ← readU32At mv (o + 5)
    let olen ← mv[o + 9]?
    let m : OpenMsg := {
      version := version.toNat, myAs := myAs, holdTime := holdTime, bgpId := bgpId }
    let extended ← extendedAt mv o e olen
    if extended then do
      let len ← readU16At mv (o + 11)
      some (some (m, o + 13, o + 13 + len))
    else some (some (m, o + 10, o + 10 + olen.toNat))

def OpenMsg.fault (m : OpenMsg) (reason : Reason) : OpenMsg :=
  { m with errors := m.errors ++ [reason] }

/-- One capability into the message. -/
def OpenMsg.addCapAt (mv : Bytes) (m : OpenMsg) (tlv : TlvAt) : Option OpenMsg := do
  let myAs ←
    if tlv.code = CAP_AS4 ∧ tlv.ve - tlv.vs = 4 then readU32At mv tlv.vs else some m.myAs
  some { m with
    myAs := myAs
    capabilities := m.capabilities ++ [(tlv.code, slice mv tlv.vs tlv.ve)] }

/-- The capabilities of one parameter, from `cnxt` on. -/
def capLoop (mv : Bytes) (ve : Nat) : Nat → Nat → OpenMsg → Option OpenMsg
  | 0, _, _ => none
  | fuel + 1, cnxt, m =>
    if cnxt < ve then do
      match ← capNextAt mv cnxt ve with
      | none => some (m.fault .unparseable)
      | some tlv =>
        if tlv.next ≤ cnxt then some (m.fault .unparseable)
        else if ve < tlv.ve then some (m.fault .length)
        else do
          let m ← m.addCapAt mv tlv
          capLoop mv ve fuel tlv.next m
    else some m

/-- One optional parameter into the message: capabilities are type 2. -/
def OpenMsg.addParamAt (mv : Bytes) (m : OpenMsg) (tlv : TlvAt) : Option OpenMsg :=
  if tlv.code = 2 then capLoop mv tlv.ve (mv.length + 1) tlv.vs m
  else some { m with
    unsupportedParams := m.unsupportedParams ++ [(tlv.code, slice mv tlv.vs tlv.ve)] }

/-- The optional parameters, from `o` on. -/
def paramLoop (mv : Bytes) (extended : Bool) (optEnd : Nat) : Nat → Nat → OpenMsg → Option OpenMsg
  | 0, _, _ => none
  | fuel + 1, o, m =>
    if o < optEnd then do
      match ← if extended then extParamNextAt mv o optEnd else capNextAt mv o optEnd with
      | none => some (m.fault .unparseable)
      | some tlv =>
        if tlv.next ≤ o then some (m.fault .unparseable)
        else if optEnd < tlv.ve then some (m.fault .length)
        else do
          let m ← m.addParamAt mv tlv
          paramLoop mv extended optEnd fuel tlv.next m
    else some m

/-- `decode_open` over the buffer. -/
def decodeOpenAt (msg : Bytes) : Option OpenMsg :=
  if msg.length < MIN_OPEN then some { errors := [.length] }
  else do
    match ← openFixedAt msg HEADER_LEN msg.length with
    | none => some { errors := [.length] }
    | some (m, optStart, optEnd) =>
      let m := if msg.length < optEnd then m.fault .length else m
      paramLoop msg (optStart = HEADER_LEN + 13) (min optEnd msg.length) (msg.length + 1) optStart m

theorem readU16At_eq {mv : Bytes} {o e : Nat} (ho : o + 2 ≤ e) (he : e ≤ mv.length) :
    ∃ high low, readU16At mv o = some (BigEndian.toNat [high, low]) ∧
      slice mv o e = high :: low :: slice mv (o + 2) e := by
  obtain ⟨high, hhigh, hfirst⟩ := slice_cons (show o < e by omega) he
  obtain ⟨low, hlow, hsecond⟩ := slice_cons (show o + 1 < e by omega) he
  refine ⟨high, low, ?_, ?_⟩
  · rw [readU16At, hhigh, hlow]
    rfl
  · rw [hfirst, hsecond]

theorem readU32At_eq {mv : Bytes} {o e : Nat} (ho : o + 4 ≤ e) (he : e ≤ mv.length) :
    readU32At mv o = some (BigEndian.toNat ((slice mv o e).take 4)) := by
  obtain ⟨b, hb, hfirst⟩ := slice_cons (show o < e by omega) he
  obtain ⟨c, hc, hsecond⟩ := slice_cons (show o + 1 < e by omega) he
  obtain ⟨d, hd, hthird⟩ := slice_cons (show o + 2 < e by omega) he
  obtain ⟨f, hf, hfourth⟩ := slice_cons (show o + 3 < e by omega) he
  rw [readU32At, hb, hc, hd, hf, hfirst, hsecond, hthird, hfourth]
  rfl

theorem capNext_short {value : Bytes} (h : value.length < 2) : capNext value = none := by
  match value with
  | [] | [_] => rfl
  | _ :: _ :: rest =>
    simp only [List.length_cons] at h
    omega

theorem walkFault_short {left : Bytes} (hpos : 0 < left.length) (h : left.length < 2) :
    walkFault left = [.unparseable] := by
  rw [walkFault, if_neg (List.ne_nil_of_length_pos hpos), if_pos h]

theorem walkFault_long {left : Bytes} (h : 2 ≤ left.length) : walkFault left = [.length] := by
  rw [walkFault, if_neg (List.ne_nil_of_length_pos (by omega)), if_neg (by omega)]

/-- A record of the buffer that is all there, as the list reader takes it off the part
from `o` to `e`. -/
structure Whole (next : Records.Reader (UInt8 × Bytes) UInt8) (mv : Bytes) (o e : Nat)
    (tlv : TlvAt) : Prop where
  starts : o < tlv.vs
  claims : tlv.vs ≤ tlv.ve
  fits : tlv.ve ≤ e
  follows : tlv.next = tlv.ve
  read : next (slice mv o e) = some ((tlv.code, slice mv tlv.vs tlv.ve), slice mv tlv.ve e)

/-- The reader of capabilities reads the part it is given as `capNext` does: no room for a
header, a value that is not all there, or a whole record. -/
theorem capNextAt_cases {mv : Bytes} {o e : Nat} (ho : o < e) (he : e ≤ mv.length) :
    (capNextAt mv o e = some none ∧ capNext (slice mv o e) = none ∧
      walkFault (slice mv o e) = [.unparseable]) ∨
    ∃ tlv, capNextAt mv o e = some (some tlv) ∧
      (o < tlv.next ∧ e < tlv.ve ∧ capNext (slice mv o e) = none ∧
          walkFault (slice mv o e) = [.length] ∨
        Whole capNext mv o e tlv) := by
  have hlen := length_slice (o := o) he
  by_cases hroom : e < o + 2
  · left
    rw [capNextAt, if_pos hroom]
    exact ⟨rfl, capNext_short (by omega), walkFault_short (by omega) (by omega)⟩
  · right
    obtain ⟨code, hcode, hfirst⟩ := slice_cons ho he
    obtain ⟨len, hlength, hsecond⟩ := slice_cons (show o + 1 < e by omega) he
    have hrest := length_slice (o := o + 2) he
    have hread : capNext (slice mv o e) =
        if (slice mv (o + 2) e).length < len.toNat then none
        else some ((code, (slice mv (o + 2) e).take len.toNat),
          (slice mv (o + 2) e).drop len.toNat) := by
      rw [hfirst, hsecond]
      rfl
    have hat : capNextAt mv o e = some (some {
        code := code, vs := o + 2, ve := o + 2 + len.toNat
        next := if e < o + 2 + len.toNat then e else o + 2 + len.toNat }) := by
      rw [capNextAt, if_neg hroom, hcode, hlength]
      rfl
    refine ⟨_, hat, ?_⟩
    rw [hread, hrest]
    by_cases hcut : e < o + 2 + len.toNat
    · left
      rw [if_pos hcut, if_pos (by omega)]
      exact ⟨ho, hcut, rfl, walkFault_long (by omega)⟩
    · right
      have htake := take_slice (s := mv) (o := o + 2) (m := o + 2 + len.toNat) (e := e) (by omega)
      have hdrop := drop_slice (s := mv) (o := o + 2) (m := o + 2 + len.toNat) (e := e) (by omega)
      rw [Nat.add_sub_cancel_left] at htake hdrop
      rw [if_neg (by omega), htake, hdrop] at hread
      exact ⟨by dsimp only; omega, by dsimp only; omega, by dsimp only; omega, if_neg hcut, hread⟩

/-- The reader of extended parameters refuses, or reads a whole one. -/
theorem extParamNextAt_cases {mv : Bytes} {o e : Nat} (ho : o < e) (he : e ≤ mv.length) :
    (extParamNextAt mv o e = some none ∧ extParamNext (slice mv o e) = none) ∨
      ∃ tlv, extParamNextAt mv o e = some (some tlv) ∧ Whole extParamNext mv o e tlv := by
  by_cases hroom : e < o + 3
  · left
    have hlen := length_slice (o := o) he
    rw [extParamNextAt, if_pos hroom]
    match hs : slice mv o e with
    | [] | [_] | [_, _] => exact ⟨rfl, rfl⟩
    | _ :: _ :: _ :: rest =>
      rw [hs] at hlen
      simp only [List.length_cons] at hlen
      omega
  · obtain ⟨ptype, hptype, hfirst⟩ := slice_cons ho he
    obtain ⟨high, low, hlength, hsecond⟩ := readU16At_eq (show o + 1 + 2 ≤ e by omega) he
    have hrest := length_slice (o := o + 3) he
    have hread : extParamNext (slice mv o e) =
        if (slice mv (o + 3) e).length < BigEndian.toNat [high, low] then none
        else some ((ptype, (slice mv (o + 3) e).take (BigEndian.toNat [high, low])),
          (slice mv (o + 3) e).drop (BigEndian.toNat [high, low])) := by
      rw [hfirst, hsecond]
      rfl
    have hat : extParamNextAt mv o e =
        if e < o + 3 + BigEndian.toNat [high, low] then some none
        else some (some {
          code := ptype, vs := o + 3, ve := o + 3 + BigEndian.toNat [high, low]
          next := o + 3 + BigEndian.toNat [high, low] }) := by
      rw [extParamNextAt, if_neg hroom, hptype, hlength]
      rfl
    rw [hrest] at hread
    generalize BigEndian.toNat [high, low] = len at hread hat
    by_cases hcut : e < o + 3 + len
    · left
      rw [hat, hread, if_pos hcut, if_pos (by omega)]
      exact ⟨rfl, rfl⟩
    · right
      have htake := take_slice (s := mv) (o := o + 3) (m := o + 3 + len) (e := e) (by omega)
      have hdrop := drop_slice (s := mv) (o := o + 3) (m := o + 3 + len) (e := e) (by omega)
      rw [Nat.add_sub_cancel_left] at htake hdrop
      rw [if_neg (by omega), htake, hdrop] at hread
      rw [if_neg hcut] at hat
      exact ⟨_, hat, by dsimp only; omega, by dsimp only; omega, by dsimp only; omega, rfl, hread⟩

theorem readCapabilities_none {value : Bytes} (h : capNext value = none) :
    readCapabilities value = ([], walkFault value) := by
  rw [readCapabilities, Records.readAll_none h]

theorem readCapabilities_cons {value rest : Bytes} {cap : UInt8 × Bytes}
    (h : capNext value = some (cap, rest)) :
    readCapabilities value = (cap :: (readCapabilities rest).1, (readCapabilities rest).2) := by
  rw [readCapabilities, Records.readAll_cons capNext_consumes h]
  rfl

theorem takeCaps_cons (m : OpenMsg) (cap : UInt8 × Bytes)
    (run : List (UInt8 × Bytes) × List Reason) :
    m.takeCaps (cap :: run.1, run.2) = (m.takeCaps ([cap], [])).takeCaps run := by
  simp only [OpenMsg.takeCaps, List.foldl_cons, List.foldl_nil, List.append_nil,
    List.append_assoc, List.singleton_append]

theorem addCapAt_eq {mv : Bytes} {m : OpenMsg} {tlv : TlvAt} (h : tlv.ve ≤ mv.length) :
    m.addCapAt mv tlv = some (m.takeCaps ([(tlv.code, slice mv tlv.vs tlv.ve)], [])) := by
  have hlen := length_slice (o := tlv.vs) h
  rw [OpenMsg.addCapAt, OpenMsg.takeCaps, List.append_nil, List.foldl_cons, List.foldl_nil,
    resolveAs, hlen]
  by_cases has4 : tlv.code = CAP_AS4 ∧ tlv.ve - tlv.vs = 4
  · have hread := readU32At_eq (show tlv.vs + 4 ≤ tlv.ve by omega) h
    rw [List.take_of_length_le (by omega)] at hread
    rw [if_pos has4, if_pos has4, hread]
    rfl
  · rw [if_neg has4, if_neg has4]
    rfl

/-- The loop over capabilities takes in what `readCapabilities` reads of the same part. -/
theorem capLoop_eq {mv : Bytes} {ve : Nat} (hve : ve ≤ mv.length) {fuel cnxt : Nat}
    (hstart : cnxt ≤ ve) (hfuel : ve - cnxt < fuel) (m : OpenMsg) :
    capLoop mv ve fuel cnxt m = some (m.takeCaps (readCapabilities (slice mv cnxt ve))) := by
  induction fuel generalizing cnxt m with
  | zero => omega
  | succ fuel ih =>
    rw [capLoop]
    by_cases hmore : cnxt < ve
    · rw [if_pos hmore]
      rcases capNextAt_cases hmore hve with ⟨hat, hnone, hfault⟩ | ⟨tlv, hat, htlv⟩
      · rw [hat, readCapabilities_none hnone, hfault]
        simp [OpenMsg.fault, OpenMsg.takeCaps]
      · rw [hat]
        simp only [Option.bind_eq_bind, Option.bind_some]
        rcases htlv with ⟨hnext, hcut, hnone, hfault⟩ | hwhole
        · rw [if_neg (Nat.not_le_of_lt hnext), if_pos hcut, readCapabilities_none hnone, hfault]
          simp [OpenMsg.fault, OpenMsg.takeCaps]
        · have hstarts := hwhole.starts
          have hclaims := hwhole.claims
          have hfits := hwhole.fits
          rw [hwhole.follows, if_neg (by omega), if_neg (by omega),
            addCapAt_eq (by omega), Option.bind_some, ih (by omega) (by omega),
            readCapabilities_cons hwhole.read, takeCaps_cons m]
    · obtain rfl : cnxt = ve := by omega
      rw [if_neg hmore, slice_self]
      simp [readCapabilities, Records.readAll, OpenMsg.takeCaps, walkFault]

/-- The reader of optional parameters, in either form. -/
def paramNext (extended : Bool) : Records.Reader (UInt8 × Bytes) UInt8 :=
  if extended then extParamNext else capNext

theorem paramNext_consumes (extended : Bool) : Records.Consumes (paramNext extended) := by
  cases extended with
  | false => exact capNext_consumes
  | true => exact extParamNext_consumes

def paramFault (extended : Bool) (left : Bytes) : List Reason :=
  if extended ∧ left ≠ [] then [.unparseable] else walkFault left

/-- The parameters into the message, with the fault the walk ended in. -/
def OpenMsg.takeParams (m : OpenMsg) (extended : Bool) (params : Bytes) : OpenMsg :=
  let run := Records.readAll (paramNext extended) params.length params
  let read := run.1.foldl OpenMsg.addParam m
  { read with errors := read.errors ++ paramFault extended run.2 }

theorem takeParams_none {extended : Bool} {params : Bytes} (h : paramNext extended params = none)
    (m : OpenMsg) :
    m.takeParams extended params = { m with errors := m.errors ++ paramFault extended params } := by
  rw [OpenMsg.takeParams, Records.readAll_none h]
  rfl

theorem takeParams_cons {extended : Bool} {params rest : Bytes} {param : UInt8 × Bytes}
    (h : paramNext extended params = some (param, rest)) (m : OpenMsg) :
    m.takeParams extended params = (m.addParam param).takeParams extended rest := by
  rw [OpenMsg.takeParams, Records.readAll_cons (paramNext_consumes extended) h]
  rfl

theorem addParamAt_eq {mv : Bytes} {tlv : TlvAt} (hvs : tlv.vs ≤ tlv.ve)
    (hve : tlv.ve ≤ mv.length) (m : OpenMsg) :
    m.addParamAt mv tlv = some (m.addParam (tlv.code, slice mv tlv.vs tlv.ve)) := by
  rw [OpenMsg.addParamAt]
  by_cases hcode : tlv.code = 2
  · rw [if_pos hcode, capLoop_eq hve hvs (by omega), hcode, addParam_capabilities]
  · rw [if_neg hcode, OpenMsg.addParam, if_neg hcode]

/-- The loop over parameters takes in what the list version reads of the same part. -/
theorem paramLoop_eq {mv : Bytes} {extended : Bool} {optEnd : Nat} (hend : optEnd ≤ mv.length)
    {fuel o : Nat} (hstart : o ≤ optEnd) (hfuel : optEnd - o < fuel) (m : OpenMsg) :
    paramLoop mv extended optEnd fuel o m = some (m.takeParams extended (slice mv o optEnd)) := by
  induction fuel generalizing o m with
  | zero => omega
  | succ fuel ih =>
    have whole {tlv : TlvAt} (h : Whole (paramNext extended) mv o optEnd tlv) :
        (if tlv.next ≤ o then some (m.fault .unparseable)
          else if optEnd < tlv.ve then some (m.fault .length)
          else (m.addParamAt mv tlv).bind fun m => paramLoop mv extended optEnd fuel tlv.next m) =
          some (m.takeParams extended (slice mv o optEnd)) := by
      have hstarts := h.starts
      have hclaims := h.claims
      have hfits := h.fits
      rw [h.follows, if_neg (by omega), if_neg (by omega), addParamAt_eq hclaims (by omega),
        Option.bind_some, ih (by omega) (by omega), takeParams_cons h.read]
    rw [paramLoop]
    by_cases hmore : o < optEnd
    · rw [if_pos hmore]
      cases extended with
      | true =>
        rcases extParamNextAt_cases hmore hend with ⟨hat, hnone⟩ | ⟨tlv, hat, hwhole⟩
        · have hlen := length_slice (o := o) hend
          have hne : slice mv o optEnd ≠ [] := List.ne_nil_of_length_pos (by omega)
          rw [if_pos rfl, hat, takeParams_none (show paramNext true _ = none from hnone),
            paramFault, if_pos ⟨rfl, hne⟩]
          rfl
        · rw [if_pos rfl, hat]
          exact whole hwhole
      | false =>
        have hplain (left : Bytes) : paramFault false left = walkFault left :=
          if_neg fun h => Bool.false_ne_true h.1
        rw [if_neg Bool.false_ne_true]
        rcases capNextAt_cases hmore hend with ⟨hat, hnone, hfault⟩ | ⟨tlv, hat, htlv⟩
        · rw [hat, takeParams_none (show paramNext false _ = none from hnone), hplain, hfault]
          rfl
        · rw [hat]
          rcases htlv with ⟨hnext, hcut, hnone, hfault⟩ | hwhole
          · rw [takeParams_none (show paramNext false _ = none from hnone), hplain, hfault]
            simp only [Option.bind_eq_bind, Option.bind_some]
            rw [if_neg (Nat.not_le_of_lt hnext), if_pos hcut]
            rfl
          · exact whole hwhole
    · obtain rfl : o = optEnd := by omega
      rw [if_neg hmore, slice_self]
      cases extended <;>
        simp [OpenMsg.takeParams, Records.readAll, paramFault, walkFault]

theorem slice_min {s : Bytes} {o n : Nat} :
    slice s o (min (o + n) s.length) = (s.drop o).take n := by
  rw [slice, List.take_eq_take_min, Nat.min_assoc, Nat.min_self, ← List.take_eq_take_min,
    List.drop_take, Nat.add_sub_cancel_left]

/-- Where the optional parameters start and what their length says, of the body of an OPEN. -/
def paramsStart (body : Bytes) : Nat := if extendedParams body then 13 else 10

def paramsClaimed (body : Bytes) : Nat :=
  if extendedParams body then BigEndian.toNat ((body.drop 11).take 2)
  else ((body.drop 9).headD 0).toNat

/-- The fixed fields of the body of an OPEN. -/
def fixedFields (body : Bytes) : OpenMsg where
  version := (body.headD 0).toNat
  myAs := BigEndian.toNat ((body.drop 1).take 2)
  holdTime := BigEndian.toNat ((body.drop 3).take 2)
  bgpId := BigEndian.toNat ((body.drop 5).take 4)

theorem getElem?_body {msg : Bytes} {o k : Nat} (h : o + k < msg.length) :
    msg[o + k]? = some (((msg.drop o).drop k).headD 0) := by
  rw [List.drop_drop, List.getElem?_eq_getElem h, List.drop_eq_getElem_cons h, List.headD_cons]

theorem readU16At_body {msg : Bytes} {o k : Nat} (h : o + k + 2 ≤ msg.length) :
    readU16At msg (o + k) = some (BigEndian.toNat (((msg.drop o).drop k).take 2)) := by
  obtain ⟨high, low, hread, hslice⟩ := readU16At_eq h (Nat.le_refl _)
  rw [slice, List.take_length] at hslice
  rw [hread, List.drop_drop, hslice]
  rfl

theorem readU32At_body {msg : Bytes} {o k : Nat} (h : o + k + 4 ≤ msg.length) :
    readU32At msg (o + k) = some (BigEndian.toNat (((msg.drop o).drop k).take 4)) := by
  rw [readU32At_eq h (Nat.le_refl _), slice, List.take_length, List.drop_drop]

theorem length_of_extendedParams {body : Bytes} (h : extendedParams body = true) :
    13 ≤ body.length := by
  rw [extendedParams, Bool.and_eq_true, Bool.and_eq_true, decide_eq_true_iff,
    decide_eq_true_iff] at h
  exact h.1.2

theorem paramsStart_le {body : Bytes} (h : 10 ≤ body.length) : paramsStart body ≤ body.length := by
  rw [paramsStart]
  split
  · rename_i hext
    exact length_of_extendedParams hext
  · exact h

theorem paramsStart_eq_iff {body : Bytes} : paramsStart body = 13 ↔ extendedParams body = true := by
  rw [paramsStart]
  cases extendedParams body <;> decide

/-- The octet that marks the extended form is there where it is read. -/
theorem extendedAt_body {msg : Bytes} {o : Nat} :
    extendedAt msg o msg.length (((msg.drop o).drop 9).headD 0) =
      some (extendedParams (msg.drop o)) := by
  have hlen : (msg.drop o).length = msg.length - o := List.length_drop
  rw [extendedAt]
  by_cases hroom : ((msg.drop o).drop 9).headD 0 ≠ 0 ∧ o + 13 ≤ msg.length
  · have hfits : 13 ≤ msg.length - o := by omega
    rw [if_pos hroom, getElem?_body (show o + 10 < _ by omega), extendedParams, hlen,
      decide_eq_true hroom.1, decide_eq_true hfits]
    rfl
  · rw [if_neg hroom, extendedParams, hlen, ← Bool.decide_and, decide_eq_false]
    · rfl
    · intro h
      exact hroom ⟨h.1, by omega⟩

/-- The fixed part is all there in a message that is long enough. -/
theorem openFixedAt_eq {msg : Bytes} {o : Nat} (h : o + 10 ≤ msg.length) :
    openFixedAt msg o msg.length =
      some (some (fixedFields (msg.drop o), o + paramsStart (msg.drop o),
        o + paramsStart (msg.drop o) + paramsClaimed (msg.drop o))) := by
  have hversion : msg[o]? = some ((msg.drop o).headD 0) :=
    getElem?_body (k := 0) (show o + 0 < msg.length by omega)
  rw [openFixedAt, if_neg (by omega), hversion, readU16At_body (show o + 1 + 2 ≤ _ by omega),
    readU16At_body (show o + 3 + 2 ≤ _ by omega), readU32At_body (show o + 5 + 4 ≤ _ by omega),
    getElem?_body (show o + 9 < _ by omega)]
  simp only [Option.bind_eq_bind, Option.bind_some, extendedAt_body, paramsStart, paramsClaimed]
  cases hext : extendedParams (msg.drop o) with
  | false => rfl
  | true =>
    have hlen : (msg.drop o).length = msg.length - o := List.length_drop
    have hfits := length_of_extendedParams hext
    rw [if_pos rfl, readU16At_body (show o + 11 + 2 ≤ _ by omega)]
    rfl

/-- `decodeOpen`, with the walk over the parameters by name. -/
theorem decodeOpen_eq {msg : Bytes} (h : ¬msg.length < MIN_OPEN) :
    decodeOpen msg =
      { fixedFields (msg.drop HEADER_LEN) with
        errors :=
          if ((msg.drop HEADER_LEN).drop (paramsStart (msg.drop HEADER_LEN))).length <
            paramsClaimed (msg.drop HEADER_LEN) then [.length] else [] }.takeParams
        (extendedParams (msg.drop HEADER_LEN))
        (((msg.drop HEADER_LEN).drop (paramsStart (msg.drop HEADER_LEN))).take
          (paramsClaimed (msg.drop HEADER_LEN))) := by
  have hfuel : (((msg.drop HEADER_LEN).drop (paramsStart (msg.drop HEADER_LEN))).take
      (paramsClaimed (msg.drop HEADER_LEN))).length ≤ paramsClaimed (msg.drop HEADER_LEN) := by
    rw [List.length_take]
    exact Nat.min_le_left _ _
  rw [OpenMsg.takeParams, Records.readAll_fuel (paramNext_consumes _) (Nat.le_refl _) hfuel,
    decodeOpen, if_neg h]
  rfl

/-- Every message is read to an end without a read outside it, as `decodeOpen` says. -/
theorem decodeOpenAt_eq (msg : Bytes) : decodeOpenAt msg = some (decodeOpen msg) := by
  rw [decodeOpenAt]
  by_cases hshort : msg.length < MIN_OPEN
  · rw [if_pos hshort, decodeOpen, if_pos hshort]
  · have hfixed : HEADER_LEN + 10 ≤ msg.length := Nat.le_of_not_lt hshort
    rw [if_neg hshort, decodeOpen_eq hshort, openFixedAt_eq hfixed]
    simp only [Option.bind_eq_bind, Option.bind_some]
    have hlen : (msg.drop HEADER_LEN).length = msg.length - HEADER_LEN := List.length_drop
    generalize hbody : msg.drop HEADER_LEN = body at hlen ⊢
    have hstart : paramsStart body ≤ body.length := paramsStart_le (by omega)
    have hform : decide (HEADER_LEN + paramsStart body = HEADER_LEN + 13) =
        extendedParams body := by
      rw [Bool.eq_iff_iff, decide_eq_true_iff, Nat.add_left_cancel_iff, paramsStart_eq_iff]
    rw [paramLoop_eq (Nat.min_le_right _ _) (by omega) (by omega), slice_min, hform,
      ← List.drop_drop, hbody, List.length_drop, Option.some.injEq]
    congr 1
    by_cases hclaims : msg.length < HEADER_LEN + paramsStart body + paramsClaimed body
    · rw [if_pos hclaims, if_pos (by omega)]
      rfl
    · rw [if_neg hclaims, if_neg (by omega)]
      rfl

/-- Capabilities that fit read back the same, less what is unknown; an OPEN reads back as it was
written, with the AS its capabilities tell; it is refused exactly when a number does not convert
or neither form fits; and every byte string is read to an end within its bounds. -/
theorem open_round_trip :
    (∀ c : Capabilities, c.Filed → c.Representable →
      ∃ tlvs, c.asTlvs = some tlvs ∧
        (Capabilities.fromTlvs tlvs c.asn).Same { c with unknown := [] } ∧
        ∀ myAs holdTime bgpId extended msg, c.asn = some myAs → (0xffff < myAs → c.as4 = true) →
          encodeOpen myAs holdTime bgpId tlvs extended = some msg →
          decodeOpen msg =
              { version := 4, myAs := myAs, holdTime := holdTime, bgpId := bgpId,
                capabilities := tlvs } ∧
            (Capabilities.fromTlvs (decodeOpen msg).capabilities (decodeOpen msg).myAs).Same
              { c with unknown := [] }) ∧
    (∀ myAs holdTime bgpId capabilities extended msg, TellsAs myAs capabilities →
      encodeOpen myAs holdTime bgpId capabilities extended = some msg →
      decodeOpen msg =
        { version := 4, myAs := myAs, holdTime := holdTime, bgpId := bgpId,
          capabilities := capabilities }) ∧
    (∀ myAs holdTime bgpId capabilities extended,
      encodeOpen myAs holdTime bgpId capabilities extended = none ↔
        ¬(holdTime ≤ 0xffff ∧ bgpId ≤ 0xffffffff ∧
          (FitsClassic capabilities ∨ extended = true ∧ FitsExtended capabilities))) ∧
    ∀ msg, decodeOpenAt msg = some (decodeOpen msg) := by
  refine ⟨?_, ?_, ?_, decodeOpenAt_eq⟩
  · intro c hfiled hfits
    obtain ⟨tlvs, htlvs⟩ := Capabilities.asTlvs_of_representable hfits
    have hsame := Capabilities.fromTlvs_asTlvs hfiled htlvs
    refine ⟨tlvs, htlvs, hsame, ?_⟩
    intro myAs holdTime bgpId extended msg hasn has4 hmsg
    have hread := decodeOpen_encodeOpen (Capabilities.asTlvs_tellsAs htlvs hasn has4) hmsg
    refine ⟨hread, ?_⟩
    rw [hread]
    dsimp only
    rw [← hasn]
    exact hsame
  · intro myAs holdTime bgpId capabilities extended msg has hmsg
    exact decodeOpen_encodeOpen has hmsg
  · intro myAs holdTime bgpId capabilities extended
    exact encodeOpen_eq_none_iff

/-- An AS of four octets, told by its capability. -/
theorem open_round_trip_wide :
    ∃ msg, encodeOpen 70000 90 0x0a000001
        [(CAP_MP_EXT, [0, 1, 0, 1]), (CAP_AS4, [0, 1, 0x11, 0x70])] false = some msg ∧
      decodeOpen msg =
        { version := 4, myAs := 70000, holdTime := 90, bgpId := 0x0a000001,
          capabilities := [(CAP_MP_EXT, [0, 1, 0, 1]), (CAP_AS4, [0, 1, 0x11, 0x70])] } := by
  have hmsg : encodeOpen 70000 90 0x0a000001
      [(CAP_MP_EXT, [0, 1, 0, 1]), (CAP_AS4, [0, 1, 0x11, 0x70])] false =
      some (openMessageOf 70000 90 0x0a000001
        [16, 2, 6, 1, 4, 0, 1, 0, 1, 2, 6, 65, 4, 0, 1, 0x11, 0x70]) := by decide +kernel
  refine ⟨_, hmsg, open_round_trip.2.1 70000 90 0x0a000001 _ false _ ?_ hmsg⟩
  constructor
  · decide +kernel
  · intro _
    exact ⟨(CAP_AS4, [0, 1, 0x11, 0x70]), by decide, rfl, rfl⟩

end Packets
