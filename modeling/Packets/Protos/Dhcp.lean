/-
DHCPv4 and DHCPv6 messages (`protos/dhcp.pyx`), written as they were parsed, and parsed as they
are held.  `none` is an exception.
-/
import Packets.Lib.WireFields
import Packets.Rib.Prefix
import Packets.Lib.Mapped

namespace Packets.Protos

open WireFields

def DHCP_OPT_PAD : UInt8 := 0
def DHCP_OPT_END : UInt8 := 255
def DHCP_CHADDR_LEN : Nat := 16
def DHCP_SNAME_LEN : Nat := 64
def DHCP_FILE_LEN : Nat := 128
def DHCP_FIXED_LEN : Nat := 240
def DHCP6_RELAY_FORWARD : UInt8 := 12
def DHCP6_RELAY_REPLY : UInt8 := 13
def DHCP6_NORMAL_LEN : Nat := 4
def DHCP6_RELAY_LEN : Nat := 34

structure DHCPOption where
  code : UInt8
  data : Bytes
deriving DecidableEq

/-- PAD and END are one byte. -/
def isMarker (code : UInt8) : Bool := code = DHCP_OPT_PAD || code = DHCP_OPT_END

/-- `DHCPOption._write` -/
def DHCPOption.write (o : DHCPOption) : Option Bytes :=
  if isMarker o.code then some [o.code]
  else if 255 < o.data.length then none
  else some (o.code :: UInt8.ofNat o.data.length :: o.data)

structure DHCP where
  op : UInt8
  htype : UInt8
  hlen : UInt8
  hops : UInt8
  xid : Word 4
  secs : Word 2
  flags : Word 2
  ciaddr : Slot 4
  yiaddr : Slot 4
  siaddr : Slot 4
  giaddr : Slot 4
  chaddr : Bytes
  sname : Bytes
  file : Bytes
  magic : Word 4
  options : List DHCPOption
  data : Bytes
deriving DecidableEq

/-- The walk over the options.  What is behind END is the data. -/
def parseOptions (s : Bytes) : Option (List DHCPOption × Bytes) :=
  match s with
  | [] => some ([], [])
  | code :: rest =>
    if code = DHCP_OPT_PAD then
      (parseOptions rest).map fun found => (⟨code, []⟩ :: found.1, found.2)
    else if code = DHCP_OPT_END then some ([⟨code, []⟩], rest)
    else
      match rest with
      | [] => none
      | length :: rest =>
        if rest.length < length.toNat then none
        else
          (parseOptions (rest.drop length.toNat)).map fun found =>
            (⟨code, rest.take length.toNat⟩ :: found.1, found.2)
termination_by s.length
decreasing_by
  · simp
  · simp only [List.length_cons, List.length_drop]
    omega

/-- One byte off the front. -/
def readByte : Bytes → Option (UInt8 × Bytes)
  | [] => none
  | b :: rest => some (b, rest)

/-- `DHCP._parse_message` -/
def DHCP.parse (s : Bytes) : Option DHCP := do
  let (op, rest) ← readByte s
  let (htype, rest) ← readByte rest
  let (hlen, rest) ← readByte rest
  let (hops, rest) ← readByte rest
  let (xid, rest) ← readWord 4 rest
  let (secs, rest) ← readWord 2 rest
  let (flags, rest) ← readWord 2 rest
  let (ciaddr, rest) ← readSlot 4 rest
  let (yiaddr, rest) ← readSlot 4 rest
  let (siaddr, rest) ← readSlot 4 rest
  let (giaddr, rest) ← readSlot 4 rest
  let (chaddr, rest) ← readSlot DHCP_CHADDR_LEN rest
  let (sname, rest) ← readSlot DHCP_SNAME_LEN rest
  let (file, rest) ← readSlot DHCP_FILE_LEN rest
  let (magic, rest) ← readWord 4 rest
  let (options, data) ← parseOptions rest
  pure ⟨op, htype, hlen, hops, xid, secs, flags, ciaddr, yiaddr, siaddr, giaddr,
    stripped chaddr.bytes, stripped sname.bytes, stripped file.bytes, magic, options, data⟩

/-- The options in their order; one that cannot be written is an exception. -/
def writeOptions (options : List DHCPOption) : Option Bytes :=
  (options.mapM DHCPOption.write).map List.flatten

/-- The fixed header. -/
def DHCP.header (m : DHCP) : Bytes :=
  [m.op, m.htype, m.hlen, m.hops] ++ (m.xid.bytes ++ (m.secs.bytes ++ (m.flags.bytes ++
    (m.ciaddr.bytes ++ (m.yiaddr.bytes ++ (m.siaddr.bytes ++ (m.giaddr.bytes ++
      (padded DHCP_CHADDR_LEN m.chaddr ++ (padded DHCP_SNAME_LEN m.sname ++
        (padded DHCP_FILE_LEN m.file ++ m.magic.bytes))))))))))

/-- `DHCP._write` -/
def DHCP.write (m : DHCP) : Option Bytes :=
  (writeOptions m.options).map fun options => m.header ++ (options ++ m.data)

structure DHCP6Option where
  code : Word 2
  data : Bytes
deriving DecidableEq

/-- `DHCP6Option._write` -/
def DHCP6Option.write (o : DHCP6Option) : Option Bytes :=
  if 65535 < o.data.length then none
  else some (o.code.bytes ++ (BigEndian.ofNat 2 o.data.length ++ o.data))

structure DHCP6 where
  msgType : UInt8
  transactionId : Word 4
  hopCount : UInt8
  linkAddress : Slot 16
  peerAddress : Slot 16
  options : List DHCP6Option
deriving DecidableEq

def isRelay (msgType : UInt8) : Bool := msgType = DHCP6_RELAY_FORWARD || msgType = DHCP6_RELAY_REPLY

/-- The walk over the options, which have to fill the message. -/
def parseOptions6 (s : Bytes) : Option (List DHCP6Option) :=
  if s = [] then some []
  else
    match _hcode : readWord 2 s with
    | none => none
    | some (code, rest) =>
      match _hlength : readWord 2 rest with
      | none => none
      | some (length, rest) =>
        if rest.length < length.value then none
        else
          (parseOptions6 (rest.drop length.value)).map fun found =>
            ⟨code, rest.take length.value⟩ :: found
termination_by s.length
decreasing_by
  rw [readWord_eq_some_iff.mp _hcode, readWord_eq_some_iff.mp _hlength]
  simp only [List.length_append, Word.length_bytes, List.length_drop]
  omega

/-- A transaction id of three bytes, as it is kept. -/
def transaction (w : Word 3) : Word 4 := ⟨w.value, Nat.lt_trans w.fits (by decide)⟩

/-- `DHCP6._parse_message`.  What a header does not have is neutral. -/
def DHCP6.parse (s : Bytes) : Option DHCP6 := do
  let (msgType, rest) ← readByte s
  if isRelay msgType then do
    let (hopCount, rest) ← readByte rest
    let (linkAddress, rest) ← readSlot 16 rest
    let (peerAddress, rest) ← readSlot 16 rest
    let options ← parseOptions6 rest
    pure ⟨msgType, ⟨0, by decide⟩, hopCount, linkAddress, peerAddress, options⟩
  else do
    let (transactionId, rest) ← readWord 3 rest
    let options ← parseOptions6 rest
    pure ⟨msgType, transaction transactionId, 0, Slot.zero 16, Slot.zero 16, options⟩

def writeOptions6 (options : List DHCP6Option) : Option Bytes :=
  (options.mapM DHCP6Option.write).map List.flatten

/-- `DHCP6._write` -/
def DHCP6.write (m : DHCP6) : Option Bytes :=
  if isRelay m.msgType then
    (writeOptions6 m.options).map fun options =>
      [m.msgType, m.hopCount] ++ (m.linkAddress.bytes ++ (m.peerAddress.bytes ++ options))
  else if 0xffffff < m.transactionId.value then none
  else
    (writeOptions6 m.options).map fun options =>
      [m.msgType] ++ (BigEndian.ofNat 3 m.transactionId.value ++ options)

theorem readByte_eq_some_iff {s rest : Bytes} {b : UInt8} :
    readByte s = some (b, rest) ↔ s = b :: rest := by
  cases s with
  | nil => simp [readByte]
  | cons _ _ => simp [readByte]

theorem readByte_bind {β : Type} (b : UInt8) (rest : Bytes) (f : UInt8 × Bytes → Option β) :
    (readByte (b :: rest)).bind f = f (b, rest) := rfl

theorem writeOptions_cons {o : DHCPOption} {options : List DHCPOption} {wire rest : Bytes}
    (ho : o.write = some wire) (hrest : writeOptions options = some rest) :
    writeOptions (o :: options) = some (wire ++ rest) := by
  obtain ⟨written, hwritten, rfl⟩ := Option.map_eq_some_iff.mp hrest
  rw [writeOptions, Mapped.mapM_cons_eq_some_iff.mpr ⟨wire, written, ho, hwritten, rfl⟩]
  rfl

theorem write_marker {o : DHCPOption} (h : isMarker o.code = true) : o.write = some [o.code] := by
  rw [DHCPOption.write, if_pos h]

theorem write_value {o : DHCPOption} (h : isMarker o.code = false) (hlen : o.data.length ≤ 255) :
    o.write = some (o.code :: UInt8.ofNat o.data.length :: o.data) := by
  rw [DHCPOption.write, h, if_neg Bool.false_ne_true, if_neg (Nat.not_lt.mpr hlen)]

/-- Some option's header or value runs off the end. -/
inductive Overruns : Bytes → Prop
  | header {code : UInt8} : isMarker code = false → Overruns [code]
  | value {code length : UInt8} {rest : Bytes} :
      isMarker code = false → rest.length < length.toNat → Overruns (code :: length :: rest)
  | pad {rest : Bytes} : Overruns rest → Overruns (DHCP_OPT_PAD :: rest)
  | next {code length : UInt8} {data rest : Bytes} :
      isMarker code = false → data.length = length.toNat → Overruns rest →
        Overruns (code :: length :: (data ++ rest))

/-- What the walk finds is what was there. -/
theorem parseOptions_sound {s data : Bytes} {options : List DHCPOption}
    (h : parseOptions s = some (options, data)) :
    ∃ wire, writeOptions options = some wire ∧ s = wire ++ data := by
  fun_induction parseOptions s generalizing options data with
  | case1 =>
    obtain ⟨rfl, rfl⟩ := Prod.mk.inj (Option.some.inj h)
    exact ⟨[], rfl, rfl⟩
  | case2 rest ih =>
    obtain ⟨⟨found, rest'⟩, hfound, hsplit⟩ := Option.map_eq_some_iff.mp h
    obtain ⟨rfl, rfl⟩ := Prod.mk.inj hsplit
    obtain ⟨wire, hwire, rfl⟩ := ih hfound
    exact ⟨_, writeOptions_cons (write_marker rfl) hwire, rfl⟩
  | case3 rest hpad =>
    obtain ⟨rfl, rfl⟩ := Prod.mk.inj (Option.some.inj h)
    exact ⟨_, writeOptions_cons (write_marker rfl) rfl, rfl⟩
  | case4 code hpad hend => cases h
  | case5 code hpad hend length rest hshort => cases h
  | case6 code hpad hend length rest hlong ih =>
    obtain ⟨⟨found, rest'⟩, hfound, hsplit⟩ := Option.map_eq_some_iff.mp h
    obtain ⟨rfl, rfl⟩ := Prod.mk.inj hsplit
    obtain ⟨wire, hwire, hrest⟩ := ih hfound
    have hmarker : isMarker code = false := by simp [isMarker, hpad, hend]
    have hsize : (rest.take length.toNat).length = length.toNat :=
      List.length_take_of_le (Nat.le_of_not_lt hlong)
    have hbyte : length.toNat ≤ 255 := Nat.le_of_lt_succ length.toNat_lt
    have hvalue : DHCPOption.write ⟨code, rest.take length.toNat⟩ =
        some (code :: length :: rest.take length.toNat) := by
      rw [write_value hmarker (by rw [hsize]; exact hbyte), hsize, UInt8.ofNat_toNat]
    refine ⟨_, writeOptions_cons hvalue hwire, ?_⟩
    simp only [List.cons_append, List.append_assoc, ← hrest, List.take_append_drop]

theorem parseOptions_pad (rest : Bytes) :
    parseOptions (DHCP_OPT_PAD :: rest) =
      (parseOptions rest).map fun found => (⟨DHCP_OPT_PAD, []⟩ :: found.1, found.2) := by
  rw [parseOptions.eq_def]
  exact if_pos rfl

theorem parseOptions_end (rest : Bytes) :
    parseOptions (DHCP_OPT_END :: rest) = some ([⟨DHCP_OPT_END, []⟩], rest) := by
  rw [parseOptions.eq_def]
  rfl

theorem parseOptions_value {code length : UInt8} {data : Bytes} (hmarker : isMarker code = false)
    (hsize : data.length = length.toNat) (rest : Bytes) :
    parseOptions (code :: length :: (data ++ rest)) =
      (parseOptions rest).map fun found => (⟨code, data⟩ :: found.1, found.2) := by
  have hcodes : code ≠ DHCP_OPT_PAD ∧ code ≠ DHCP_OPT_END := by simpa [isMarker] using hmarker
  have hlong : ¬(data ++ rest).length < length.toNat := by
    rw [List.length_append]
    omega
  rw [parseOptions, if_neg hcodes.1, if_neg hcodes.2, if_neg hlong, List.take_left' hsize, List.drop_left' hsize]

/-- The walk fails where an option overruns the message and nowhere else. -/
theorem parseOptions_eq_none_iff (s : Bytes) : parseOptions s = none ↔ Overruns s := by
  constructor
  · intro h
    fun_induction parseOptions s with
    | case1 => cases h
    | case2 rest ih => exact .pad (ih (Option.map_eq_none_iff.mp h))
    | case3 rest hpad => cases h
    | case4 code hpad hend => exact .header (by simp [isMarker, hpad, hend])
    | case5 code hpad hend length rest hshort =>
      exact .value (by simp [isMarker, hpad, hend]) hshort
    | case6 code hpad hend length rest hlong ih =>
      have hsize : (rest.take length.toNat).length = length.toNat :=
        List.length_take_of_le (Nat.le_of_not_lt hlong)
      have hmarker : isMarker code = false := by simp [isMarker, hpad, hend]
      have hnext := Overruns.next hmarker hsize (ih (Option.map_eq_none_iff.mp h))
      rwa [List.take_append_drop] at hnext
  · intro h
    induction h with
    | @header code hmarker =>
      have hcodes : code ≠ DHCP_OPT_PAD ∧ code ≠ DHCP_OPT_END := by simpa [isMarker] using hmarker
      rw [parseOptions, if_neg hcodes.1, if_neg hcodes.2]
    | @value code length rest hmarker hshort =>
      have hcodes : code ≠ DHCP_OPT_PAD ∧ code ≠ DHCP_OPT_END := by simpa [isMarker] using hmarker
      rw [parseOptions, if_neg hcodes.1, if_neg hcodes.2]
      exact if_pos hshort
    | pad _ ih => rw [parseOptions_pad, ih, Option.map_none]
    | next hmarker hsize _ ih => rw [parseOptions_value hmarker hsize, ih, Option.map_none]

/-- Options and the bytes behind them that can be told apart again. -/
structure OptionsHeld (options : List DHCPOption) (data : Bytes) : Prop where
  values : ∀ o ∈ options, o.data.length ≤ 255
  markers : ∀ o ∈ options, isMarker o.code = true → o.data = []
  ending : ∀ o ∈ options.dropLast, o.code ≠ DHCP_OPT_END
  behind : data ≠ [] → ∃ o, options.getLast? = some o ∧ o.code = DHCP_OPT_END

theorem OptionsHeld.tail {o : DHCPOption} {options : List DHCPOption} {data : Bytes}
    (h : OptionsHeld (o :: options) data) (hend : o.code ≠ DHCP_OPT_END) :
    OptionsHeld options data where
  values := fun p hp => h.values p (List.mem_cons_of_mem o hp)
  markers := fun p hp => h.markers p (List.mem_cons_of_mem o hp)
  ending := fun p hp => by
    cases options with
    | nil => cases hp
    | cons q rest => exact h.ending p (by simpa using Or.inr hp)
  behind := fun hdata => by
    obtain ⟨last, hlast, hcode⟩ := h.behind hdata
    cases options with
    | nil =>
      obtain rfl : o = last := by simpa using hlast
      exact absurd hcode hend
    | cons q rest => exact ⟨last, by simpa using hlast, hcode⟩

/-- What is written is parsed as it was held. -/
theorem parseOptions_write {options : List DHCPOption} {data : Bytes}
    (h : OptionsHeld options data) :
    ∃ wire, writeOptions options = some wire ∧ parseOptions (wire ++ data) = some (options, data) := by
  induction options with
  | nil =>
    have hdata : data = [] := by
      by_contra hne
      obtain ⟨o, hlast, -⟩ := h.behind hne
      cases hlast
    rw [hdata]
    exact ⟨[], rfl, by rw [List.append_nil, parseOptions]⟩
  | cons o options ih =>
    obtain ⟨code, value⟩ := o
    by_cases hend : code = DHCP_OPT_END
    · subst hend
      have hempty : options = [] := by
        cases options with
        | nil => rfl
        | cons q rest => exact absurd rfl (h.ending ⟨DHCP_OPT_END, value⟩ (by simp))
      obtain rfl : value = [] := h.markers _ List.mem_cons_self rfl
      rw [hempty]
      exact ⟨_, writeOptions_cons (write_marker rfl) rfl, parseOptions_end data⟩
    · obtain ⟨wire, hwire, hparse⟩ := ih (h.tail hend)
      by_cases hpad : code = DHCP_OPT_PAD
      · subst hpad
        obtain rfl : value = [] := h.markers _ List.mem_cons_self rfl
        refine ⟨_, writeOptions_cons (write_marker rfl) hwire, ?_⟩
        rw [List.append_assoc, List.singleton_append, parseOptions_pad, hparse]
        rfl
      · have hmarker : isMarker code = false := by simp [isMarker, hpad, hend]
        have hlen : value.length ≤ 255 := h.values _ List.mem_cons_self
        have hbyte : value.length = (UInt8.ofNat value.length).toNat := by
          rw [UInt8.toNat_ofNat']
          exact (Nat.mod_eq_of_lt (Nat.lt_succ_of_le hlen)).symm
        refine ⟨_, writeOptions_cons (write_value (o := ⟨code, value⟩) hmarker hlen) hwire, ?_⟩
        rw [List.cons_append, List.cons_append, List.cons_append, List.cons_append,
          List.append_assoc, parseOptions_value hmarker hbyte, hparse]
        rfl

/-- The fixed header with the slots as they stand. -/
def DHCP.front (m : DHCP) (chaddr : Slot DHCP_CHADDR_LEN) (sname : Slot DHCP_SNAME_LEN)
    (file : Slot DHCP_FILE_LEN) : Bytes :=
  [m.op, m.htype, m.hlen, m.hops] ++ (m.xid.bytes ++ (m.secs.bytes ++ (m.flags.bytes ++
    (m.ciaddr.bytes ++ (m.yiaddr.bytes ++ (m.siaddr.bytes ++ (m.giaddr.bytes ++
      (chaddr.bytes ++ (sname.bytes ++ (file.bytes ++ m.magic.bytes))))))))))

theorem DHCP.length_front (m : DHCP) (chaddr : Slot DHCP_CHADDR_LEN) (sname : Slot DHCP_SNAME_LEN)
    (file : Slot DHCP_FILE_LEN) : (m.front chaddr sname file).length = DHCP_FIXED_LEN := by
  simp [DHCP.front, DHCP_CHADDR_LEN, DHCP_SNAME_LEN, DHCP_FILE_LEN, DHCP_FIXED_LEN]

/-- The slots hold the fields that are kept without their zeros. -/
structure DHCP.Strips (m : DHCP) (chaddr : Slot DHCP_CHADDR_LEN) (sname : Slot DHCP_SNAME_LEN)
    (file : Slot DHCP_FILE_LEN) : Prop where
  chaddr : m.chaddr = stripped chaddr.bytes
  sname : m.sname = stripped sname.bytes
  file : m.file = stripped file.bytes

/-- The fixed header and what is behind it. -/
theorem DHCP.parse_eq_some_iff {s : Bytes} {m : DHCP} :
    DHCP.parse s = some m ↔ ∃ chaddr sname file rest, m.Strips chaddr sname file ∧
      parseOptions rest = some (m.options, m.data) ∧ s = m.front chaddr sname file ++ rest := by
  constructor
  · intro h
    obtain ⟨⟨op, s⟩, hop, h⟩ := Option.bind_eq_some_iff.mp h
    obtain ⟨⟨htype, s⟩, hhtype, h⟩ := Option.bind_eq_some_iff.mp h
    obtain ⟨⟨hlen, s⟩, hhlen, h⟩ := Option.bind_eq_some_iff.mp h
    obtain ⟨⟨hops, s⟩, hhops, h⟩ := Option.bind_eq_some_iff.mp h
    obtain ⟨⟨xid, s⟩, hxid, h⟩ := Option.bind_eq_some_iff.mp h
    obtain ⟨⟨secs, s⟩, hsecs, h⟩ := Option.bind_eq_some_iff.mp h
    obtain ⟨⟨flags, s⟩, hflags, h⟩ := Option.bind_eq_some_iff.mp h
    obtain ⟨⟨ciaddr, s⟩, hciaddr, h⟩ := Option.bind_eq_some_iff.mp h
    obtain ⟨⟨yiaddr, s⟩, hyiaddr, h⟩ := Option.bind_eq_some_iff.mp h
    obtain ⟨⟨siaddr, s⟩, hsiaddr, h⟩ := Option.bind_eq_some_iff.mp h
    obtain ⟨⟨giaddr, s⟩, hgiaddr, h⟩ := Option.bind_eq_some_iff.mp h
    obtain ⟨⟨chaddr, s⟩, hchaddr, h⟩ := Option.bind_eq_some_iff.mp h
    obtain ⟨⟨sname, s⟩, hsname, h⟩ := Option.bind_eq_some_iff.mp h
    obtain ⟨⟨file, s⟩, hfile, h⟩ := Option.bind_eq_some_iff.mp h
    obtain ⟨⟨magic, s⟩, hmagic, h⟩ := Option.bind_eq_some_iff.mp h
    obtain ⟨⟨options, data⟩, hoptions, h⟩ := Option.bind_eq_some_iff.mp h
    obtain rfl := Option.some.inj h
    refine ⟨chaddr, sname, file, s, ⟨rfl, rfl, rfl⟩, hoptions, ?_⟩
    rw [readByte_eq_some_iff.mp hop, readByte_eq_some_iff.mp hhtype,
      readByte_eq_some_iff.mp hhlen, readByte_eq_some_iff.mp hhops,
      readWord_eq_some_iff.mp hxid, readWord_eq_some_iff.mp hsecs,
      readWord_eq_some_iff.mp hflags, readSlot_eq_some_iff.mp hciaddr,
      readSlot_eq_some_iff.mp hyiaddr, readSlot_eq_some_iff.mp hsiaddr,
      readSlot_eq_some_iff.mp hgiaddr, readSlot_eq_some_iff.mp hchaddr,
      readSlot_eq_some_iff.mp hsname, readSlot_eq_some_iff.mp hfile,
      readWord_eq_some_iff.mp hmagic]
    simp [DHCP.front]
  · rintro ⟨chaddr, sname, file, rest, hstrips, hoptions, rfl⟩
    simp only [DHCP.parse, DHCP.front, List.append_assoc]
    dsimp only [Option.bind_eq_bind, List.cons_append, List.nil_append]
    iterate 4
      rw [readByte_bind]
      dsimp only
    iterate 3
      rw [readWord_bind]
      dsimp only
    iterate 7
      rw [readSlot_bind]
      dsimp only
    rw [readWord_bind]
    dsimp only
    rw [hoptions, Option.bind_some, ← hstrips.chaddr, ← hstrips.sname, ← hstrips.file]
    rfl

theorem DHCP.write_parse {s : Bytes} {m : DHCP} (h : DHCP.parse s = some m) : m.write = some s := by
  obtain ⟨chaddr, sname, file, rest, hstrips, hoptions, rfl⟩ := DHCP.parse_eq_some_iff.mp h
  obtain ⟨wire, hwire, rfl⟩ := parseOptions_sound hoptions
  rw [DHCP.write, hwire, DHCP.header, hstrips.chaddr, hstrips.sname, hstrips.file,
    padded_stripped chaddr.size, padded_stripped sname.size, padded_stripped file.size]
  rfl

/-- The fields that fit their slots, and options that can be told apart again. -/
structure DHCP.Held (m : DHCP) : Prop where
  options : OptionsHeld m.options m.data
  chaddr : m.chaddr.length ≤ DHCP_CHADDR_LEN ∧ m.chaddr.getLast? ≠ some 0
  sname : m.sname.length ≤ DHCP_SNAME_LEN ∧ m.sname.getLast? ≠ some 0
  file : m.file.length ≤ DHCP_FILE_LEN ∧ m.file.getLast? ≠ some 0

theorem DHCP.parse_write {m : DHCP} (h : m.Held) :
    ∃ s, m.write = some s ∧ DHCP.parse s = some m := by
  obtain ⟨wire, hwire, hparse⟩ := parseOptions_write h.options
  refine ⟨m.header ++ (wire ++ m.data), by rw [DHCP.write, hwire]; rfl, ?_⟩
  rw [DHCP.parse_eq_some_iff]
  exact ⟨⟨padded DHCP_CHADDR_LEN m.chaddr, length_padded _ _⟩,
    ⟨padded DHCP_SNAME_LEN m.sname, length_padded _ _⟩,
    ⟨padded DHCP_FILE_LEN m.file, length_padded _ _⟩, wire ++ m.data,
    ⟨(stripped_padded h.chaddr.1 h.chaddr.2).symm, (stripped_padded h.sname.1 h.sname.2).symm,
      (stripped_padded h.file.1 h.file.2).symm⟩, hparse, rfl⟩

/-- A fixed header that is all there, and any options and data behind it. -/
theorem DHCP.exists_front {s : Bytes} (h : DHCP_FIXED_LEN ≤ s.length)
    (options : List DHCPOption) (data : Bytes) :
    ∃ m chaddr sname file rest, DHCP.Strips m chaddr sname file ∧
      s = m.front chaddr sname file ++ rest ∧ m.options = options ∧ m.data = data := by
  rw [DHCP_FIXED_LEN] at h
  obtain ⟨op, s, rfl⟩ := List.exists_cons_of_length_pos (by omega : 0 < s.length)
  rw [List.length_cons] at h
  obtain ⟨htype, s, rfl⟩ := List.exists_cons_of_length_pos (by omega : 0 < s.length)
  rw [List.length_cons] at h
  obtain ⟨hlen, s, rfl⟩ := List.exists_cons_of_length_pos (by omega : 0 < s.length)
  rw [List.length_cons] at h
  obtain ⟨hops, s, rfl⟩ := List.exists_cons_of_length_pos (by omega : 0 < s.length)
  rw [List.length_cons] at h
  obtain ⟨xid, s₁, rfl, h₁⟩ := exists_word 4 (s := s) (by omega)
  obtain ⟨secs, s₂, rfl, h₂⟩ := exists_word 2 (s := s₁) (by omega)
  obtain ⟨flags, s₃, rfl, h₃⟩ := exists_word 2 (s := s₂) (by omega)
  obtain ⟨ciaddr, s₄, rfl, h₄⟩ := exists_slot 4 (s := s₃) (by omega)
  obtain ⟨yiaddr, s₅, rfl, h₅⟩ := exists_slot 4 (s := s₄) (by omega)
  obtain ⟨siaddr, s₆, rfl, h₆⟩ := exists_slot 4 (s := s₅) (by omega)
  obtain ⟨giaddr, s₇, rfl, h₇⟩ := exists_slot 4 (s := s₆) (by omega)
  obtain ⟨chaddr, s₈, rfl, h₈⟩ := exists_slot 16 (s := s₇) (by omega)
  obtain ⟨sname, s₉, rfl, h₉⟩ := exists_slot 64 (s := s₈) (by omega)
  obtain ⟨file, s₁₀, rfl, h₁₀⟩ := exists_slot 128 (s := s₉) (by omega)
  obtain ⟨magic, rest, rfl, -⟩ := exists_word 4 (s := s₁₀) (by omega)
  refine ⟨⟨op, htype, hlen, hops, xid, secs, flags, ciaddr, yiaddr, siaddr, giaddr,
    stripped chaddr.bytes, stripped sname.bytes, stripped file.bytes, magic, options, data⟩,
    chaddr, sname, file, rest, ⟨rfl, rfl, rfl⟩, ?_, rfl, rfl⟩
  simp [DHCP.front]

/-- A short header, or an option that runs off the end. -/
theorem DHCP.parse_eq_none_iff (s : Bytes) :
    DHCP.parse s = none ↔ s.length < DHCP_FIXED_LEN ∨ Overruns (s.drop DHCP_FIXED_LEN) := by
  constructor
  · intro hnone
    by_contra hwhole
    rw [not_or, Nat.not_lt, ← parseOptions_eq_none_iff] at hwhole
    obtain ⟨hlong, hoptions⟩ := hwhole
    obtain ⟨⟨options, data⟩, hfound⟩ := Option.ne_none_iff_exists'.mp hoptions
    obtain ⟨m, chaddr, sname, file, rest, hstrips, rfl, rfl, rfl⟩ :=
      DHCP.exists_front hlong options data
    rw [List.drop_left' (m.length_front chaddr sname file)] at hfound
    have hsome := DHCP.parse_eq_some_iff.mpr ⟨chaddr, sname, file, rest, hstrips, hfound, rfl⟩
    rw [hnone] at hsome
    cases hsome
  · intro hbad
    by_contra hsome
    obtain ⟨m, hm⟩ := Option.ne_none_iff_exists'.mp hsome
    obtain ⟨chaddr, sname, file, rest, -, hoptions, rfl⟩ := DHCP.parse_eq_some_iff.mp hm
    have hfront := m.length_front chaddr sname file
    rw [List.drop_left' hfront, List.length_append, hfront, ← parseOptions_eq_none_iff,
      hoptions] at hbad
    rcases hbad with hshort | hnone
    · omega
    · cases hnone

theorem writeOptions6_cons {o : DHCP6Option} {options : List DHCP6Option} {wire rest : Bytes}
    (ho : o.write = some wire) (hrest : writeOptions6 options = some rest) :
    writeOptions6 (o :: options) = some (wire ++ rest) := by
  obtain ⟨written, hwritten, rfl⟩ := Option.map_eq_some_iff.mp hrest
  rw [writeOptions6, Mapped.mapM_cons_eq_some_iff.mpr ⟨wire, written, ho, hwritten, rfl⟩]
  rfl

/-- Some option's header or value runs off the end. -/
inductive Overruns6 : Bytes → Prop
  | header {s : Bytes} : s ≠ [] → s.length < 4 → Overruns6 s
  | value {code length : Word 2} {rest : Bytes} :
      rest.length < length.value → Overruns6 (code.bytes ++ (length.bytes ++ rest))
  | next {code length : Word 2} {data rest : Bytes} :
      data.length = length.value → Overruns6 rest →
        Overruns6 (code.bytes ++ (length.bytes ++ (data ++ rest)))

theorem parseOptions6_header {s : Bytes} (hne : s ≠ []) (hshort : s.length < 4) :
    parseOptions6 s = none := by
  rw [parseOptions6, if_neg hne]
  split
  · rfl
  · rename_i code rest hcode
    split
    · rfl
    · rename_i length rest' hlength
      have hs := readWord_eq_some_iff.mp hcode
      rw [readWord_eq_some_iff.mp hlength] at hs
      rw [hs] at hshort
      simp at hshort
      omega

theorem bytes_append_ne_nil {width : Nat} (w : Word (width + 1)) (rest : Bytes) :
    w.bytes ++ rest ≠ [] := by
  apply List.ne_nil_of_length_pos
  rw [List.length_append, Word.length_bytes]
  omega

/-- The walk behind the header of an option. -/
theorem parseOptions6_word (code length : Word 2) (rest : Bytes) :
    parseOptions6 (code.bytes ++ (length.bytes ++ rest)) =
      if rest.length < length.value then none
      else (parseOptions6 (rest.drop length.value)).map fun found =>
        ⟨code, rest.take length.value⟩ :: found := by
  have hcode := readWord_bytes code (length.bytes ++ rest)
  have hlength := readWord_bytes length rest
  rw [parseOptions6, if_neg (bytes_append_ne_nil code _)]
  split
  · rename_i hnone
    rw [hcode] at hnone
    cases hnone
  · rename_i code' rest' hread
    rw [hcode] at hread
    obtain ⟨rfl, rfl⟩ := Prod.mk.inj (Option.some.inj hread)
    split
    · rename_i hnone
      rw [hlength] at hnone
      cases hnone
    · rename_i length' rest'' hread'
      rw [hlength] at hread'
      obtain ⟨rfl, rfl⟩ := Prod.mk.inj (Option.some.inj hread')
      rfl

theorem parseOptions6_value {code length : Word 2} {data : Bytes}
    (hsize : data.length = length.value) (rest : Bytes) :
    parseOptions6 (code.bytes ++ (length.bytes ++ (data ++ rest))) =
      (parseOptions6 rest).map fun found => ⟨code, data⟩ :: found := by
  have hlong : ¬(data ++ rest).length < length.value := by
    rw [List.length_append]
    omega
  rw [parseOptions6_word, if_neg hlong, List.take_left' hsize, List.drop_left' hsize]

theorem options6_cases (s : Bytes) :
    s = [] ∨ (s ≠ [] ∧ s.length < 4) ∨
      ∃ (code length : Word 2) (rest : Bytes), s = code.bytes ++ (length.bytes ++ rest) := by
  by_cases hempty : s = []
  · exact Or.inl hempty
  by_cases hshort : s.length < 4
  · exact Or.inr (Or.inl ⟨hempty, hshort⟩)
  obtain ⟨code, rest, rfl, hrest⟩ := exists_word 2 (s := s) (by omega)
  obtain ⟨length, rest, rfl, -⟩ := exists_word 2 (s := rest) (by omega)
  exact Or.inr (Or.inr ⟨code, length, rest, rfl⟩)

theorem write_option6 {o : DHCP6Option} (hlen : o.data.length ≤ 65535) :
    o.write = some (o.code.bytes ++ (BigEndian.ofNat 2 o.data.length ++ o.data)) := by
  rw [DHCP6Option.write, if_neg (Nat.not_lt.mpr hlen)]

theorem parseOptions6_sound {s : Bytes} {options : List DHCP6Option}
    (h : parseOptions6 s = some options) : writeOptions6 options = some s := by
  induction hn : s.length using Nat.strong_induction_on generalizing s options with
  | _ n ih =>
    rcases options6_cases s with rfl | ⟨hne, hshort⟩ | ⟨code, length, rest, rfl⟩
    · rw [parseOptions6, if_pos rfl] at h
      obtain rfl := Option.some.inj h
      rfl
    · rw [parseOptions6_header hne hshort] at h
      cases h
    · rw [parseOptions6_word] at h
      split at h
      · cases h
      · rename_i hlong
        obtain ⟨found, hfound, rfl⟩ := Option.map_eq_some_iff.mp h
        have hrest := ih (rest.drop length.value).length (by
          rw [← hn]
          simp
          omega) hfound rfl
        have hsize : (rest.take length.value).length = length.value :=
          List.length_take_of_le (Nat.le_of_not_lt hlong)
        have hvalue := write_option6 (o := ⟨code, rest.take length.value⟩) (by
          rw [hsize]
          exact Nat.le_of_lt_succ length.fits)
        rw [writeOptions6_cons hvalue hrest]
        dsimp only
        rw [hsize, List.append_assoc, List.append_assoc, List.take_append_drop]
        rfl

theorem parseOptions6_eq_none_iff (s : Bytes) : parseOptions6 s = none ↔ Overruns6 s := by
  constructor
  · intro h
    induction hn : s.length using Nat.strong_induction_on generalizing s with
    | _ n ih =>
      rcases options6_cases s with rfl | ⟨hne, hshort⟩ | ⟨code, length, rest, rfl⟩
      · rw [parseOptions6, if_pos rfl] at h
        cases h
      · exact .header hne hshort
      · rw [parseOptions6_word] at h
        split at h
        · next hshort => exact .value hshort
        · next hlong =>
            have hsize : (rest.take length.value).length = length.value :=
              List.length_take_of_le (Nat.le_of_not_lt hlong)
            have hrest := ih (rest.drop length.value).length (by
              rw [← hn]
              simp
              omega) _ (Option.map_eq_none_iff.mp h) rfl
            have hnext : Overruns6 (code.bytes ++ (length.bytes ++
                (rest.take length.value ++ rest.drop length.value))) := .next hsize hrest
            rwa [List.take_append_drop] at hnext
  · intro h
    induction h with
    | header hne hshort => exact parseOptions6_header hne hshort
    | value hshort => rw [parseOptions6_word, if_pos hshort]
    | next hsize _ ih => rw [parseOptions6_value hsize, ih, Option.map_none]

theorem parseOptions6_write {options : List DHCP6Option}
    (h : ∀ o ∈ options, o.data.length ≤ 65535) :
    ∃ wire, writeOptions6 options = some wire ∧ parseOptions6 wire = some options := by
  induction options with
  | nil => exact ⟨[], rfl, by rw [parseOptions6, if_pos rfl]⟩
  | cons o options ih =>
    obtain ⟨wire, hwire, hparse⟩ := ih fun p hp => h p (List.mem_cons_of_mem o hp)
    have hlen := h o List.mem_cons_self
    have hvalue := @parseOptions6_value o.code ⟨o.data.length, Nat.lt_succ_of_le hlen⟩ o.data rfl
      wire
    refine ⟨_, writeOptions6_cons (write_option6 hlen) hwire, ?_⟩
    rw [List.append_assoc, List.append_assoc]
    exact hvalue.trans (by rw [hparse]; rfl)

/-- What a message has in front of its options. -/
def DHCP6.headerLen (msgType : UInt8) : Nat :=
  if isRelay msgType then DHCP6_RELAY_LEN else DHCP6_NORMAL_LEN

/-- What the header of another kind of message has is neutral. -/
def DHCP6.Neutral (m : DHCP6) : Prop :=
  if isRelay m.msgType then m.transactionId.value = 0
  else m.transactionId.value ≤ 0xffffff ∧ m.hopCount = 0 ∧ m.linkAddress = Slot.zero 16 ∧
    m.peerAddress = Slot.zero 16

/-- The header as it is written. -/
def DHCP6.front (m : DHCP6) : Bytes :=
  if isRelay m.msgType then
    [m.msgType, m.hopCount] ++ (m.linkAddress.bytes ++ m.peerAddress.bytes)
  else [m.msgType] ++ BigEndian.ofNat 3 m.transactionId.value

theorem DHCP6.length_front (m : DHCP6) : m.front.length = headerLen m.msgType := by
  rw [front, headerLen]
  split
  · simp [DHCP6_RELAY_LEN]
  · simp [DHCP6_NORMAL_LEN]

theorem DHCP6.front_cons (m : DHCP6) : ∃ rest, m.front = m.msgType :: rest := by
  rw [front]
  split
  · exact ⟨_, rfl⟩
  · exact ⟨_, rfl⟩

theorem DHCP6.parse_eq_some_iff {s : Bytes} {m : DHCP6} :
    DHCP6.parse s = some m ↔
      m.Neutral ∧ ∃ rest, parseOptions6 rest = some m.options ∧ s = m.front ++ rest := by
  constructor
  · intro h
    obtain ⟨⟨msgType, t⟩, hmsg, hbody⟩ := Option.bind_eq_some_iff.mp h
    obtain rfl := readByte_eq_some_iff.mp hmsg
    dsimp only at hbody
    split at hbody
    · next hrelay =>
        obtain ⟨⟨hopCount, t⟩, hhop, hbody⟩ := Option.bind_eq_some_iff.mp hbody
        obtain ⟨⟨linkAddress, t⟩, hlink, hbody⟩ := Option.bind_eq_some_iff.mp hbody
        obtain ⟨⟨peerAddress, t⟩, hpeer, hbody⟩ := Option.bind_eq_some_iff.mp hbody
        obtain ⟨options, hoptions, hbody⟩ := Option.bind_eq_some_iff.mp hbody
        obtain rfl := Option.some.inj hbody
        refine ⟨by rw [Neutral, if_pos hrelay], t, hoptions, ?_⟩
        obtain rfl := readByte_eq_some_iff.mp hhop
        obtain rfl := readSlot_eq_some_iff.mp hlink
        obtain rfl := readSlot_eq_some_iff.mp hpeer
        rw [front, if_pos hrelay]
        simp
    · next hrelay =>
        obtain ⟨⟨transactionId, t⟩, hid, hbody⟩ := Option.bind_eq_some_iff.mp hbody
        obtain ⟨options, hoptions, hbody⟩ := Option.bind_eq_some_iff.mp hbody
        obtain rfl := Option.some.inj hbody
        refine ⟨?_, t, hoptions, ?_⟩
        · rw [Neutral, if_neg hrelay]
          exact ⟨Nat.le_of_lt_succ transactionId.fits, rfl, rfl, rfl⟩
        · rw [readWord_eq_some_iff.mp hid, front, if_neg hrelay]
          rfl
  · rintro ⟨hneutral, rest, hoptions, rfl⟩
    obtain ⟨msgType, transactionId, hopCount, linkAddress, peerAddress, options⟩ := m
    rw [Neutral] at hneutral
    rw [front]
    split at hneutral
    · next hrelay =>
        obtain rfl : transactionId = ⟨0, by decide⟩ := by
          cases transactionId
          congr
        rw [if_pos hrelay, DHCP6.parse]
        dsimp only [Option.bind_eq_bind, List.cons_append, List.nil_append]
        rw [readByte_bind]
        dsimp only
        rw [if_pos hrelay, readByte_bind]
        dsimp only
        rw [List.append_assoc, readSlot_bind]
        dsimp only
        rw [readSlot_bind]
        dsimp only
        rw [hoptions]
        rfl
    · next hrelay =>
        obtain ⟨hid, rfl, rfl, rfl⟩ := hneutral
        have hread := readWord_bytes (⟨transactionId.value, Nat.lt_succ_of_le hid⟩ : Word 3) rest
        rw [if_neg hrelay, DHCP6.parse]
        dsimp only [Option.bind_eq_bind, List.cons_append, List.nil_append]
        rw [readByte_bind]
        dsimp only
        rw [if_neg hrelay]
        refine Option.bind_eq_some_iff.mpr ⟨_, hread, ?_⟩
        dsimp only
        rw [hoptions]
        rfl

theorem DHCP6.write_of_neutral {m : DHCP6} (hneutral : m.Neutral) {wire : Bytes}
    (hwire : writeOptions6 m.options = some wire) : m.write = some (m.front ++ wire) := by
  rw [Neutral] at hneutral
  rw [DHCP6.write, front]
  split at hneutral
  · next hrelay =>
      rw [if_pos hrelay, if_pos hrelay, hwire, Option.map_some]
      simp
  · next hrelay =>
      rw [if_neg hrelay, if_neg hrelay, if_neg (Nat.not_lt.mpr hneutral.1), hwire, Option.map_some]
      simp

theorem DHCP6.write_parse {s : Bytes} {m : DHCP6} (h : DHCP6.parse s = some m) :
    m.write = some s := by
  obtain ⟨hneutral, rest, hoptions, rfl⟩ := DHCP6.parse_eq_some_iff.mp h
  exact write_of_neutral hneutral (parseOptions6_sound hoptions)

/-- Options that can be written, in a message of one kind. -/
structure DHCP6.Held (m : DHCP6) : Prop where
  neutral : m.Neutral
  options : ∀ o ∈ m.options, o.data.length ≤ 65535

theorem DHCP6.parse_write {m : DHCP6} (h : m.Held) :
    ∃ s, m.write = some s ∧ DHCP6.parse s = some m := by
  obtain ⟨wire, hwire, hparse⟩ := parseOptions6_write h.options
  exact ⟨m.front ++ wire, write_of_neutral h.neutral hwire,
    DHCP6.parse_eq_some_iff.mpr ⟨h.neutral, wire, hparse, rfl⟩⟩

theorem DHCP6.exists_front {s : Bytes} (h : headerLen (s.headD 0) ≤ s.length)
    (options : List DHCP6Option) :
    ∃ m rest, DHCP6.Neutral m ∧ s = m.front ++ rest ∧ m.options = options := by
  cases s with
  | nil => exact absurd h (by decide)
  | cons msgType s =>
    rw [List.headD_cons, headerLen, List.length_cons] at h
    split at h
    · next hrelay =>
        rw [DHCP6_RELAY_LEN] at h
        obtain ⟨hopCount, s, rfl⟩ := List.exists_cons_of_length_pos (by omega : 0 < s.length)
        rw [List.length_cons] at h
        obtain ⟨link, s₁, rfl, h₁⟩ := exists_slot 16 (s := s) (by omega)
        obtain ⟨peer, rest, rfl, -⟩ := exists_slot 16 (s := s₁) (by omega)
        refine ⟨⟨msgType, ⟨0, by decide⟩, hopCount, link, peer, options⟩, rest, ?_, ?_, rfl⟩
        · rw [Neutral, if_pos hrelay]
        · rw [front, if_pos hrelay]
          simp
    · next hrelay =>
        rw [DHCP6_NORMAL_LEN] at h
        obtain ⟨id, rest, rfl, -⟩ := exists_word 3 (s := s) (by omega)
        refine ⟨⟨msgType, transaction id, 0, Slot.zero 16, Slot.zero 16, options⟩, rest, ?_, ?_,
          rfl⟩
        · rw [Neutral, if_neg hrelay]
          exact ⟨Nat.le_of_lt_succ id.fits, rfl, rfl, rfl⟩
        · rw [front, if_neg hrelay]
          rfl

/-- A short header, or an option that runs off the end. -/
theorem DHCP6.parse_eq_none_iff (s : Bytes) :
    DHCP6.parse s = none ↔ s.length < headerLen (s.headD 0) ∨
      Overruns6 (s.drop (headerLen (s.headD 0))) := by
  constructor
  · intro hnone
    by_contra hwhole
    rw [not_or, Nat.not_lt, ← parseOptions6_eq_none_iff] at hwhole
    obtain ⟨hlong, hoptions⟩ := hwhole
    obtain ⟨options, hfound⟩ := Option.ne_none_iff_exists'.mp hoptions
    obtain ⟨m, rest, hneutral, rfl, rfl⟩ := exists_front hlong options
    obtain ⟨behind, hfront⟩ := m.front_cons
    have hhead : (m.front ++ rest).headD 0 = m.msgType := by rw [hfront]; rfl
    rw [hhead, List.drop_left' m.length_front] at hfound
    have hsome := DHCP6.parse_eq_some_iff.mpr ⟨hneutral, rest, hfound, rfl⟩
    rw [hnone] at hsome
    cases hsome
  · intro hbad
    by_contra hsome
    obtain ⟨m, hm⟩ := Option.ne_none_iff_exists'.mp hsome
    obtain ⟨-, rest, hoptions, rfl⟩ := DHCP6.parse_eq_some_iff.mp hm
    obtain ⟨behind, hfront⟩ := m.front_cons
    have hhead : (m.front ++ rest).headD 0 = m.msgType := by rw [hfront]; rfl
    have hlen := m.length_front
    rw [hhead, List.drop_left' hlen, List.length_append, hlen, ← parseOptions6_eq_none_iff,
      hoptions] at hbad
    rcases hbad with hshort | hnone
    · omega
    · cases hnone

/-- A message is refused exactly when its header is short or an option overruns it, is written
back as it was parsed, and parsed back as it was held. -/
theorem dhcp_inverse :
    (∀ s : Bytes, (∀ m, DHCP.parse s = some m → m.write = some s) ∧
      (DHCP.parse s = none ↔ s.length < DHCP_FIXED_LEN ∨ Overruns (s.drop DHCP_FIXED_LEN))) ∧
      (∀ m : DHCP, m.Held → ∃ s, m.write = some s ∧ DHCP.parse s = some m) ∧
      (∀ s : Bytes, (∀ m, DHCP6.parse s = some m → m.write = some s) ∧
        (DHCP6.parse s = none ↔ s.length < DHCP6.headerLen (s.headD 0) ∨
          Overruns6 (s.drop (DHCP6.headerLen (s.headD 0))))) ∧
      ∀ m : DHCP6, m.Held → ∃ s, m.write = some s ∧ DHCP6.parse s = some m :=
  ⟨fun s => ⟨fun _ => DHCP.write_parse, DHCP.parse_eq_none_iff s⟩, fun _ => DHCP.parse_write,
    fun s => ⟨fun _ => DHCP6.write_parse, DHCP6.parse_eq_none_iff s⟩, fun _ => DHCP6.parse_write⟩

/-- A request with a PAD, an option, END and data behind it. -/
def request (options : List DHCPOption) (data : Bytes) : DHCP :=
  ⟨1, 1, 6, 0, ⟨0x3903f326, by decide⟩, ⟨0, by decide⟩, ⟨0, by decide⟩, Slot.zero 4, Slot.zero 4,
    Slot.zero 4, Slot.zero 4, [0, 5, 60, 4, 141, 89], [], [], ⟨0x63825363, by decide⟩, options,
    data⟩

def solicit (hopCount : UInt8) : DHCP6 :=
  ⟨1, ⟨0x10aa22, by decide⟩, hopCount, Slot.zero 16, Slot.zero 16, [⟨⟨8, by decide⟩, [0, 0]⟩]⟩

theorem dhcp_inverse_request :
    (∃ s, (request [⟨0, []⟩, ⟨53, [1]⟩, ⟨255, []⟩] [7]).write = some s ∧
      DHCP.parse s = some (request [⟨0, []⟩, ⟨53, [1]⟩, ⟨255, []⟩] [7])) ∧
      ∃ s, (solicit 0).write = some s ∧ DHCP6.parse s = some (solicit 0) := by
  obtain ⟨-, h4, -, h6⟩ := dhcp_inverse
  refine ⟨h4 _ ⟨⟨by decide, by decide, by decide, fun _ => ⟨_, rfl, rfl⟩⟩, by decide, by decide,
    by decide⟩, h6 _ ⟨?_, by decide⟩⟩
  show 0x10aa22 ≤ 0xffffff ∧ _
  exact ⟨by decide, rfl, rfl, rfl⟩

/-- The data of a PAD is not written, nor is the hop count of a message that is not relayed. -/
theorem not_dhcp_inverse :
    (¬∀ m : DHCP, (∀ o ∈ m.options, o.data.length ≤ 255) →
      (∀ o ∈ m.options.dropLast, o.code ≠ DHCP_OPT_END) →
      (m.data ≠ [] → ∃ o, m.options.getLast? = some o ∧ o.code = DHCP_OPT_END) →
      m.chaddr.length ≤ DHCP_CHADDR_LEN ∧ m.chaddr.getLast? ≠ some 0 →
      m.sname.length ≤ DHCP_SNAME_LEN ∧ m.sname.getLast? ≠ some 0 →
      m.file.length ≤ DHCP_FILE_LEN ∧ m.file.getLast? ≠ some 0 →
        ∃ s, m.write = some s ∧ DHCP.parse s = some m) ∧
      ¬∀ m : DHCP6, (∀ o ∈ m.options, o.data.length ≤ 65535) →
        ∃ s, m.write = some s ∧ DHCP6.parse s = some m := by
  constructor
  · intro h
    obtain ⟨s, hwrite, hparse⟩ := h (request [⟨0, [1]⟩] []) (by decide) (by decide) (by decide)
      (by decide) (by decide) (by decide)
    obtain ⟨chaddr, sname, file, rest, -, hoptions, hs⟩ := DHCP.parse_eq_some_iff.mp hparse
    have hwritten : s = (request [⟨0, [1]⟩] []).header ++ [0] := (Option.some.inj hwrite).symm
    have hrest : rest = s.drop DHCP_FIXED_LEN := by
      rw [hs, List.drop_left' (DHCP.length_front _ chaddr sname file)]
    have hpad : parseOptions rest = some ([⟨0, []⟩], []) := by
      rw [hrest, hwritten]
      exact (parseOptions_pad []).trans (by rw [parseOptions]; rfl)
    rw [hpad] at hoptions
    exact absurd hoptions (by decide)
  · intro h
    obtain ⟨s, -, hparse⟩ := h (solicit 1) (by decide)
    obtain ⟨hneutral, -⟩ := DHCP6.parse_eq_some_iff.mp hparse
    have hhop : (1 : UInt8) = 0 := (show _ ∧ (1 : UInt8) = 0 ∧ _ from hneutral).2.1
    exact absurd hhop (by decide)

end Packets.Protos
