/-
The bit-field properties of TCP, IP, IP6, MPLS, Ethernet tags and IGMP over runs.

An assignment is careful when it clears no flag beside other set bits, and TCP options leave
nothing over from the ones before.
-/
import Packets.Inet.HeaderFields

namespace Packets.Inet

/-- A TCP header whose flags word is a short. -/
abbrev TcpObject := { h : TCPHeader // h.offFlags < 2 ^ 16 }

def TcpObject.offFlags : WordLens TcpObject 16 where
  get h := BitVec.ofNat 16 h.1.offFlags
  put v h := ⟨{ h.1 with offFlags := v.toNat }, v.isLt⟩
  get_put v _ := BitVec.ofNat_toNat 16 v ▸ BitVec.setWidth_eq v
  put_get h := by
    apply Subtype.ext
    show { h.1 with offFlags := (BitVec.ofNat 16 h.1.offFlags).toNat } = h.1
    rw [BitVec.toNat_ofNat, Nat.mod_eq_of_lt h.2]

abbrev IpObject := { h : IPHeader // h.versionIphl < 2 ^ 8 ∧ h.flagsOffset < 2 ^ 16 }

def IpObject.versionIphl : WordLens IpObject 8 where
  get h := BitVec.ofNat 8 h.1.versionIphl
  put v h := ⟨{ h.1 with versionIphl := v.toNat }, v.isLt, h.2.2⟩
  get_put v _ := BitVec.ofNat_toNat 8 v ▸ BitVec.setWidth_eq v
  put_get h := by
    apply Subtype.ext
    show { h.1 with versionIphl := (BitVec.ofNat 8 h.1.versionIphl).toNat } = h.1
    rw [BitVec.toNat_ofNat, Nat.mod_eq_of_lt h.2.1]

def IpObject.flagsOffset : WordLens IpObject 16 where
  get h := BitVec.ofNat 16 h.1.flagsOffset
  put v h := ⟨{ h.1 with flagsOffset := v.toNat }, h.2.1, v.isLt⟩
  get_put v _ := BitVec.ofNat_toNat 16 v ▸ BitVec.setWidth_eq v
  put_get h := by
    apply Subtype.ext
    show { h.1 with flagsOffset := (BitVec.ofNat 16 h.1.flagsOffset).toNat } = h.1
    rw [BitVec.toNat_ofNat, Nat.mod_eq_of_lt h.2.2]

abbrev Ip6Object := { h : IP6Header // h.vTcFlow < 2 ^ 32 }

def Ip6Object.vTcFlow : WordLens Ip6Object 32 where
  get h := BitVec.ofNat 32 h.1.vTcFlow
  put v h := ⟨{ h.1 with vTcFlow := v.toNat }, v.isLt⟩
  get_put v _ := BitVec.ofNat_toNat 32 v ▸ BitVec.setWidth_eq v
  put_get h := by
    apply Subtype.ext
    show { h.1 with vTcFlow := (BitVec.ofNat 32 h.1.vTcFlow).toNat } = h.1
    rw [BitVec.toNat_ofNat, Nat.mod_eq_of_lt h.2]

/-- The word of an MPLS label is all there is of it. -/
def mplsData : WordLens (BitVec 32) 32 where
  get v := v
  put v _ := v
  get_put _ _ := rfl
  put_get _ := rfl

/-- An Ethernet header that has a tag. -/
structure TaggedEthernet where
  header : EthernetHeader
  tci : BitVec 16
  tagged : header.tag = some tci.toNat
  dst : header.dstMac.length = 6
  src : header.srcMac.length = 6

def TaggedEthernet.tciWord : WordLens TaggedEthernet 16 where
  get h := h.tci
  put v h := ⟨{ h.header with tag := some v.toNat }, v, rfl, h.dst, h.src⟩
  get_put _ _ := rfl
  put_get h := by
    obtain ⟨header, tci, tagged, dst, src⟩ := h
    simp only [TaggedEthernet.mk.injEq, and_true]
    rw [← tagged]

/-- A query of version 3, which is what has the S bit and the QRV. -/
structure IgmpQuery where
  message : IGMP
  address : Bytes
  version : message.version = 3
  query : message.type = IGMP_MEMBER_QUERY
  group : message.groupAddress = some address
  length : address.length = 4
  fits : message.sQrv < 2 ^ 8

def IgmpQuery.sQrv : WordLens IgmpQuery 8 where
  get q := BitVec.ofNat 8 q.message.sQrv
  put v q :=
    ⟨{ q.message with sQrv := v.toNat }, q.address, q.version, q.query, q.group, q.length, v.isLt⟩
  get_put v _ := BitVec.ofNat_toNat 8 v ▸ BitVec.setWidth_eq v
  put_get q := by
    obtain ⟨message, address, version, query, group, length, fits⟩ := q
    simp only [IgmpQuery.mk.injEq, and_true]
    show { message with sQrv := (BitVec.ofNat 8 message.sQrv).toNat } = message
    rw [BitVec.toNat_ofNat, Nat.mod_eq_of_lt fits]

inductive TcpField where
  | dataOffset | flagNs | flagCwr | flagEce | flagUrg | flagAck | flagPsh | flagRst | flagSyn
  | flagFin
deriving DecidableEq

namespace TcpField

def property : TcpField → BitProperty 16
  | dataOffset => TCP.dataOffset
  | flagNs => TCP.flagNs
  | flagCwr => TCP.flagCwr
  | flagEce => TCP.flagEce
  | flagUrg => TCP.flagUrg
  | flagAck => TCP.flagAck
  | flagPsh => TCP.flagPsh
  | flagRst => TCP.flagRst
  | flagSyn => TCP.flagSyn
  | flagFin => TCP.flagFin

/-- Where the header has the field, in the word behind the acknowledgment number. -/
def place : TcpField → BitField
  | dataOffset => ⟨12, 4⟩
  | flagNs => BitField.bit 8
  | flagCwr => BitField.bit 7
  | flagEce => BitField.bit 6
  | flagUrg => BitField.bit 5
  | flagAck => BitField.bit 4
  | flagPsh => BitField.bit 3
  | flagRst => BitField.bit 2
  | flagSyn => BitField.bit 1
  | flagFin => BitField.bit 0

def careful : TcpField → Int → BitVec 16 → Prop
  | dataOffset, _, _ => True
  | f, val, v => BitProperty.flagCareful (~~~(1#16 <<< f.place.offset)) f.place.offset val v

theorem property_at (f : TcpField) : f.property.At f.place f.careful := by
  cases f
  case dataOffset => exact TCP.dataOffset_at
  all_goals exact BitProperty.flag_at (by decide)

theorem place_apart (f g : TcpField) (h : f ≠ g) : f.place.Apart g.place := by
  cases f <;> cases g <;> first | exact absurd rfl h | decide

theorem family : BitProperty.Family property careful :=
  BitProperty.Family.of_at property_at place_apart

end TcpField

inductive TcpAssign where
  | field (f : TcpField) (val : Int)
  | options (val : Bytes)
deriving DecidableEq

namespace TcpObject

def get (h : TcpObject) (f : TcpField) : Nat := f.property.get (offFlags.get h)

def set (f : TcpField) (val : Int) (h : TcpObject) : Outcome TcpObject :=
  let o := f.property.set val (offFlags.get h)
  ⟨o.raised, offFlags.put o.state h⟩

def withPad (pad : Bytes) (h : TcpObject) : TcpObject := ⟨{ h.1 with pad := pad }, h.2⟩

def withOptions (options : Bytes) (h : TcpObject) : TcpObject :=
  ⟨{ h.1 with options := options }, h.2⟩

/-- The setter of `options`.  The data offset is set for the whole words, the padding is
kept, and the data offset is set again for it. -/
def setOptions (val : Bytes) (h : TcpObject) : Outcome TcpObject :=
  let padMod := val.length % 4
  let first := h.set .dataOffset (5 + val.length / 4 : Nat)
  if first.raised then first
  else
    let h := first.state
    if padMod ≠ 0 then
      let h := h.withPad (List.replicate (4 - padMod) 0)
      let second := h.set .dataOffset (h.get .dataOffset + 1 : Nat)
      if second.raised then second else ⟨false, second.state.withOptions val⟩
    else ⟨false, h.withOptions val⟩

end TcpObject

/-- The properties of a TCP header, and its options. -/
def tcpLayer : FieldLayer TcpObject TcpAssign ((TcpField → Nat) × Bytes) where
  view h := (h.get, h.1.options)
  assign a h :=
    match a with
    | .field f val => h.set f val
    | .options val => h.setOptions val
  meaning a v :=
    match a with
    | .field f val => (Function.update v.1 f val.toNat, v.2)
    | .options val => (Function.update v.1 .dataOffset (5 + (val.length + 3) / 4), val)
  carries h := ∀ csum payload,
    (∀ f, fieldInBytes (TcpField.place f) 12 2 (Layer.pkt2net false csum (.tcp h.1 payload)) =
      h.get f) ∧
    ((Layer.pkt2net false csum (.tcp h.1 payload)).drop 20).take h.1.options.length = h.1.options
  after a h :=
    match a with
    | .field _ _ => True
    | .options _ => ∀ checksum, (h.1.bytes checksum).length = 4 * h.get .dataOffset
  careful a h :=
    match a with
    | .field f val => f.careful val (TcpObject.offFlags.get h)
    | .options val => (val.length % 4 = 0 → h.1.pad = []) ∧ ¬ (40 < val.length ∧ val.length < 44)

namespace TcpObject

@[simp] theorem pad_set (f : TcpField) (val : Int) (h : TcpObject) :
    (h.set f val).state.1.pad = h.1.pad := rfl

@[simp] theorem pad_withPad (pad : Bytes) (h : TcpObject) : (h.withPad pad).1.pad = pad := rfl

@[simp] theorem get_withPad (pad : Bytes) (h : TcpObject) : (h.withPad pad).get = h.get := rfl

@[simp] theorem pad_withOptions (options : Bytes) (h : TcpObject) :
    (h.withOptions options).1.pad = h.1.pad := rfl

@[simp] theorem options_withOptions (options : Bytes) (h : TcpObject) :
    (h.withOptions options).1.options = options := rfl

@[simp] theorem get_withOptions (options : Bytes) (h : TcpObject) :
    (h.withOptions options).get = h.get := rfl

theorem dataOffset_set {h : TcpObject} {n : Nat} (hn : n ≤ 15) (hmin : 5 ≤ n) :
    (h.set .dataOffset n).raised = false := by
  have hfits : cInt 8 n = some n := by rw [cInt, if_pos ⟨by omega, by omega⟩, Int.toNat_natCast]
  simp [set, TcpField.property, TCP.dataOffset, assigned, hfits, hn, hmin]

theorem dataOffset_set_raises {h : TcpObject} {n : Nat} (hn : 15 < n) :
    h.set .dataOffset n = ⟨true, h⟩ := by
  have hword : TCP.dataOffset.set n (offFlags.get h) = ⟨true, offFlags.get h⟩ := by
    rcases TCP.dataOffset_cases n (offFlags.get h) with hraised | hle
    · exact hraised
    · rw [Int.toNat_natCast] at hle
      omega
  have hset : h.set .dataOffset n = ⟨(TCP.dataOffset.set n (offFlags.get h)).raised,
      offFlags.put (TCP.dataOffset.set n (offFlags.get h)).state h⟩ := rfl
  rw [hset, hword]
  exact congrArg (Outcome.mk true) (offFlags.put_get h)

theorem get_dataOffset_set {h : TcpObject} {n : Nat} (hn : n ≤ 15) (hmin : 5 ≤ n) :
    (h.set .dataOffset n).state.get = Function.update h.get .dataOffset n := by
  have hkeeps : (FieldLayer.ofWord TcpField.property TcpField.careful offFlags
      fun _ => True).Keeps := FieldLayer.ofWord_keeps TcpField.family offFlags fun _ => trivial
  exact hkeeps.reads (.dataOffset, (n : Int)) h trivial (dataOffset_set hn hmin)

/-- How an assignment of options ends. -/
inductive OptionsEnd (val : Bytes) (h : TcpObject) : Outcome TcpObject → Prop
  | tooLong (hlen : 40 < val.length) (hfar : 44 ≤ val.length) : OptionsEnd val h ⟨true, h⟩
  | broken (o : Outcome TcpObject) (hlen : 40 < val.length) (hnear : val.length < 44) :
    OptionsEnd val h o
  | whole (h' : TcpObject) (hmod : val.length % 4 = 0) (hpad : h'.1.pad = h.1.pad)
    (hget : h'.get = Function.update h.get .dataOffset (5 + val.length / 4))
    (hoptions : h'.1.options = val) : OptionsEnd val h ⟨false, h'⟩
  | padded (h' : TcpObject) (hmod : val.length % 4 ≠ 0)
    (hpad : h'.1.pad = List.replicate (4 - val.length % 4) 0)
    (hget : h'.get = Function.update h.get .dataOffset (5 + val.length / 4 + 1))
    (hoptions : h'.1.options = val) : OptionsEnd val h ⟨false, h'⟩

theorem setOptions_end (val : Bytes) (h : TcpObject) : OptionsEnd val h (h.setOptions val) := by
  by_cases hlong : 15 < 5 + val.length / 4
  · have hset : h.setOptions val = ⟨true, h⟩ := by
      simp only [setOptions, dataOffset_set_raises hlong, if_true]
    rw [hset]
    exact .tooLong (by omega) (by omega)
  · have hmin : 5 ≤ 5 + val.length / 4 := Nat.le_add_right 5 _
    have hfirst := dataOffset_set (h := h) (Nat.le_of_not_lt hlong) hmin
    have hget := get_dataOffset_set (h := h) (Nat.le_of_not_lt hlong) hmin
    by_cases hmod : val.length % 4 = 0
    · have hset : h.setOptions val =
          ⟨false, (h.set .dataOffset (5 + val.length / 4 : Nat)).state.withOptions val⟩ := by
        rw [setOptions, hfirst, if_neg Bool.false_ne_true, if_neg (not_not_intro hmod)]
      rw [hset]
      exact .whole _ hmod (by rw [pad_withOptions, pad_set]) (by rw [get_withOptions, hget])
        (options_withOptions ..)
    · by_cases hlast : 15 < 5 + val.length / 4 + 1
      · exact .broken _ (by omega) (by omega)
      · obtain ⟨h₁, hh₁⟩ : ∃ h₁, h₁ = (h.set .dataOffset (5 + val.length / 4 : Nat)).state.withPad
            (List.replicate (4 - val.length % 4) 0) := ⟨_, rfl⟩
        have hpad₁ : h₁.1.pad = List.replicate (4 - val.length % 4) 0 := by rw [hh₁, pad_withPad]
        have hget₁ : h₁.get = Function.update h.get .dataOffset (5 + val.length / 4) := by
          rw [hh₁, get_withPad, hget]
        have hread : h₁.get .dataOffset = 5 + val.length / 4 := by rw [hget₁, Function.update_self]
        have hsecond := dataOffset_set (h := h₁) (Nat.le_of_not_lt hlast) (by omega)
        have hget₂ := get_dataOffset_set (h := h₁) (Nat.le_of_not_lt hlast) (by omega)
        rw [hget₁, Function.update_idem] at hget₂
        have hset : h.setOptions val =
            ⟨false, (h₁.set .dataOffset (5 + val.length / 4 + 1 : Nat)).state.withOptions val⟩ := by
          rw [setOptions, hfirst, if_neg Bool.false_ne_true, if_pos hmod, ← hh₁]
          dsimp only
          rw [hread, hsecond, if_neg Bool.false_ne_true]
        rw [hset]
        exact .padded _ hmod (by rw [pad_withOptions, pad_set, hpad₁])
          (by rw [get_withOptions, hget₂]) (options_withOptions ..)

variable {val : Bytes} {h : TcpObject} {o : Outcome TcpObject}

theorem OptionsEnd.raises (hend : OptionsEnd val h o)
    (hnot : ¬ (40 < val.length ∧ val.length < 44)) (hraised : o.raised = true) : o.state = h := by
  cases hend with
  | tooLong _ _ => rfl
  | broken _ hlen hnear => exact absurd ⟨hlen, hnear⟩ hnot
  | whole _ _ _ _ _ => cases hraised
  | padded _ _ _ _ _ => cases hraised

theorem OptionsEnd.reads (hend : OptionsEnd val h o)
    (hnot : ¬ (40 < val.length ∧ val.length < 44)) (hok : o.raised = false) :
    o.state.get = Function.update h.get .dataOffset (5 + (val.length + 3) / 4) ∧
      o.state.1.options = val := by
  cases hend with
  | tooLong _ _ => cases hok
  | broken _ hlen hnear => exact absurd ⟨hlen, hnear⟩ hnot
  | whole h' hmod _ hget hoptions =>
    have hwords : 5 + (val.length + 3) / 4 = 5 + val.length / 4 := by omega
    rw [hwords]
    exact ⟨hget, hoptions⟩
  | padded h' hmod _ hget hoptions =>
    have hwords : 5 + (val.length + 3) / 4 = 5 + val.length / 4 + 1 := by omega
    rw [hwords]
    exact ⟨hget, hoptions⟩

/-- With no padding left over, the header has as many words as the data offset says. -/
theorem OptionsEnd.length (hend : OptionsEnd val h o)
    (hnot : ¬ (40 < val.length ∧ val.length < 44)) (hold : val.length % 4 = 0 → h.1.pad = [])
    (hok : o.raised = false) (checksum : Nat) :
    (o.state.1.bytes checksum).length = 4 * o.state.get .dataOffset := by
  have hread := (hend.reads hnot hok).1
  rw [hread, Function.update_self]
  cases hend with
  | tooLong _ _ => cases hok
  | broken _ hlen hnear => exact absurd ⟨hlen, hnear⟩ hnot
  | whole h' hmod hpad _ hoptions =>
    simp only [TCPHeader.bytes, hoptions, hpad, hold hmod, List.length_append,
      BigEndian.length_ofNat, List.length_nil]
    omega
  | padded h' hmod hpad _ hoptions =>
    simp only [TCPHeader.bytes, hoptions, hpad, List.length_append, BigEndian.length_ofNat,
      List.length_replicate]
    omega

end TcpObject

/-- A TCP segment as it is written, cut at the flags word and at the options. -/
theorem tcp_written (csum : Bool) (h : TCPHeader) (payload : Layer) :
    ∃ before middle rest : Bytes, before.length = 12 ∧ middle.length = 6 ∧
      Layer.pkt2net false csum (.tcp h payload) =
        before ++ (BigEndian.ofNat 2 h.offFlags ++ (middle ++ (h.options ++ rest))) := by
  let k : Keywords := { update := false, csum := csum }
  let body := payload.write k
  let length := ((h.bytes 0).length + body.length) % 65536
  let checksum :=
    if csum then cksumFin (cksumAcc (h.bytes 0 ++ body) (cksumAcc (k.pheader length) 0))
    else h.checksum
  refine ⟨BigEndian.ofNat 2 h.sport ++ BigEndian.ofNat 2 h.dport ++
      BigEndian.ofNat 4 h.sequence ++ BigEndian.ofNat 4 h.acknowledgment,
    BigEndian.ofNat 2 h.window ++ BigEndian.ofNat 2 checksum ++ BigEndian.ofNat 2 h.urgPtr,
    h.pad ++ body, by simp, by simp, ?_⟩
  have hwrite : Layer.pkt2net false csum (.tcp h payload) = h.bytes checksum ++ body := rfl
  rw [hwrite, TCPHeader.bytes]
  simp only [List.append_assoc]

theorem tcpLayer_view (h : TcpObject) : tcpLayer.view h = (h.get, h.1.options) := rfl

theorem tcpLayer_assign_options (val : Bytes) (h : TcpObject) :
    tcpLayer.assign (.options val) h = h.setOptions val := by
  simp only [tcpLayer]

theorem tcpLayer_after_options (val : Bytes) (h : TcpObject) :
    tcpLayer.after (.options val) h ↔
      ∀ checksum, (h.1.bytes checksum).length = 4 * h.get .dataOffset := by
  simp only [tcpLayer]

theorem tcpLayer_keeps : tcpLayer.Keeps where
  raises a h hcareful hraised := by
    cases a with
    | field f val =>
      show TcpObject.offFlags.put (f.property.set val (TcpObject.offFlags.get h)).state h = h
      rw [TcpField.family.raises f val _ hraised, TcpObject.offFlags.put_get]
    | options val =>
      rw [tcpLayer_assign_options] at hraised ⊢
      exact (h.setOptions_end val).raises hcareful.2 hraised
  reads a h hcareful hok := by
    cases a with
    | field f val =>
      have hreads := TcpField.family.reads f val (TcpObject.offFlags.get h) hok hcareful
      rw [← TcpObject.offFlags.get_put (f.property.set val (TcpObject.offFlags.get h)).state h]
        at hreads
      exact Prod.ext hreads rfl
    | options val =>
      rw [tcpLayer_assign_options] at hok ⊢
      obtain ⟨hget, hoptions⟩ := (h.setOptions_end val).reads hcareful.2 hok
      rw [tcpLayer_view, hget, hoptions]
      rfl
  after a h hcareful hok := by
    cases a with
    | field f val => trivial
    | options val =>
      rw [tcpLayer_assign_options] at hok ⊢
      rw [tcpLayer_after_options]
      exact (h.setOptions_end val).length hcareful.2 hcareful.1 hok
  carries h := by
    intro csum payload
    obtain ⟨before, middle, rest, hbefore, hmiddle, hwritten⟩ := tcp_written csum h.1 payload
    rw [hwritten]
    constructor
    · intro f
      rw [fieldInBytes_append hbefore]
      exact ((TcpField.property_at f).get _).symm
    · have hcut : before ++ (BigEndian.ofNat 2 h.1.offFlags ++ (middle ++ (h.1.options ++ rest))) =
          (before ++ BigEndian.ofNat 2 h.1.offFlags ++ middle) ++ (h.1.options ++ rest) := by
        simp only [List.append_assoc]
      have hlen : (before ++ BigEndian.ofNat 2 h.1.offFlags ++ middle).length = 20 := by
        simp [hbefore, hmiddle]
      rw [hcut, List.drop_left' hlen, List.take_left]

inductive IpVersionField where
  | version | iphl
deriving DecidableEq

inductive IpFlagField where
  | flagX | flagD | flagM | fragOffset
deriving DecidableEq

namespace IpVersionField

def property : IpVersionField → BitProperty 8
  | version => IP.version
  | iphl => IP.iphl

def place : IpVersionField → BitField
  | version => ⟨4, 4⟩
  | iphl => ⟨0, 4⟩

def careful (_ : IpVersionField) (_ : Int) (_ : BitVec 8) : Prop := True

theorem property_at (f : IpVersionField) : f.property.At f.place f.careful := by
  cases f
  · exact IP.version_at
  · exact IP.iphl_at

theorem family : BitProperty.Family property careful :=
  BitProperty.Family.of_at property_at fun f g h => by
    cases f <;> cases g <;> first | exact absurd rfl h | decide

end IpVersionField

namespace IpFlagField

def property : IpFlagField → BitProperty 16
  | flagX => IP.flagX
  | flagD => IP.flagD
  | flagM => IP.flagM
  | fragOffset => IP.fragOffset

def place : IpFlagField → BitField
  | flagX => BitField.bit 15
  | flagD => BitField.bit 14
  | flagM => BitField.bit 13
  | fragOffset => ⟨0, 13⟩

def careful : IpFlagField → Int → BitVec 16 → Prop
  | fragOffset, _, _ => True
  | f, val, v => BitProperty.flagCareful (~~~(1#16 <<< f.place.offset)) f.place.offset val v

theorem property_at (f : IpFlagField) : f.property.At f.place f.careful := by
  cases f
  case fragOffset => exact IP.fragOffset_at
  all_goals exact BitProperty.flag_at (by decide)

theorem family : BitProperty.Family property careful :=
  BitProperty.Family.of_at property_at fun f g h => by
    cases f <;> cases g <;> first | exact absurd rfl h | decide

end IpFlagField

def ipVersionLayer : FieldLayer IpObject (IpVersionField × Int) (IpVersionField → Nat) :=
  .ofWord IpVersionField.property IpVersionField.careful IpObject.versionIphl fun h =>
    ∀ csum payload trailer (f : IpVersionField),
      fieldInBytes f.place 0 1 (Layer.pkt2net false csum (.ip h.1 payload trailer)) =
        f.property.get (IpObject.versionIphl.get h)

def ipFlagLayer : FieldLayer IpObject (IpFlagField × Int) (IpFlagField → Nat) :=
  .ofWord IpFlagField.property IpFlagField.careful IpObject.flagsOffset fun h =>
    ∀ csum payload trailer (f : IpFlagField),
      fieldInBytes f.place 6 2 (Layer.pkt2net false csum (.ip h.1 payload trailer)) =
        f.property.get (IpObject.flagsOffset.get h)

/-- The two words of an IP header. -/
def ipLayer := ipVersionLayer.both ipFlagLayer

/-- A datagram as it is written, cut at its two words. -/
theorem ip_written (csum : Bool) (h : IPHeader) (payload : Layer) (trailer : Bytes) :
    ∃ middle rest : Bytes, middle.length = 5 ∧
      Layer.pkt2net false csum (.ip h payload trailer) =
        BigEndian.ofNat 1 h.versionIphl ++ (middle ++ (BigEndian.ofNat 2 h.flagsOffset ++ rest)) := by
  let k : Keywords := { update := false, csum := csum }
  let body := payload.write { k with ipv4Pheader := some ⟨h.src, h.dst, h.proto⟩ }
  let header := h.bytes h.versionIphl h.totalLen
  let checksum := if csum then cksumFin (cksumAcc (header 0) 0) else h.checksum
  refine ⟨BigEndian.ofNat 1 h.tos ++ BigEndian.ofNat 2 h.totalLen ++ BigEndian.ofNat 2 h.ident,
    BigEndian.ofNat 1 h.ttl ++ BigEndian.ofNat 1 h.proto ++ BigEndian.ofNat 2 checksum ++ h.src ++
      h.dst ++ h.options ++ body ++ trailer, by simp, ?_⟩
  have hwrite : Layer.pkt2net false csum (.ip h payload trailer) =
      header checksum ++ body ++ trailer := by
    cases csum <;> rfl
  rw [hwrite]
  simp only [header, IPHeader.bytes, List.append_assoc]

theorem ipLayer_keeps : ipLayer.Keeps := by
  refine FieldLayer.Keeps.both ?_ ?_ (fun _ _ => rfl) (fun _ _ => rfl)
  · refine FieldLayer.ofWord_keeps IpVersionField.family _ ?_
    intro h csum payload trailer f
    obtain ⟨middle, rest, _, hwritten⟩ := ip_written csum h.1 payload trailer
    rw [hwritten]
    have hread := fieldInBytes_append List.length_nil f.place (middle ++
      (BigEndian.ofNat 2 h.1.flagsOffset ++ rest)) 1 h.1.versionIphl
    exact hread.trans ((IpVersionField.property_at f).get _).symm
  · refine FieldLayer.ofWord_keeps IpFlagField.family _ ?_
    intro h csum payload trailer f
    obtain ⟨middle, rest, hmiddle, hwritten⟩ := ip_written csum h.1 payload trailer
    rw [hwritten, ← List.append_assoc]
    have hlen : (BigEndian.ofNat 1 h.1.versionIphl ++ middle).length = 6 := by simp [hmiddle]
    rw [fieldInBytes_append hlen]
    exact ((IpFlagField.property_at f).get _).symm

inductive Ip6Field where
  | version | trafficClass | flowLabel
deriving DecidableEq

namespace Ip6Field

def property : Ip6Field → BitProperty 32
  | version => IP6.version
  | trafficClass => IP6.trafficClass
  | flowLabel => IP6.flowLabel

def place : Ip6Field → BitField
  | version => ⟨28, 4⟩
  | trafficClass => ⟨20, 8⟩
  | flowLabel => ⟨0, 20⟩

def careful (_ : Ip6Field) (_ : Int) (_ : BitVec 32) : Prop := True

theorem property_at (f : Ip6Field) : f.property.At f.place f.careful := by
  cases f
  · exact IP6.version_at
  · exact IP6.trafficClass_at
  · exact IP6.flowLabel_at

theorem family : BitProperty.Family property careful :=
  BitProperty.Family.of_at property_at fun f g h => by
    cases f <;> cases g <;> first | exact absurd rfl h | decide

end Ip6Field

def ip6Layer : FieldLayer Ip6Object (Ip6Field × Int) (Ip6Field → Nat) :=
  .ofWord Ip6Field.property Ip6Field.careful Ip6Object.vTcFlow fun h =>
    ∀ update csum payload trailer (f : Ip6Field),
      fieldInBytes f.place 0 4 (Layer.pkt2net update csum (.ip6 h.1 payload trailer)) =
        f.property.get (Ip6Object.vTcFlow.get h)

theorem ip6Layer_keeps : ip6Layer.Keeps := by
  refine FieldLayer.ofWord_keeps Ip6Field.family _ ?_
  intro h update csum payload trailer f
  obtain ⟨rest, hwritten⟩ : ∃ rest, Layer.pkt2net update csum (.ip6 h.1 payload trailer) =
      [] ++ (BigEndian.ofNat 4 h.1.vTcFlow ++ rest) := by
    simp only [Layer.pkt2net, Layer.write, IP6Header.bytes, List.append_assoc, List.nil_append]
    exact ⟨_, rfl⟩
  rw [hwritten]
  have hread := fieldInBytes_append List.length_nil f.place rest 4 h.1.vTcFlow
  exact hread.trans ((Ip6Field.property_at f).get _).symm

inductive MplsField where
  | label | tc | s | ttl
deriving DecidableEq

namespace MplsField

def property : MplsField → BitProperty 32
  | label => MPLS.label
  | tc => MPLS.tc
  | s => MPLS.s
  | ttl => MPLS.ttl

def place : MplsField → BitField
  | label => ⟨12, 20⟩
  | tc => ⟨9, 3⟩
  | s => BitField.bit 8
  | ttl => ⟨0, 8⟩

def careful : MplsField → Int → BitVec 32 → Prop
  | s, val, v => BitProperty.flagCareful ((~~~(1#16 <<< 8)).setWidth 32) 8 val v
  | _, _, _ => True

theorem property_at (f : MplsField) : f.property.At f.place f.careful := by
  cases f
  · exact MPLS.label_at
  · exact MPLS.tc_at
  · exact MPLS.s_at
  · exact MPLS.ttl_at

theorem family : BitProperty.Family property careful :=
  BitProperty.Family.of_at property_at fun f g h => by
    cases f <;> cases g <;> first | exact absurd rfl h | decide

end MplsField

def mplsLayer : FieldLayer (BitVec 32) (MplsField × Int) (MplsField → Nat) :=
  .ofWord MplsField.property MplsField.careful mplsData fun data =>
    ∀ update csum payload (f : MplsField),
      fieldInBytes f.place 0 4 (Layer.pkt2net update csum (.mpls data.toNat payload)) =
        f.property.get data

theorem mplsLayer_keeps : mplsLayer.Keeps := by
  refine FieldLayer.ofWord_keeps MplsField.family _ ?_
  intro data update csum payload f
  have hread := fieldInBytes_append List.length_nil f.place
    (payload.write { update := update, csum := csum }) 4 data.toNat
  have hword : BitVec.ofNat (8 * 4) data.toNat = data := BitVec.ofNat_toNat 32 data ▸
    BitVec.setWidth_eq data
  rw [hword] at hread
  exact hread.trans ((MplsField.property_at f).get data).symm

inductive TagField where
  | priorityCode | dropEligible | vlanId
deriving DecidableEq

namespace TagField

def property : TagField → BitProperty 16
  | priorityCode => Ethernet.priorityCode
  | dropEligible => Ethernet.dropEligible
  | vlanId => Ethernet.vlanId

def place : TagField → BitField
  | priorityCode => ⟨13, 3⟩
  | dropEligible => BitField.bit 12
  | vlanId => ⟨0, 12⟩

def careful : TagField → Int → BitVec 16 → Prop
  | dropEligible, val, v => BitProperty.flagCareful (~~~(1#16 <<< 12)) 12 val v
  | _, _, _ => True

theorem property_at (f : TagField) : f.property.At f.place f.careful := by
  cases f
  · exact Ethernet.priorityCode_at
  · exact BitProperty.flag_at (by decide)
  · exact Ethernet.vlanId_at

theorem family : BitProperty.Family property careful :=
  BitProperty.Family.of_at property_at fun f g h => by
    cases f <;> cases g <;> first | exact absurd rfl h | decide

end TagField

def tagLayer : FieldLayer TaggedEthernet (TagField × Int) (TagField → Nat) :=
  .ofWord TagField.property TagField.careful TaggedEthernet.tciWord fun h =>
    ∀ update csum payload (f : TagField),
      fieldInBytes f.place 14 2 (Layer.pkt2net update csum (.ethernet h.header payload)) =
        f.property.get h.tci

theorem tagLayer_keeps : tagLayer.Keeps := by
  refine FieldLayer.ofWord_keeps TagField.family _ ?_
  intro h update csum payload f
  let before := h.header.dstMac ++ h.header.srcMac ++ BigEndian.ofNat 2 0x8100
  obtain ⟨rest, hwritten⟩ : ∃ rest, Layer.pkt2net update csum (.ethernet h.header payload) =
      before ++ (BigEndian.ofNat 2 h.tci.toNat ++ rest) := by
    simp only [Layer.pkt2net, Layer.write, EthernetHeader.bytes, h.tagged, Option.elim_some,
      List.append_assoc, before]
    exact ⟨_, rfl⟩
  have hlen : before.length = 14 := by simp [before, h.dst, h.src]
  rw [hwritten, fieldInBytes_append hlen]
  have hword : BitVec.ofNat (8 * 2) h.tci.toNat = h.tci := BitVec.ofNat_toNat 16 h.tci ▸
    BitVec.setWidth_eq h.tci
  rw [hword]
  exact ((TagField.property_at f).get _).symm

inductive IgmpField where
  | s | qrv
deriving DecidableEq

namespace IgmpField

def property : IgmpField → BitProperty 8
  | s => IGMP.s
  | qrv => IGMP.qrv

def place : IgmpField → BitField
  | s => BitField.bit 3
  | qrv => ⟨0, 3⟩

def careful : IgmpField → Int → BitVec 8 → Prop
  | s, val, v => BitProperty.flagCareful (~~~(1#8 <<< 3)) 3 val v
  | qrv, _, _ => True

theorem property_get (f : IgmpField) (v : BitVec 8) : f.property.get v = f.place.get v := by
  cases f with
  | s => exact IGMP.s_at.get v
  | qrv =>
    have hmask : (7#8).toNat = 2 ^ (BitField.mk 0 3).width - 1 := by decide
    have hread := BitProperty.get_shifted ⟨0, 3⟩ v hmask
    rw [BitVec.ushiftRight_zero] at hread
    exact hread

theorem qrv_set_cases (val : Int) (v : BitVec 8) :
    IGMP.qrv.set val v = ⟨true, v⟩ ∨
      (val.toNat ≤ 7 ∧ IGMP.qrv.set val v = ⟨false,
        if (v >>> 3) &&& 1#8 = 1#8 then BitVec.ofNat 8 (val.toNat + 8)
        else BitVec.ofNat 8 val.toNat⟩) := by
  rcases BitProperty.assigned_cases 8 (fun n => n ≤ 7)
    (fun v n => if (v >>> 3) &&& 1#8 = 1#8 then BitVec.ofNat 8 (n + 8) else BitVec.ofNat 8 n)
    val v with hraised | ⟨htakes, _, hset⟩
  · exact Or.inl hraised
  · exact Or.inr ⟨of_decide_eq_true htakes, hset⟩

theorem qrv_byte {n : Nat} (hn : n ≤ 7) (high : Bool) :
    IGMP.qrv.get (if high then BitVec.ofNat 8 (n + 8) else BitVec.ofNat 8 n) = n ∧
      IGMP.s.get (if high then BitVec.ofNat 8 (n + 8) else BitVec.ofNat 8 n) = high.toNat := by
  have hlt : n < 8 := by omega
  have hall : ∀ (n : Fin 8) (high : Bool),
      IGMP.qrv.get (if high then BitVec.ofNat 8 (n + 8) else BitVec.ofNat 8 n) = n ∧
        IGMP.s.get (if high then BitVec.ofNat 8 (n + 8) else BitVec.ofNat 8 n) = high.toNat := by
    decide
  exact hall ⟨n, hlt⟩ high

theorem s_get_of (v : BitVec 8) : IGMP.s.get v = (decide ((v >>> 3) &&& 1#8 = 1#8)).toNat := by
  revert v
  decide

theorem family : BitProperty.Family property careful where
  raises f val v hraised := by
    cases f with
    | s => exact IGMP.s_at.raises val v hraised
    | qrv =>
      rcases qrv_set_cases val v with h | ⟨_, h⟩
      · exact congrArg Outcome.state h
      · change (IGMP.qrv.set val v).raised = true at hraised
        rw [h] at hraised
        cases hraised
  reads f val v hok hcareful := by
    cases f with
    | s =>
      have hset := IGMP.s_at.sets val v hok hcareful
      have hlt := IGMP.s_at.bounded val v hok
      funext f
      rw [property_get]
      show f.place.get (IGMP.s.set val v).state = _
      rw [hset]
      cases f with
      | s => rw [Function.update_self]; exact BitField.get_put (by decide) v hlt
      | qrv =>
        rw [Function.update_of_ne (by decide), property_get]
        exact BitField.get_put_of_apart (by decide) (by decide) v hlt
    | qrv =>
      rcases qrv_set_cases val v with h | ⟨hle, h⟩
      · change (IGMP.qrv.set val v).raised = false at hok
        rw [h] at hok
        cases hok
      · obtain ⟨hqrv, hs⟩ := qrv_byte hle (decide ((v >>> 3) &&& 1#8 = 1#8))
        simp only [decide_eq_true_eq] at hqrv hs
        funext f
        show f.property.get (IGMP.qrv.set val v).state = _
        rw [h]
        cases f with
        | s =>
          rw [Function.update_of_ne (by decide)]
          exact hs.trans (s_get_of v).symm
        | qrv =>
          rw [Function.update_self]
          exact hqrv

end IgmpField

def igmpLayer : FieldLayer IgmpQuery (IgmpField × Int) (IgmpField → Nat) :=
  .ofWord IgmpField.property IgmpField.careful IgmpQuery.sQrv fun q =>
    ∀ csum, ∃ bytes, q.message.write false csum = some bytes ∧ ∀ f : IgmpField,
      fieldInBytes f.place 8 1 bytes = f.property.get (IgmpQuery.sQrv.get q)

theorem igmp_content (q : IgmpQuery) (second numRecords checksum : Nat) :
    ∃ before rest : Bytes, before.length = 8 ∧ q.message.content second numRecords checksum =
      some (before ++ (BigEndian.ofNat 1 q.message.sQrv ++ rest)) := by
  refine ⟨BigEndian.ofNat 1 q.message.type ++ BigEndian.ofNat 1 second ++
      BigEndian.ofNat 2 checksum ++ q.address,
    BigEndian.ofNat 1 q.message.qqic ++ BigEndian.ofNat 2 numRecords ++ q.message.sourceAddresses,
    by simp [q.length], ?_⟩
  rw [IGMP.content, if_pos q.version, if_pos q.query, q.group]
  simp only [Option.map_some, List.append_assoc]

theorem igmpLayer_keeps : igmpLayer.Keeps := by
  refine FieldLayer.ofWord_keeps IgmpField.family _ ?_
  intro q csum
  obtain ⟨second, numRecords, checksum, hwrite⟩ : ∃ second numRecords checksum,
      q.message.write false csum = q.message.content second numRecords checksum := by
    cases csum with
    | false => exact ⟨q.message.second, q.message.numRecords, q.message.checksum, rfl⟩
    | true =>
      obtain ⟨before, rest, _, hsummed⟩ :=
        igmp_content q q.message.summedSecond q.message.numRecords 0
      refine ⟨q.message.second, q.message.numRecords,
        cksumFin (cksumAcc (before ++ (BigEndian.ofNat 1 q.message.sQrv ++ rest)) 0), ?_⟩
      show (q.message.content q.message.summedSecond q.message.numRecords 0 >>= _) = _
      rw [hsummed]
      rfl
  obtain ⟨before, rest, hlen, hcontent⟩ := igmp_content q second numRecords checksum
  refine ⟨_, hwrite.trans hcontent, fun f => ?_⟩
  rw [fieldInBytes_append hlen]
  exact (f.property_get _).symm

inductive HeaderKind where
  | tcp | ip | ip6 | mpls | ethernetTag | igmp
deriving DecidableEq

namespace HeaderKind

abbrev State : HeaderKind → Type
  | tcp => TcpObject
  | ip => IpObject
  | ip6 => Ip6Object
  | mpls => BitVec 32
  | ethernetTag => TaggedEthernet
  | igmp => IgmpQuery

abbrev Assign : HeaderKind → Type
  | tcp => TcpAssign
  | ip => (IpVersionField × Int) ⊕ (IpFlagField × Int)
  | ip6 => Ip6Field × Int
  | mpls => MplsField × Int
  | ethernetTag => TagField × Int
  | igmp => IgmpField × Int

abbrev View : HeaderKind → Type
  | tcp => (TcpField → Nat) × Bytes
  | ip => (IpVersionField → Nat) × (IpFlagField → Nat)
  | ip6 => Ip6Field → Nat
  | mpls => MplsField → Nat
  | ethernetTag => TagField → Nat
  | igmp => IgmpField → Nat

def layer : (kind : HeaderKind) → FieldLayer kind.State kind.Assign kind.View
  | tcp => tcpLayer
  | ip => ipLayer
  | ip6 => ip6Layer
  | mpls => mplsLayer
  | ethernetTag => tagLayer
  | igmp => igmpLayer

theorem layer_keeps (kind : HeaderKind) : kind.layer.Keeps := by
  cases kind
  · exact tcpLayer_keeps
  · exact ipLayer_keeps
  · exact ip6Layer_keeps
  · exact mplsLayer_keeps
  · exact tagLayer_keeps
  · exact igmpLayer_keeps

end HeaderKind

/-- Fields are independent in every run whose assignments are careful. -/
theorem header_fields_independent (kind : HeaderKind) (start : kind.State)
    (steps : List kind.Assign) (h : kind.layer.CarefulRun start steps) :
    kind.layer.Promise start steps :=
  kind.layer_keeps.promise h

/-- The header of an acknowledged SYN. -/
def synAck : TcpObject := ⟨⟨443, 1024, 0, 1, 0x5012, 512, 0, 0, [], [], 20⟩, by decide⟩

theorem header_fields_independent_synAck :
    tcpLayer.Promise synAck [.options [1, 1, 1], .field .flagUrg 1] :=
  header_fields_independent .tcp synAck [.options [1, 1, 1], .field .flagUrg 1]
    ⟨⟨fun _ => rfl, by decide⟩, fun h => absurd h (by decide), trivial⟩

/-- The SYN flag is set to zero beside the ACK flag, and stays.  Options of four bytes after
options of one leave a header that is a word longer than its data offset says. -/
theorem header_fields_kept_flag :
    (tcpLayer.assign (.field .flagSyn 0) synAck).raised = false ∧
      ¬ tcpLayer.Promise synAck [.field .flagSyn 0] ∧
      ¬ tcpLayer.Promise synAck [.options [1], .options [1, 1, 1, 1]] := by
  refine ⟨by decide, fun h => ?_, fun h => ?_⟩
  · have hread := congrArg (fun v => v.1 TcpField.flagSyn) h.reads
    revert hread
    decide
  · have hafter := h.last [.options [1]] (.options [1, 1, 1, 1]) rfl
    have hlength : ((tcpLayer.run synAck [.options [1], .options [1, 1, 1, 1]]).1.bytes 0).length =
        4 * (tcpLayer.run synAck [.options [1], .options [1, 1, 1, 1]]).get .dataOffset :=
      hafter 0
    revert hlength
    decide

end Packets.Inet
