/-
What a DNS message lays out on the wire: names that end in a pointer to an earlier one, and
records whose data may hold more names.

Names are kept twice: all a pointer may point to, and those the parser reads.
-/
import Packets.Lib.Mapped
import Packets.Protos.DnsEnds

namespace Packets.Protos

open BigEndian (ofNat)
open WireFields

structure Label where
  bytes : Bytes
  size : 1 ≤ bytes.length ∧ bytes.length ≤ 63

def Label.wire (l : Label) : Bytes := UInt8.ofNat l.bytes.length :: l.bytes

/-- How a name ends: with the root, or with a pointer. -/
inductive NameTail where
  | root
  | pointer (location : Nat) (fits : location < 0x4000)

def NameTail.bytes : NameTail → Bytes
  | .root => [0]
  | .pointer location _ => ofNat 2 (LABEL + location)

structure WireName where
  labels : List Label
  tail : NameTail

def WireName.bytes (n : WireName) : Bytes := n.labels.flatMap Label.wire ++ n.tail.bytes

/-- The labels of the names, or rests of names, that stand at a place. -/
abbrev Sites : Type := Nat → Option (List Label)

/-- The labels a tail stands for. -/
def NameTail.resolve (sites : Sites) : NameTail → Option (List Label)
  | .root => some []
  | .pointer location _ => sites location

/-- The labels of a whole name. -/
def WireName.resolve (sites : Sites) (n : WireName) : Option (List Label) :=
  (n.tail.resolve sites).map (n.labels ++ ·)

/-- The sites of a name at a place: each of its labels, and its tail. -/
def enter : List Label → List Label → Nat → Sites → Sites
  | [], rest, place, sites => Function.update sites place (some rest)
  | l :: labels, rest, place, sites =>
    Function.update (enter labels rest (place + l.wire.length) sites) place
      (some (l :: labels ++ rest))

/-- The text of a name; `none` where a label is no text. -/
def nameText? (labels : List Label) : Option Text :=
  (labels.mapM fun l => Utf8.decode? l.bytes).map (List.intercalate ['.'])

/-- A stretch of record data. -/
inductive Segment where
  | name (n : WireName)
  | raw (s : Bytes)

def Segment.bytes : Segment → Bytes
  | .name n => n.bytes
  | .raw s => s

structure WireQuery where
  name : WireName
  type : Word 2
  cls : Word 2

def WireQuery.bytes (q : WireQuery) : Bytes := q.name.bytes ++ (q.type.bytes ++ q.cls.bytes)

structure WireRecord where
  owner : WireName
  type : Word 2
  cls : Word 2
  ttl : Word 4
  data : List Segment

def WireRecord.dataBytes (r : WireRecord) : Bytes := r.data.flatMap Segment.bytes

/-- What stands between the owner and the data. -/
def WireRecord.fixed (r : WireRecord) : Bytes :=
  r.type.bytes ++ (r.cls.bytes ++ (r.ttl.bytes ++ ofNat 2 r.dataBytes.length))

def WireRecord.bytes (r : WireRecord) : Bytes := r.owner.bytes ++ (r.fixed ++ r.dataBytes)

structure WireMessage where
  ident : Word 2
  flags : Word 2
  queries : List WireQuery
  answers : List WireRecord
  authority : List WireRecord
  ad : List WireRecord

namespace WireMessage

def records (m : WireMessage) : List WireRecord := m.answers ++ (m.authority ++ m.ad)

def header (m : WireMessage) : Bytes :=
  m.ident.bytes ++ (m.flags.bytes ++ (ofNat 2 m.queries.length ++ (ofNat 2 m.answers.length ++
    (ofNat 2 m.authority.length ++ ofNat 2 m.ad.length))))

def bytes (m : WireMessage) : Bytes :=
  m.header ++ (m.queries.flatMap WireQuery.bytes ++ m.records.flatMap WireRecord.bytes)

end WireMessage

/-- How far a message has come, the sites of all its names so far, and those of the names
the parser has read. -/
structure Ground where
  place : Nat
  known : Sites
  met : Sites

namespace Ground

def skip (n : Nat) (g : Ground) : Ground := { g with place := g.place + n }

/-- Past a name, which the parser reads or not. -/
def pass (read : Bool) (n : WireName) (g : Ground) : Ground :=
  let rest := (n.tail.resolve g.known).getD []
  { place := g.place + n.bytes.length
    known := enter n.labels rest g.place g.known
    met := if read then enter n.labels rest g.place g.met else g.met }

def segment (read : Bool) (g : Ground) : Segment → Ground
  | .name n => g.pass read n
  | .raw s => g.skip s.length

/-- The types whose data the parser reads names from. -/
def readsNames (type : Nat) : Bool := isNameType type || type = DNSTYPE_SOA

def query (g : Ground) (q : WireQuery) : Ground := (g.pass true q.name).skip 4

/-- Where the data of a record starts. -/
def dataStart (g : Ground) (r : WireRecord) : Ground := (g.pass true r.owner).skip 10

def record (g : Ground) (r : WireRecord) : Ground :=
  r.data.foldl (segment (readsNames r.type.value)) (g.dataStart r)

end Ground

/-- The items of a list, each with the ground before it. -/
def before {α : Type} (next : Ground → α → Ground) : Ground → List α → List (Ground × α)
  | _, [] => []
  | g, a :: rest => (g, a) :: before next (next g a) rest

/-- Behind the header nothing has been named. -/
def Ground.start : Ground := ⟨12, fun _ => none, fun _ => none⟩

namespace WireMessage

variable (m : WireMessage)

def queryGrounds : List (Ground × WireQuery) := before Ground.query Ground.start m.queries

/-- The ground behind the questions. -/
def answered : Ground := m.queries.foldl Ground.query Ground.start

def recordGrounds : List (Ground × WireRecord) := before Ground.record m.answered m.records

end WireMessage

/-- A name points to an earlier one, and takes no more than 255 bytes when it is spelled
out. -/
def WireName.Allowed (n : WireName) (g : Ground) : Prop :=
  ∃ labels, n.resolve g.known = some labels ∧ (labels.flatMap Label.wire).length + 1 ≤ 255

def Segment.Allowed (read : Bool) : Ground → List Segment → Prop
  | _, [] => True
  | g, s :: rest => (∀ n, s = .name n → n.Allowed g) ∧ Segment.Allowed read (g.segment read s) rest

/-- The class of the Internet. -/
def CLASS_IN : Nat := 1

/-- The data has the form its type asks for. -/
def WireRecord.Shaped (r : WireRecord) : Prop :=
  (isNameType r.type.value → ∃ n, r.data = [.name n]) ∧
  (r.type.value = DNSTYPE_SOA → ∃ mname rname numbers,
    r.data = [.name mname, .name rname, .raw numbers] ∧ numbers.length = 20) ∧
  (r.type.value = DNSTYPE_A → r.cls.value = CLASS_IN → r.dataBytes.length = 4)

def WireRecord.Allowed (r : WireRecord) (g : Ground) : Prop :=
  r.owner.Allowed g ∧ r.Shaped ∧
    Segment.Allowed (Ground.readsNames r.type.value) (g.dataStart r) r.data

structure WireMessage.WellFormed (m : WireMessage) : Prop where
  size : m.bytes.length < 65536
  queries : ∀ p ∈ m.queryGrounds, p.2.name.Allowed p.1
  records : ∀ p ∈ m.recordGrounds, p.2.Allowed p.1

/-- A text is the name. -/
def WireName.Is (n : WireName) (g : Ground) (text : Text) : Prop :=
  ∃ labels, n.resolve g.known = some labels ∧ nameText? labels = some text

def QueryMeans (p : Ground × WireQuery) (query : DNSQuery) : Prop :=
  p.2.name.Is p.1 query.queryName ∧ query.queryType = p.2.type ∧ query.queryClass = p.2.cls

/-- The number in some bytes. -/
def numberAt (s : Bytes) (i : Nat) : Nat := BigEndian.toNat ((s.drop (4 * i)).take 4)

/-- What the text of a record's data is, on the ground where the data starts. -/
def DataMeans (g : Ground) (r : WireRecord) (text : Text) : Prop :=
  if isNameType r.type.value then ∃ n, r.data = [.name n] ∧ n.Is g text
  else if r.type.value = DNSTYPE_A then text = (inetNtop4 r.dataBytes).toList
  else if r.type.value = DNSTYPE_AAAA then text = (inetNtop6 r.dataBytes).toList
  else if r.type.value = DNSTYPE_SOA then
    ∃ mname rname numbers mtext rtext, r.data = [.name mname, .name rname, .raw numbers] ∧
      mname.Is g mtext ∧ rname.Is (g.pass true mname) rtext ∧
      text = soaText mtext (mailbox rtext) (numberAt numbers 0) (numberAt numbers 1)
        (numberAt numbers 2) (numberAt numbers 3) (numberAt numbers 4)
  else Utf8.encode text = r.dataBytes

structure RecordMeans (p : Ground × WireRecord) (res : DNSResource) : Prop where
  owner : p.2.owner.Is p.1 res.domainName
  type : res.resType = p.2.type
  cls : res.resClass = p.2.cls
  ttl : res.resTtl = p.2.ttl
  size : res.resLen.value = p.2.dataBytes.length
  data : DataMeans (p.1.dataStart p.2) p.2 res.resData

structure WireMessage.Means (m : WireMessage) (dns : DNS) : Prop where
  ident : dns.ident = m.ident
  flags : dns.flags = m.flags
  queryCount : dns.queryCount.value = m.queries.length
  answerCount : dns.answerCount.value = m.answers.length
  authCount : dns.authCount.value = m.authority.length
  adCount : dns.adCount.value = m.ad.length
  queries : List.Forall₂ QueryMeans m.queryGrounds dns.queries
  sections : dns.answers.length = m.answers.length ∧ dns.authority.length = m.authority.length
  records : List.Forall₂ RecordMeans m.recordGrounds (dns.answers ++ (dns.authority ++ dns.ad))

/-- Where the parser is behind the questions and the first records. -/
def offsetAfter (msg : Bytes) (fuel queries records : Nat) : Nat :=
  ((do
    let _ ← (parseQuery wrap16 msg fuel).times queries
    (parseResource wrap16 msg fuel).times records : Reader (List DNSResource))
      ⟨12, Dict.empty, []⟩).2.offset

/-- Where a record ends: at its data's start, and the length of the data further. -/
def WireMessage.endOf (m : WireMessage) (records : Nat) : Nat :=
  ((m.records.take records).foldl Ground.record m.answered).place

/-- The parser returns what the message says, and is at the end of each record behind it. -/
def WireMessage.Understood (m : WireMessage) : Prop :=
  ∃ fuel, (∃ dns, (parseMessage wrap16 m.bytes fuel).1 = .ok dns ∧ m.Means dns) ∧
    ∀ k ≤ m.records.length, offsetAfter m.bytes fuel m.queries.length k = m.endOf k

/-- The labels are text, and a pointer points to a name the parser has read. -/
def WireName.Readable (n : WireName) (g : Ground) : Prop :=
  (nameText? n.labels).isSome ∧ (n.tail.resolve g.met).isSome

/-- The name of a question or a record is also one the setters take. -/
def WireName.Taken (n : WireName) (type : Nat) (g : Ground) : Prop :=
  n.Readable g ∧ ∀ text, n.Is g text → takesName type text

/-- The data is read to its end, whatever it is. -/
def DataReadable (g : Ground) (r : WireRecord) : Prop :=
  if isNameType r.type.value then ∀ n, r.data = [.name n] → n.Readable g
  else if r.type.value = DNSTYPE_A then r.dataBytes.length = 4
  else if r.type.value = DNSTYPE_AAAA then r.dataBytes.length = 16
  else if r.type.value = DNSTYPE_SOA then
    r.dataBytes.count 0x20 ≤ 7 ∧ ∀ mname rname numbers,
      r.data = [.name mname, .name rname, .raw numbers] →
        mname.Readable g ∧ rname.Readable (g.pass true mname)
  else (Utf8.decode? r.dataBytes).isSome

structure WireMessage.Readable (m : WireMessage) : Prop where
  queries : ∀ p ∈ m.queryGrounds, p.2.name.Taken p.2.type.value p.1
  records : ∀ p ∈ m.recordGrounds, p.2.owner.Taken p.2.type.value p.1 ∧
    DataReadable (p.1.dataStart p.2) p.2

open BigEndian (ofNat toNat)
open Reader Tracked WireFields
open Slices (slice)

section Offsets

variable {msg s rest : Bytes} {o : Nat}

theorem slice_of_drop (h : msg.drop o = s ++ rest) : slice msg o (o + s.length) = s := by
  rw [slice, List.drop_take, h, Nat.add_sub_cancel_left, List.take_left]

theorem drop_of_drop (h : msg.drop o = s ++ rest) : msg.drop (o + s.length) = rest := by
  rw [← List.drop_drop, h, List.drop_left]

theorem le_of_drop (h : msg.drop o = s ++ rest) (hs : s ≠ []) : o + s.length ≤ msg.length := by
  have hlength := congrArg List.length h
  rw [List.length_drop, List.length_append] at hlength
  have hpos := List.length_pos_iff.mpr hs
  omega

theorem wordAt_of_take {width : Nat} {w : Word width} (h : (msg.drop o).take width = w.bytes) :
    wordAt width msg o = w := by
  have hvalue : toNat ((msg.drop o).take width) = w.value := by
    rw [h, Word.bytes, BigEndian.toNat_ofNat w.fits]
  simp only [wordAt, hvalue]

theorem wordAt_of_drop {width : Nat} {w : Word width} (h : msg.drop o = w.bytes ++ rest) :
    wordAt width msg o = w := by
  apply wordAt_of_take
  rw [h, List.take_append_of_le_length (by simp), List.take_of_length_le (by simp)]

theorem wordAt_ofNat {width n : Nat} (hn : n < 256 ^ width)
    (h : msg.drop o = ofNat width n ++ rest) : (wordAt width msg o).value = n := by
  rw [wordAt_of_drop (w := ⟨n, hn⟩) h]

theorem byteAt_of_drop {b : UInt8} (h : msg.drop o = b :: rest) :
    (wordAt 1 msg o).value = b.toNat := by
  have hvalue : toNat ((msg.drop o).take 1) = b.toNat := by
    rw [h, List.take_succ_cons, List.take_zero]
    simp [BigEndian.toNat]
  exact hvalue

end Offsets

theorem decode?_label (l : Label) : Utf8.decode? l.bytes ≠ some [] := by
  intro h
  have hempty := Utf8.decode?_eq_some_iff.mp h
  have hsize := l.size.1
  rw [hempty] at hsize
  exact absurd hsize (by decide +kernel)

theorem nameText?_nil : nameText? [] = some [] := rfl

theorem intercalate_cons {first : Text} {texts : List Text} (h : ∀ t ∈ texts, t ≠ []) :
    List.intercalate ['.'] (first :: texts) = dotted first (List.intercalate ['.'] texts) := by
  rw [dotted]
  cases texts with
  | nil => simp [List.intercalate]
  | cons second rest =>
    have hne : List.intercalate ['.'] (second :: rest) ≠ [] := by
      have hsecond := h second List.mem_cons_self
      cases rest <;> simp [List.intercalate, hsecond]
    rw [if_neg hne]
    simp [List.intercalate]

theorem decoded_ne_nil {labels : List Label} {texts : List Text}
    (h : (labels.mapM fun l => Utf8.decode? l.bytes) = some texts) : ∀ t ∈ texts, t ≠ [] := by
  rintro t ht rfl
  obtain ⟨l, -, hl⟩ := Mapped.exists_of_mem_right h ht
  exact decode?_label l hl

theorem nameText?_cons {l : Label} {labels : List Label} {text : Text} :
    nameText? (l :: labels) = some text ↔
      ∃ first suffix, Utf8.decode? l.bytes = some first ∧ nameText? labels = some suffix ∧
        text = dotted first suffix := by
  rw [nameText?, nameText?, Option.map_eq_some_iff]
  constructor
  · rintro ⟨texts, htexts, rfl⟩
    obtain ⟨first, rest, hfirst, hrest, rfl⟩ := Mapped.mapM_cons_eq_some_iff.mp htexts
    exact ⟨first, _, hfirst, by rw [hrest, Option.map_some], intercalate_cons (decoded_ne_nil hrest)⟩
  · rintro ⟨first, suffix, hfirst, hsuffix, rfl⟩
    obtain ⟨rest, hrest, rfl⟩ := Option.map_eq_some_iff.mp hsuffix
    exact ⟨first :: rest, Mapped.mapM_cons_eq_some_iff.mpr ⟨first, rest, hfirst, hrest, rfl⟩,
      intercalate_cons (decoded_ne_nil hrest)⟩

theorem nameText?_cons_isSome {l : Label} {labels : List Label} :
    (nameText? (l :: labels)).isSome ↔
      (Utf8.decode? l.bytes).isSome ∧ (nameText? labels).isSome := by
  constructor
  · intro h
    obtain ⟨text, htext⟩ := Option.isSome_iff_exists.mp h
    obtain ⟨first, suffix, hfirst, hsuffix, -⟩ := nameText?_cons.mp htext
    exact ⟨Option.isSome_of_eq_some hfirst, Option.isSome_of_eq_some hsuffix⟩
  · rintro ⟨hfirst, hsuffix⟩
    obtain ⟨first, hfirst⟩ := Option.isSome_iff_exists.mp hfirst
    obtain ⟨suffix, hsuffix⟩ := Option.isSome_iff_exists.mp hsuffix
    exact Option.isSome_of_eq_some (nameText?_cons.mpr ⟨first, suffix, hfirst, hsuffix, rfl⟩)

theorem nameText?_append_isSome {labels rest : List Label} :
    (nameText? (labels ++ rest)).isSome ↔ (nameText? labels).isSome ∧ (nameText? rest).isSome := by
  induction labels with
  | nil => simp [nameText?_nil]
  | cons l labels ih =>
    rw [List.cons_append, nameText?_cons_isSome, nameText?_cons_isSome, ih, and_assoc]

variable {msg rest : Bytes} {c : Cursor}

theorem readPart_of_label {l : Label} (h : msg.drop c.offset = l.wire ++ rest) :
    readPart wrap16 msg c =
      match Utf8.decode? l.bytes with
      | none => (.error .undecodable, c)
      | some text => (.ok (.label c.offset text), c.move wrap16 l.wire.length) := by
  have hend := le_of_drop h (by simp [Label.wire])
  have hbyte : (wordAt 1 msg c.offset).value = l.bytes.length := by
    rw [byteAt_of_drop h, UInt8.toNat_ofNat', Nat.mod_eq_of_lt (by have := l.size.2; omega)]
  have hslice : slice msg (c.offset + 1) (c.offset + 1 + l.bytes.length) = l.bytes := by
    have hbody := drop_of_drop (s := [UInt8.ofNat l.bytes.length]) h
    exact slice_of_drop hbody
  rw [Label.wire, List.length_cons] at hend ⊢
  have hfits := l.size
  rw [readPart_apply, hbyte, hslice, if_neg (by omega), if_pos hfits]
  refine (if_neg (by omega)).trans ?_
  cases Utf8.decode? l.bytes with
  | none => rfl
  | some text => rfl

theorem readPart_of_root (h : msg.drop c.offset = 0 :: rest) :
    readPart wrap16 msg c = (.ok (.root c.offset), c.move wrap16 1) := by
  have hend := le_of_drop (s := [0]) h (by simp)
  rw [List.length_singleton] at hend
  rw [readPart_apply, byteAt_of_drop h, if_neg (by omega), if_neg (by decide), if_pos (by decide)]

theorem readPart_of_pointer {location : Nat}
    (hfits : location < 0x4000) (h : msg.drop c.offset = ofNat 2 (LABEL + location) ++ rest) :
    readPart wrap16 msg c = (.ok (.pointer c.offset location), c.move wrap16 2) := by
  have hend := le_of_drop h (by simp [ofNat])
  have hlabel : LABEL = 49152 := rfl
  rw [BigEndian.length_ofNat] at hend
  have hbyte : (wordAt 1 msg c.offset).value = (LABEL + location) / 256 := by
    rw [byteAt_of_drop h, UInt8.toNat_ofNat', Nat.pow_one, Nat.mod_eq_of_lt (by omega)]
  have hword : (wordAt 2 msg c.offset).value = LABEL + location := wordAt_ofNat (by omega) h
  rw [readPart_apply, hbyte, hword, if_neg (by omega), if_neg (by omega), if_neg (by omega),
    if_pos (by omega), if_neg (by omega)]
  congr 3
  omega

/-- The suffixes the parser has stored are the texts of the sites it has met. -/
def Stored (labels : Dict Nat Text) (met : Sites) : Prop :=
  ∀ place, labels.get? place = (met place).bind nameText? ∧
    ∀ site, met place = some site → (nameText? site).isSome

theorem Stored.file {labels : Dict Nat Text} {met : Sites} (h : Stored labels met) {place : Nat}
    {site : List Label} {text : Text} (htext : nameText? site = some text) :
    Stored (labels.set place text) (Function.update met place (some site)) := by
  intro p
  rw [Dict.get?_set, Function.update_apply]
  by_cases hp : p = place
  · rw [if_pos hp, if_pos hp]
    refine ⟨htext.symm, ?_⟩
    rintro _ ⟨⟩
    exact Option.isSome_of_eq_some htext
  · rw [if_neg hp, if_neg hp]
    exact h p

/-- The length of the labels of a name on the wire. -/
abbrev wireLength (labels : List Label) : Nat := (labels.flatMap Label.wire).length

/-- A name is read to its end where its labels are text and its tail has been met. -/
theorem readDnsName_reads {met : Sites} {tail : NameTail} {site : List Label} (labels : List Label)
    (hshort : msg.length < 65536) (hsite : tail.resolve met = some site) :
    ∀ (c : Cursor) (fuel : Nat) (text : Text), labels.length < fuel →
      msg.drop c.offset = labels.flatMap Label.wire ++ (tail.bytes ++ rest) →
      Stored c.labels met → nameText? (labels ++ site) = some text →
      ∃ c', readDnsName wrap16 msg fuel c = (.ok text, c') ∧
        c'.offset = c.offset + wireLength labels + tail.bytes.length ∧
        Stored c'.labels (enter labels site c.offset met) := by
  induction labels with
  | nil =>
    rintro c (_ | fuel) text hfuel hdrop hstored htext
    · exact absurd hfuel (by simp)
    rw [List.nil_append] at htext
    rw [List.flatMap_nil, List.nil_append] at hdrop
    cases tail with
    | root =>
      have hend := le_of_drop (s := [0]) hdrop (by simp)
      cases hsite
      cases htext
      refine ⟨(c.move wrap16 1).file c.offset [], ?_, ?_, hstored.file rfl⟩
      · rw [readDnsName, bind_of_ok (readPart_of_root hdrop)]
        rfl
      · simp only [Cursor.file, Cursor.move, wrap16, wireLength, List.flatMap_nil,
          List.length_nil, NameTail.bytes, List.length_singleton] at *
        omega
    | pointer location fits =>
      have hend := le_of_drop hdrop (by simp [NameTail.bytes, ofNat])
      have hfound : c.labels.get? location = some text := by
        rw [(hstored location).1]
        rw [NameTail.resolve] at hsite
        rw [hsite, Option.bind_some, htext]
      refine ⟨(c.move wrap16 2).file c.offset text, ?_, ?_, hstored.file htext⟩
      · rw [readDnsName, bind_of_ok (readPart_of_pointer fits hdrop)]
        dsimp only
        rw [lookup, get_bind, Cursor.move, hfound]
        rfl
      · simp only [Cursor.file, Cursor.move, wrap16, wireLength, List.flatMap_nil,
          List.length_nil, NameTail.bytes, BigEndian.length_ofNat] at *
        omega
  | cons l labels ih =>
    rintro c (_ | fuel) text hfuel hdrop hstored htext
    · exact absurd hfuel (by simp)
    rw [List.cons_append] at htext
    obtain ⟨first, suffix, hfirst, hsuffix, rfl⟩ := nameText?_cons.mp htext
    rw [List.flatMap_cons, List.append_assoc] at hdrop
    have hend := le_of_drop hdrop (by simp [Label.wire])
    have hplace : (c.move wrap16 l.wire.length).offset = c.offset + l.wire.length := by
      simp only [Cursor.move, wrap16]
      omega
    obtain ⟨c', hread, hoffset, hfiled⟩ := ih (c.move wrap16 l.wire.length) fuel suffix
      (by simpa using hfuel) (by rw [hplace]; exact drop_of_drop hdrop) hstored hsuffix
    have hpart : readPart wrap16 msg c =
        (.ok (.label c.offset first), c.move wrap16 l.wire.length) := by
      rw [readPart_of_label hdrop, hfirst]
    refine ⟨c'.file c.offset (dotted first suffix), ?_, ?_, ?_⟩
    · rw [readDnsName, bind_of_ok hpart]
      dsimp only
      rw [bind_of_ok hread]
      rfl
    · rw [Cursor.file, hoffset, hplace, wireLength, wireLength, List.flatMap_cons,
        List.length_append]
      omega
    · rw [hplace] at hfiled
      exact hfiled.file htext

/-- Only such a name is read. -/
theorem readDnsName_readable {met : Sites} {tail : NameTail} (labels : List Label) :
    ∀ (c c' : Cursor) (fuel : Nat) (text : Text), msg.length < 65536 →
      msg.drop c.offset = labels.flatMap Label.wire ++ (tail.bytes ++ rest) →
      Stored c.labels met → readDnsName wrap16 msg fuel c = (.ok text, c') →
      labels.length < fuel ∧ (nameText? labels).isSome ∧ (tail.resolve met).isSome := by
  induction labels with
  | nil =>
    rintro c c' (_ | fuel) text hshort hdrop hstored hread
    · cases hread
    refine ⟨by simp, by simp [nameText?_nil], ?_⟩
    cases tail with
    | root => rfl
    | pointer location fits =>
      rw [readDnsName, bind_of_ok (readPart_of_pointer fits hdrop)] at hread
      dsimp only at hread
      rw [lookup, get_bind, Cursor.move] at hread
      cases hfound : c.labels.get? location with
      | none =>
        rw [hfound] at hread
        cases hread
      | some suffix =>
        rw [(hstored location).1] at hfound
        obtain ⟨site, hsite, -⟩ := Option.bind_eq_some_iff.mp hfound
        exact Option.isSome_of_eq_some hsite
  | cons l labels ih =>
    rintro c c' (_ | fuel) text hshort hdrop hstored hread
    · cases hread
    rw [List.flatMap_cons, List.append_assoc] at hdrop
    have hend := le_of_drop hdrop (by simp [Label.wire])
    rw [readDnsName] at hread
    cases hfirst : Utf8.decode? l.bytes with
    | none =>
      have hpart := readPart_of_label hdrop
      rw [hfirst] at hpart
      rw [bind_of_error hpart] at hread
      cases hread
    | some first =>
      have hpart := readPart_of_label hdrop
      rw [hfirst] at hpart
      rw [bind_of_ok hpart] at hread
      obtain ⟨suffix, c'', hrest, -⟩ := bind_eq_ok_iff.mp hread
      have hplace : (c.move wrap16 l.wire.length).offset = c.offset + l.wire.length := by
        simp only [Cursor.move, wrap16]
        omega
      obtain ⟨hfuel, hlabels, htail⟩ := ih (c.move wrap16 l.wire.length) _ _ _ hshort
        (by rw [hplace]; exact drop_of_drop hdrop) hstored hrest
      refine ⟨by simpa using hfuel, ?_, htail⟩
      rw [nameText?_cons_isSome, hfirst]
      exact ⟨rfl, hlabels⟩

end Packets.Protos
