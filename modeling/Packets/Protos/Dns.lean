/-
DNS messages as they are read (`protos/dns.pyx`).

`wrap` is applied to every offset the parser moves to; the code's is `wrap16`.  Following
labels need not end, so what reads a name has fuel.
-/
import Packets.Lib.DecimalText
import Packets.Lib.Dict
import Packets.Lib.Tracked
import Packets.Lib.Utf8
import Packets.Lib.WireFields
import Packets.Rib.Address

namespace Packets.Protos

open BigEndian (ofNat toNat toNat_lt)
open Slices (slice)
open WireFields

/-- A `str`. -/
abbrev Text := List Char

def DNSTYPE_A : Nat := 1
def DNSTYPE_NS : Nat := 2
def DNSTYPE_CNAME : Nat := 5
def DNSTYPE_SOA : Nat := 6
def DNSTYPE_PTR : Nat := 12
def DNSTYPE_TXT : Nat := 16
def DNSTYPE_AAAA : Nat := 28
def DNSTYPE_OPT : Nat := 41

/-- The two high bits of a compression pointer. -/
def LABEL : Nat := 49152

def isLabelChar (c : Char) : Bool :=
  ('A' ≤ c && c ≤ 'Z') || ('a' ≤ c && c ≤ 'z') || ('0' ≤ c && c ≤ '9') || c = '-' || c = '_'

/-- `(?!-|[^.]+_)[A-Za-z0-9-_]{1,63}(?<!-)`, for the text up to a dot. -/
def isHostLabel (label : Text) : Bool :=
  1 ≤ label.length && label.length ≤ 63 && label.all isLabelChar && label.head? != some '-' &&
    label.getLast? != some '-' && !label.tail.contains '_'

/-- What stands before the `$` of a pattern: it also matches before a last line feed. -/
def chomped (text : Text) : Text := if text.getLast? = some '\n' then text.dropLast else text

/-- A name without the dot it may end in. -/
def undotted (text : Text) : Text := if text.getLast? = some '.' then text.dropLast else text

/-- `hostname_re.match` -/
def isHostname (text : Text) : Bool := isHostLabel (undotted (chomped text))

/-- `domainname_re.match` -/
def isDomainname (text : Text) : Bool :=
  let name := undotted (chomped text)
  let labels := name.splitOn '.'
  name.length ≤ 253 && 2 ≤ labels.length && labels.all isHostLabel

/-- `_is_dns_name` -/
def isDnsName (text : Text) : Bool := isDomainname text || isHostname text || text = []

/-- What the setters of `query_name` and `domain_name` take. -/
def takesName (type : Nat) (text : Text) : Bool :=
  isDnsName text || type = DNSTYPE_TXT || type = DNSTYPE_OPT

structure DNSQuery where
  queryName : Text
  queryType : Word 2
  queryClass : Word 2
deriving DecidableEq

structure DNSResource where
  domainName : Text
  resType : Word 2
  resClass : Word 2
  resTtl : Word 4
  resLen : Word 2
  resData : Text
deriving DecidableEq

structure DNS where
  ident : Word 2
  flags : Word 2
  queryCount : Word 2
  answerCount : Word 2
  authCount : Word 2
  adCount : Word 2
  queries : List DNSQuery
  answers : List DNSResource
  authority : List DNSResource
  ad : List DNSResource
deriving DecidableEq

/-- Why the parser stops: what it raises, or no more fuel. -/
inductive DnsStop where
  | truncated
  | undecodable
  | unexpectedPointer
  | labelLength
  | address
  | soa
  | name
  | unfinished
deriving DecidableEq

/-- Where the parser is, the suffixes it has met by where they stand, and, which nothing
reads, every move so far: from where and how far, the last one first. -/
structure Cursor where
  offset : Nat
  labels : Dict Nat Text
  moves : List (Nat × Nat)

/-- `offset += n` -/
def Cursor.move (wrap : Nat → Nat) (n : Nat) (c : Cursor) : Cursor :=
  { c with offset := wrap (c.offset + n), moves := (c.offset, n) :: c.moves }

/-- `label_store[place] = suffix` -/
def Cursor.file (place : Nat) (suffix : Text) (c : Cursor) : Cursor :=
  { c with labels := c.labels.set place suffix }

/-- A part of the parser: what it returns or raises, and the cursor it leaves. -/
abbrev Reader (α : Type) : Type := Tracked Cursor DnsStop α

namespace Reader

open Tracked (raise get modify)

def offset : Reader Nat := get Cursor.offset

/-- The suffix met at a place. -/
def lookup (place : Nat) : Reader (Option Text) := get fun c => c.labels.get? place

def store (place : Nat) (suffix : Text) : Reader Unit := modify (Cursor.file place suffix)

/-- `need_bytes` -/
def need (msg : Bytes) (least : Nat) : Reader Unit :=
  if msg.length < least then raise .truncated else pure ()

/-- `bytes.decode()` -/
def decode (s : Bytes) : Reader Text :=
  match Utf8.decode? s with
  | none => raise .undecodable
  | some text => pure text

def advance (wrap : Nat → Nat) (n : Nat) : Reader Unit := modify (Cursor.move wrap n)

end Reader

/-- 16 bits of an offset. -/
def wrap16 (n : Nat) : Nat := n % 65536

/-- `rd_u8`, `rd_u16` and `rd_u32` -/
def wordAt (width : Nat) (msg : Bytes) (o : Nat) : Word width :=
  ⟨toNat ((msg.drop o).take width), (toNat_lt _).trans_le
    (Nat.pow_le_pow_right (by decide) (List.length_take_le width _))⟩

/-- What is at a place where a name goes on. -/
inductive NamePart where
  | label (place : Nat) (text : Text)
  | root (place : Nat)
  | pointer (place location : Nat)

/-- A label before a suffix. -/
def dotted (label suffix : Text) : Text := if suffix = [] then label else label ++ '.' :: suffix

section Parser

open Reader
open Tracked (raise)

variable (wrap : Nat → Nat) (msg : Bytes)

/-- One turn of the loop of `read_dns_name_bytes`. -/
def readPart : Reader NamePart := do
  let o ← offset
  need msg (o + 1)
  let b1 := (wordAt 1 msg o).value
  if 1 ≤ b1 ∧ b1 ≤ 63 then
    need msg (o + 1 + b1)
    let text ← decode (slice msg (o + 1) (o + 1 + b1))
    advance wrap (b1 + 1)
    pure (.label o text)
  else if b1 = 0 then
    advance wrap 1
    pure (.root o)
  else if 192 ≤ b1 then
    need msg (o + 2)
    let location := (wordAt 2 msg o).value % 0x4000
    advance wrap 2
    pure (.pointer o location)
  else raise .labelLength

/-- `read_dns_name_bytes`: down the labels to the end or a pointer, and up again, where
every suffix met is stored. -/
def readDnsName : Nat → Reader Text
  | 0 => raise .unfinished
  | fuel + 1 => do
    match ← readPart wrap msg with
    | .label place text => do
      let suffix ← readDnsName fuel
      let name := dotted text suffix
      store place name
      pure name
    | .root place => do
      store place []
      pure []
    | .pointer place location => do
      match ← lookup location with
      | none => raise .unexpectedPointer
      | some suffix => do
        store place suffix
        pure suffix

/-- The printed form of a SOA record. -/
def soaText (mname rname : Text) (serial refresh retry expire minimum : Nat) : Text :=
  "SOA mname: ".toList ++ mname ++ ", rname: ".toList ++ rname ++
    ", serial: ".toList ++ (toString serial).toList ++
    ", refresh: ".toList ++ (toString refresh).toList ++
    ", retry: ".toList ++ (toString retry).toList ++
    ", expire: ".toList ++ (toString expire).toList ++
    ", minimum: ".toList ++ (toString minimum).toList

/-- `rname.replace('.', '@', 1)` -/
def mailbox : Text → Text
  | [] => []
  | c :: rest => if c = '.' then '@' :: rest else c :: mailbox rest

/-- `parse_soa`.  Data of at most seven blanks counts as binary, of fifteen as printed. -/
def parseSoa (fuel rlen : Nat) : Reader Text := do
  let o ← offset
  let count := (slice msg o (o + rlen)).count 0x20
  if count ≤ 7 ∧ o + rlen ≤ msg.length then
    let mname ← readDnsName wrap msg fuel
    let rname ← readDnsName wrap msg fuel
    let o ← offset
    need msg (o + 20)
    advance wrap 20
    pure (soaText mname (mailbox rname) (wordAt 4 msg o).value (wordAt 4 msg (o + 4)).value
      (wordAt 4 msg (o + 8)).value (wordAt 4 msg (o + 12)).value (wordAt 4 msg (o + 16)).value)
  else if count = 15 then decode msg
  else raise .soa

def isNameType (type : Nat) : Bool :=
  type = DNSTYPE_NS || type = DNSTYPE_CNAME || type = DNSTYPE_PTR

/-- The data of a record, read by its type. -/
def parseData (fuel type rlen : Nat) : Reader Text := do
  let o ← offset
  if isNameType type then readDnsName wrap msg fuel
  else if type = DNSTYPE_A then
    need msg (o + 4)
    advance wrap 4
    pure (inetNtop4 (slice msg o (o + 4))).toList
  else if type = DNSTYPE_AAAA then
    let addr := slice msg o (o + 16)
    if addr.length = 16 then
      advance wrap 16
      pure (inetNtop6 addr).toList
    else raise .address
  else if type = DNSTYPE_SOA then parseSoa wrap msg fuel rlen
  else
    let data ← decode (slice msg o (o + rlen))
    advance wrap rlen
    pure data

/-- The test of the two name setters.  The names that passed are also remembered, which
changes no answer. -/
def checkName (type : Nat) (name : Text) : Reader Unit :=
  if takesName type name then pure () else raise .name

/-- `parse_resource` and `_parsed_resource` -/
def parseResource (fuel : Nat) : Reader DNSResource := do
  let name ← readDnsName wrap msg fuel
  let o ← offset
  need msg (o + 10)
  let type := wordAt 2 msg o
  let rlen := wordAt 2 msg (o + 8)
  advance wrap 10
  let data ← parseData wrap msg fuel type.value rlen.value
  checkName type.value name
  pure ⟨name, type, wordAt 2 msg (o + 2), wordAt 4 msg (o + 4), rlen, data⟩

/-- One turn of the loop over the questions. -/
def parseQuery (fuel : Nat) : Reader DNSQuery := do
  let name ← readDnsName wrap msg fuel
  let o ← offset
  need msg (o + 4)
  let type := wordAt 2 msg o
  checkName type.value name
  advance wrap 4
  pure ⟨name, type, wordAt 2 msg (o + 2)⟩

/-- `_parse_message`, from behind the header. -/
def parseSections (fuel : Nat) : Reader DNS := do
  let queryCount := wordAt 2 msg 4
  let answerCount := wordAt 2 msg 6
  let authCount := wordAt 2 msg 8
  let adCount := wordAt 2 msg 10
  let queries ← (parseQuery wrap msg fuel).times queryCount.value
  let answers ← (parseResource wrap msg fuel).times answerCount.value
  let authority ← (parseResource wrap msg fuel).times authCount.value
  let ad ← (parseResource wrap msg fuel).times adCount.value
  pure ⟨wordAt 2 msg 0, wordAt 2 msg 2, queryCount, answerCount, authCount, adCount,
    queries, answers, authority, ad⟩

/-- `_parse_message` -/
def parseMessage (fuel : Nat) : Except DnsStop DNS × Cursor :=
  if msg.length < 12 then (.error .truncated, ⟨0, Dict.empty, []⟩)
  else parseSections wrap msg fuel ⟨12, Dict.empty, []⟩

end Parser

end Packets.Protos

