/-
Address and prefix text (`socket.inet_pton`, `socket.inet_ntop`, `parse_prefix`,
`Prefix.to_str`).

Digits are the ASCII ones.
-/
import Packets.Lib.BigEndian
import Packets.Rib.Prefix

namespace Packets

/-- The number a string of decimal digits spells; `none` when it is empty or
holds anything else. -/
def decimal? (text : List Char) : Option Nat :=
  if text ≠ [] ∧ text.all Char.isDigit then
    some (text.foldl (fun n c => n * 10 + (c.toNat - '0'.toNat)) 0)
  else none

def hexDigit? (c : Char) : Option Nat :=
  if c.isDigit then some (c.toNat - '0'.toNat)
  else if 'a' ≤ c ∧ c ≤ 'f' then some (c.toNat - 'a'.toNat + 10)
  else if 'A' ≤ c ∧ c ≤ 'F' then some (c.toNat - 'A'.toNat + 10)
  else none

/-- One octet of a dotted quad: up to 255, no leading zero. -/
def octet? (text : List Char) : Option UInt8 :=
  match decimal? text with
  | none => none
  | some n =>
    if text.length ≤ 3 ∧ n ≤ 255 ∧ (text.length = 1 ∨ text.head? ≠ some '0') then
      some (UInt8.ofNat n)
    else none

def inetPton4 (text : List Char) : Option Bytes :=
  let parts := text.splitOn '.'
  if parts.length = 4 then parts.mapM octet? else none

/-- One group of an IPv6 address: one to four hexadecimal digits. -/
def hexGroup? (text : List Char) : Option Bytes :=
  if 1 ≤ text.length ∧ text.length ≤ 4 then
    (text.mapM hexDigit?).map fun digits =>
      BigEndian.ofNat 2 (digits.foldl (fun n d => n * 16 + d) 0)
  else none

/-- A run of colon-separated groups.  Only the last one of an address may be a
dotted quad. -/
def hexGroups? (dotted : Bool) : List (List Char) → Option Bytes
  | [] => some []
  | [last] =>
    match hexGroup? last with
    | some group => some group
    | none => if dotted then inetPton4 last else none
  | group :: rest => do
    let first ← hexGroup? group
    let others ← hexGroups? dotted rest
    pure (first ++ others)

/-- One side of the `::`, which may be empty. -/
def hexSide? (dotted : Bool) (text : List Char) : Option Bytes :=
  if text = [] then some [] else hexGroups? dotted (text.splitOn ':')

/-- The text before and after the first `::`, if there is one. -/
def splitGap : List Char → Option (List Char × List Char)
  | ':' :: ':' :: rest => some ([], rest)
  | c :: rest => (splitGap rest).map fun sides => (c :: sides.1, sides.2)
  | [] => none

def inetPton6 (text : List Char) : Option Bytes :=
  match splitGap text with
  | none => (hexGroups? true (text.splitOn ':')).filter fun addr => addr.length = 16
  | some (before, after) => do
    let head ← hexSide? false before
    let tail ← hexSide? true after
    -- The gap stands for at least one group.
    if head.length + tail.length < 16 then
      some (head ++ List.replicate (16 - head.length - tail.length) 0 ++ tail)
    else none

/-- `_pack_addr` on text: a colon means IPv6. -/
def packAddr (text : String) : Option Bytes :=
  if ':' ∈ text.toList then inetPton6 text.toList else inetPton4 text.toList

/-- `parse_prefix`: an address with or without a length. -/
def parsePrefix (text : String) : Option Prefix :=
  let chars := text.toList
  let addrText := chars.takeWhile (· ≠ '/')
  let afi := if ':' ∈ addrText then AFI_IP6 else AFI_IP
  let packed := if ':' ∈ addrText then inetPton6 addrText else inetPton4 addrText
  match packed with
  | none => none
  | some addr =>
    if '/' ∈ chars then
      match decimal? (chars.drop (addrText.length + 1)) with
      | none => none
      | some plen => Prefix.new afi plen addr
    else Prefix.new afi (pfxAddrBits afi) addr

def inetNtop4 (addr : Bytes) : String := ".".intercalate (addr.map fun b => toString b.toNat)

/-- The 16-bit groups of an address. -/
def addrGroups : Bytes → List Nat
  | high :: low :: rest => (high.toNat * 256 + low.toNat) :: addrGroups rest
  | _ => []

/-- The first of the longest runs of zero groups, as where it starts and its length. -/
def zeroRun (groups : List Nat) : Nat × Nat :=
  (List.range groups.length).foldl
    (fun best start =>
      let len := ((groups.drop start).takeWhile (· = 0)).length
      if best.2 < len then (start, len) else best) (0, 0)

def groupsText (groups : List Nat) : String :=
  ":".intercalate (groups.map fun n => String.ofList (Nat.toDigits 16 n))

/-- `inet_ntop` of an IPv6 address: a run of two zero groups or more is left out, and an
address that embeds an IPv4 one ends in its dotted quad. -/
def inetNtop6 (addr : Bytes) : String :=
  let groups := addrGroups addr
  let (start, len) := zeroRun groups
  if len < 2 then groupsText groups
  else if start = 0 ∧ len = 6 then "::" ++ inetNtop4 (addr.drop 12)
  else if start = 0 ∧ len = 5 ∧ groups[5]? = some 0xffff then
    "::ffff:" ++ inetNtop4 (addr.drop 12)
  else groupsText (groups.take start) ++ "::" ++ groupsText (groups.drop (start + len))

/-- The address of a prefix as text. -/
def Prefix.addrText (p : Prefix) : String :=
  if p.afi = AFI_IP then inetNtop4 p.addr else inetNtop6 p.addr

/-- `to_str` -/
def Prefix.toStr (p : Prefix) : String := p.addrText ++ "/" ++ toString p.plen

example : parsePrefix "2001:db8::1:0/112" =
    Prefix.new AFI_IP6 112 [0x20, 1, 0x0d, 0xb8, 0, 0, 0, 0, 0, 0, 0, 0, 0, 1, 0, 0] := by
  decide

example : (parsePrefix "2001:DB8:0::0:1").map Prefix.toStr = some "2001:db8::1/128" := by
  decide +kernel

end Packets
