/-
Keys on a socket, and the passive side of the transport (`transport/auth.py`,
`transport/tcp.py`, `Listener`) with the kernel under its listening socket.

Handshakes complete at any moment.  Interfaces, probes, counters and the TTL floor are left out.
-/
import Packets.Rib.Address
import Mathlib.Data.List.Sort
import Packets.Lib.Dict

namespace Packets

inductive AddrFamily where
  | inet
  | inet6
deriving DecidableEq, Repr

/-- `str.strip` -/
def stripped (text : List Char) : List Char :=
  ((text.dropWhile Char.isWhitespace).reverse.dropWhile Char.isWhitespace).reverse

/-- `str` of an `ipaddress.IPv6Address`. -/
def ipStr6 (addr : Bytes) : String :=
  let groups := addrGroups addr
  let (start, len) := zeroRun groups
  if len < 2 then groupsText groups
  else groupsText (groups.take start) ++ "::" ++ groupsText (groups.drop (start + len))

/-- `ipv4_mapped` -/
def ipv4Mapped (addr : Bytes) : Option Bytes :=
  if addr.take 12 = List.replicate 10 0 ++ [0xff, 0xff] then some (addr.drop 12) else none

/-- `_split_addr`: the family and the canonical text; `none` is the `ValueError`. -/
def splitAddr (addr : String) : Option (AddrFamily × String) :=
  let text := (stripped addr.toList).takeWhile (· ≠ '%')
  if ':' ∈ text then
    (inetPton6 text).map fun packed =>
      match ipv4Mapped packed with
      | some mapped => (.inet, inetNtop4 mapped)
      | none => (.inet6, ipStr6 packed)
  else (inetPton4 text).map fun packed => (.inet, inetNtop4 packed)

example : splitAddr "2001:DB8:0:0::1%eth0" = some (.inet6, "2001:db8::1") := by decide +kernel

/-- `AUTH_MODES` -/
inductive AuthMode where
  | none
  | md5
  | ao
  | md5AoFallback
deriving DecidableEq, Repr

/-- The key mapping of an AO peer. -/
structure AoKey where
  sendId : Int := 0
  recvId : Int := 0
  key : Option String := none
  alg : String := "cmac-aes-128"
deriving DecidableEq

/-- `auth_mode` with its `auth_key`: a password for MD5, for AO a mapping or, as `none`,
anything else. -/
inductive Auth where
  | noAuth
  | md5 (password : Option String)
  | md5AoFallback (password : Option String)
  | ao (key : Option AoKey)
deriving DecidableEq

namespace Auth

def mode : Auth → AuthMode
  | .noAuth => .none
  | .md5 _ => .md5
  | .md5AoFallback _ => .md5AoFallback
  | .ao _ => .ao

/-- Whether the session is reported as authenticated. -/
def required (auth : Auth) : Prop := auth.mode ≠ .none

instance : DecidablePred required := fun auth => inferInstanceAs (Decidable (auth.mode ≠ .none))

end Auth

/-- A key as the kernel holds it. -/
inductive Key where
  | md5 (material : Bytes)
  | ao (sendId recvId : Int) (material : Bytes) (alg : String)
deriving DecidableEq

inductive AuthError where
  | value
  | os
deriving DecidableEq, Repr

def MAXKEYLEN : Nat := 80

def AO_ALG_NAMELEN : Nat := 64

/-- `_key_bytes` -/
def keyBytes (key : Option String) : Except AuthError Bytes :=
  let material := (key.getD "").toUTF8.data.toList
  if MAXKEYLEN < material.length then .error .value else .ok material

/-- `_ao_alg_name` -/
def aoAlgName (alg : String) : String :=
  let text := String.ofList (stripped alg.toList)
  let lower := String.ofList (text.toList.map Char.toLower)
  if lower ∈ ["cmac-aes-128", "aes-128-cmac-96", "cmac(aes128)"] then "cmac(aes128)"
  else if lower ∈ ["hmac-sha-1-96", "hmac-sha1", "hmac(sha1)"] then "hmac(sha1)"
  else text

/-- The checks of `pack_ao_add`. -/
def AoKey.pack (ao : AoKey) : Except AuthError Key := do
  let material ← keyBytes ao.key
  let name := aoAlgName ao.alg
  if !name.toList.all (·.toNat < 128) then throw .value
  if AO_ALG_NAMELEN ≤ name.length then throw .value
  if ¬(0 ≤ ao.sendId ∧ ao.sendId ≤ 255 ∧ 0 ≤ ao.recvId ∧ ao.recvId ≤ 255) then throw .value
  pure (.ao ao.sendId ao.recvId material name)

/-- What `_apply_auth` hands the kernel, if anything. -/
def Auth.pack : Auth → Except AuthError (Option Key)
  | .noAuth => .ok none
  | .md5 password | .md5AoFallback password => (keyBytes password).map fun m => some (.md5 m)
  | .ao none => .error .value
  | .ao (some mapping) => mapping.pack.map some

/-- The key a peer signs with once it is installed.  A key of length zero is no key. -/
def Auth.key? (auth : Auth) : Option Key :=
  match auth.pack with
  | .error _ => none
  | .ok (some (.md5 [])) => none
  | .ok key => key

/-- The keys a socket holds, by address. -/
abbrev KeyTable := List (String × Key)

namespace KeyTable

/-- The keys held for one address. -/
def heldFor (table : KeyTable) (text : String) : List Key :=
  (table.filter fun e => e.1 = text).map Prod.snd

def isMd5 : Key → Bool
  | .md5 _ => true
  | .ao .. => false

/-- `clear_md5` -/
def clearMd5 (table : KeyTable) (text : String) : KeyTable :=
  table.filter fun e => !(e.1 = text && isMd5 e.2)

def hasIds (sendId recvId : Int) : Key → Bool
  | .md5 _ => false
  | .ao s r _ _ => s = sendId && r = recvId

/-- `del_ao` -/
def delAo (table : KeyTable) (text : String) (sendId recvId : Int) : KeyTable :=
  table.filter fun e => !(e.1 = text && hasIds sendId recvId e.2)

/-- `set_md5` and `set_ao`, as the kernel takes them: an MD5 key replaces the one before,
and one of length zero asks for its removal. -/
def install (table : KeyTable) (text : String) : Key → Except AuthError KeyTable
  | .md5 [] => if (table.heldFor text).any isMd5 then .ok (table.clearMd5 text) else .error .os
  | .md5 material => .ok (table.clearMd5 text ++ [(text, .md5 material)])
  | .ao sendId recvId material alg => .ok (table ++ [(text, .ao sendId recvId material alg)])

/-- `_apply_auth`.  `refused` says that the kernel takes no key. -/
def applyAuth (table : KeyTable) (text : String) (auth : Auth) (refused : Bool) :
    Except AuthError KeyTable :=
  match auth.pack with
  | .error e => .error e
  | .ok none => .ok table
  | .ok (some key) => if refused then .error .os else table.install text key

/-- `_clear_auth`: what is to go is gone afterwards, or was never there. -/
def clearAuth (table : KeyTable) (text : String) : Auth → KeyTable
  | .noAuth => table
  | .md5 _ | .md5AoFallback _ => table.clearMd5 text
  | .ao none => table
  | .ao (some mapping) => table.delAo text mapping.sendId mapping.recvId

end KeyTable

/-- What is kept about a permitted peer. -/
structure PeerEntry where
  auth : Auth
  gtsmHops : Option Nat
deriving DecidableEq

/-- A SYN: the source as `accept` would report it, and the key it is signed with. -/
structure Syn where
  source : String
  signed : Option Key
deriving DecidableEq

namespace Syn

/-- The canonical address of the source. -/
def text (syn : Syn) : Option String := (splitAddr syn.source).map Prod.snd

end Syn

/-- A completed handshake, with what was configured for its source as it completed. -/
structure Handshake where
  syn : Syn
  configured : Option PeerEntry
deriving DecidableEq

/-- A listening socket: the keys installed on it, and the handshakes that wait for
`accept`. -/
structure KernelSocket where
  keys : KeyTable
  backlog : List Handshake

/-- The kernel completes a handshake when the SYN is signed with a key held for its
source, or unsigned where none is held. -/
def KernelSocket.completes (socket : KernelSocket) (text : String) (syn : Syn) : Bool :=
  match syn.signed with
  | none => (socket.keys.heldFor text).isEmpty
  | some key => (socket.keys.heldFor text).contains key

/-- A connection as it is handed up: its handshake, the entry of its peer, and the keys the
listening socket holds for the peer then. -/
structure AcceptedConn where
  handshake : Handshake
  entry : PeerEntry
  held : Option (List Key)
deriving DecidableEq

def AcceptedConn.authMode (c : AcceptedConn) : AuthMode := c.entry.auth.mode

/-- `taken` is what `accept` returned and is not handed up yet, `handed` what
`on_accept` was called with so far. -/
structure Listener where
  family : AddrFamily
  text : String
  port : Nat
  peers : Dict String PeerEntry
  sock : Option KernelSocket
  taken : List Handshake
  handed : List AcceptedConn

namespace Listener

/-- A listener on an address; `none` is the `ValueError`. -/
def new (bindAddr : String) (port : Nat) : Option Listener :=
  (splitAddr bindAddr).map fun split => ⟨split.1, split.2, port, Dict.empty, none, [], []⟩

/-- A SYN arrives. -/
def arrive (l : Listener) (syn : Syn) : Listener :=
  match l.sock, splitAddr syn.source with
  | some socket, some (family, text) =>
    if family = l.family ∧ socket.completes text syn then
      let done : Handshake := ⟨syn, l.peers.get? text⟩
      { l with sock := some { socket with backlog := socket.backlog ++ [done] } }
    else l
  | _, _ => l

def arrivals (l : Listener) (syns : List Syn) : Listener := syns.foldl arrive l

/-- A peer popped, and its key removed from the socket. -/
def forget (l : Listener) (text : String) : Listener :=
  match l.peers.get? text with
  | none => l
  | some entry =>
    { l with
      peers := l.peers.erase text
      sock := l.sock.map fun socket =>
        { socket with keys := socket.keys.clearAuth text entry.auth } }

/-- The key of a peer on the socket, if one listens. -/
def install (l : Listener) (text : String) (auth : Auth) (refused : Bool) :
    Except AuthError Listener :=
  match l.sock with
  | none => .ok l
  | some socket => do
    let keys ← socket.keys.applyAuth text auth refused
    pure { l with sock := some { socket with keys := keys } }

/-- `add_peer`.  `between` arrives after the old key is gone and before the new one is
there. -/
def addPeer (l : Listener) (addr : String) (entry : PeerEntry) (refused : Bool)
    (between : List Syn) : Listener × Except AuthError String :=
  match splitAddr addr with
  | none => (l, .error .value)
  | some (family, text) =>
    if family ≠ l.family then (l, .error .value)
    else
      let l := (l.forget text).arrivals between
      match l.install text entry.auth refused with
      | .error e => (l, .error e)
      | .ok l => ({ l with peers := l.peers.set text entry }, .ok text)

/-- `remove_peer` -/
def removePeer (l : Listener) (addr : String) : Listener × Bool :=
  match splitAddr addr with
  | none => (l, false)
  | some (_, text) => (l.forget text, l.peers.contains text)

/-- One turn of the loop over the peers permitted before `start`: a key that is refused
is counted and logged. -/
def startPeer (gaps : String → List Syn) (refused : String → Bool) (l : Listener)
    (text : String) : Listener :=
  let l := l.arrivals (gaps text)
  match l.peers.get? text with
  | none => l
  | some entry =>
    match l.install text entry.auth (refused text) with
    | .error _ => l
    | .ok l => l

/-- The peers in the order `start` installs their keys. -/
def startOrder (l : Listener) : List String := l.peers.keys.insertionSort (· ≤ ·)

/-- `start`, up to the accept loop.  `bound` says that the address could be bound,
`gaps text` arrives before the key of `text` is installed. -/
def start (l : Listener) (bound : Bool) (gaps : String → List Syn)
    (refused : String → Bool) : Listener :=
  if l.sock.isSome || !bound then l
  else l.startOrder.foldl (startPeer gaps refused) { l with sock := some ⟨[], []⟩ }

/-- `stop` and `close`.  What waits in the backlog is reset with the socket. -/
def stop (l : Listener) : Listener := { l with sock := none }

/-- `accept` returns the first handshake that waits. -/
def accept (l : Listener) : Listener :=
  match l.sock with
  | none => l
  | some socket =>
    match socket.backlog with
    | [] => l
    | h :: rest =>
      { l with
        sock := some { socket with backlog := rest }
        taken := l.taken ++ [h] }

/-- `_handle_accepted`.  `usable` says that the socket takes its options. -/
def handleAccepted (l : Listener) (usable : Bool) : Listener :=
  match l.taken with
  | [] => l
  | h :: rest =>
    let l := { l with taken := rest }
    match h.syn.text with
    | none => l
    | some text =>
      match l.peers.get? text with
      | none => l
      | some entry =>
        if usable then
          let conn : AcceptedConn := ⟨h, entry, l.sock.map fun socket => socket.keys.heldFor text⟩
          { l with handed := l.handed ++ [conn] }
        else l

inductive Event where
  | addPeer (addr : String) (entry : PeerEntry) (refused : Bool) (between : List Syn)
  | removePeer (addr : String)
  | start (bound : Bool) (gaps : String → List Syn) (refused : String → Bool)
  | stop
  | syn (syn : Syn)
  | accept
  | handle (usable : Bool)

def step (l : Listener) : Event → Listener
  | .addPeer addr entry refused between => (l.addPeer addr entry refused between).1
  | .removePeer addr => (l.removePeer addr).1
  | .start bound gaps refused => l.start bound gaps refused
  | .stop => l.stop
  | .syn syn => l.arrive syn
  | .accept => l.accept
  | .handle usable => l.handleAccepted usable

def run (l : Listener) (events : List Event) : Listener := events.foldl step l

end Listener

end Packets
