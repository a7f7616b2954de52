/-
Next-hop resolution (`rib/resolver.py`): is an address usable to forward to?

Static entries, routes imported from the kernel and the engine's winning routes are consulted
in this order.  The first two have one origin each.
-/
import Packets.Rib.Address
import Packets.Rib.RouteTable

namespace Packets

namespace Rib

/-- Recursive lookups allowed beyond the first. -/
def MAX_DEPTH : Nat := 4

def PROTO_UNSPEC : Nat := 0
def PROTO_STATIC : Nat := 2

/-- What an imported kernel route is offered with. -/
def KERNEL_PROTOCOL : Nat := PROTO_UNSPEC
def KERNEL_DISTANCE : Nat := 255

/-- Which table answered. -/
inductive LookupSource where
  | static
  | kernel
  | rib
deriving DecidableEq

/-- The answer to one next-hop lookup. -/
structure Resolution where
  pfx : Prefix
  nexthop : Bytes
  metric : Nat
  source : LookupSource
deriving DecidableEq

/-- The body of one entry of the `ip.route.static` section, which its schema bounds. -/
structure StaticEntry where
  nextHop : String
  distance : UInt8
  metric : UInt32

/-- What the resolver reads of a route in a kernel dump.  A family the engine does not
know has no prefix. -/
structure KernelRoute where
  pfx : Option Prefix
  gateway : Bytes
  priority : UInt32

/-- `(prefix, next hop, distance, metric)`, as a section is parsed. -/
abbrev StaticRow := Prefix × Bytes × Nat × Nat

structure Resolver where
  globalRib : Option GlobalRib
  useRib : Bool
  enabled : Bool
  kernelImport : Bool
  resolveViaDefault : Bool
  static : Dict Nat RouteTable
  kernel : Dict Nat RouteTable
  generation : Nat
  staticSignature : Option (List StaticRow)

namespace Resolver

/-- An empty table for each address family. -/
def freshTables : Dict Nat RouteTable :=
  (Dict.empty.set AFI_IP (RouteTable.new AFI_IP SAFI_UNICAST)).set AFI_IP6
    (RouteTable.new AFI_IP6 SAFI_UNICAST)

/-- The constructor, with the defaults of its other arguments. -/
def new (globalRib : Option GlobalRib) : Resolver :=
  ⟨globalRib, true, false, false, false, freshTables, freshTables, 0, none⟩

/-- A knob moves `generation` when its value changes. -/
def setEnabled (s : Resolver) (value : Bool) : Resolver :=
  if s.enabled = value then s
  else { s with enabled := value, generation := s.generation + 1 }

def setKernelImport (s : Resolver) (value : Bool) : Resolver :=
  if s.kernelImport = value then s
  else { s with kernelImport := value, generation := s.generation + 1 }

def setResolveViaDefault (s : Resolver) (value : Bool) : Resolver :=
  if s.resolveViaDefault = value then s
  else { s with resolveViaDefault := value, generation := s.generation + 1 }

/-- `_pack_nexthop` on text: a bare address, or nothing. -/
def packNexthop (text : String) : Option Bytes :=
  if text = "" then some []
  else
    match parsePrefix text with
    | none => none
    | some p => if p.plen = pfxAddrBits p.afi then some p.addr else none

def staticRoute (row : StaticRow) : Route :=
  ⟨0, row.1, PROTO_STATIC, row.2.2.1, row.2.2.2, row.2.1, 0, 0⟩

/-- Offer a route to the table of its family; one without a table, a `ValueError` in the code,
has no prefixes. -/
def offerTo (tables : Dict Nat RouteTable) (r : Route) : Dict Nat RouteTable :=
  match tables.get? r.pfx.afi with
  | none => tables
  | some table =>
    match table.offer r with
    | none => tables
    | some table => tables.set r.pfx.afi table

def reselectAll (tables : Dict Nat RouteTable) : Dict Nat RouteTable :=
  tables.mapValues fun _ table => (table.reselect 0).1

/-- `add_static`, of a prefix and a next hop as text.  `none` is its `ValueError`. -/
def addStatic (s : Resolver) (text : String) (entry : StaticEntry) : Option Resolver :=
  match parsePrefix text, packNexthop entry.nextHop with
  | some p, some packed =>
    let route := staticRoute (p, packed, entry.distance.toNat, entry.metric.toNat)
    match (offerTo s.static route).get? p.afi with
    | none => none
    | some table =>
      some { s with
        static := (offerTo s.static route).set p.afi (table.reselect 0).1
        staticSignature := none
        generation := s.generation + 1 }
  | _, _ => none

/-- `remove_static`.  `none` is the `ValueError` of its text. -/
def removeStatic (s : Resolver) (text : String) : Option Resolver :=
  (parsePrefix text).map fun p =>
    match s.static.get? p.afi with
    | none => s
    | some table =>
      let s := { s with
        static := s.static.set p.afi ((table.retract p PROTO_STATIC 0).reselect 0).1 }
      if table.retracts p PROTO_STATIC 0 then
        { s with staticSignature := none, generation := s.generation + 1 }
      else s

/-- One entry of a section, parsed. -/
def parseStatic (item : String × StaticEntry) : Option StaticRow :=
  match parsePrefix item.1, packNexthop item.2.nextHop with
  | some p, some packed => some (p, packed, item.2.distance.toNat, item.2.metric.toNat)
  | _, _ => none

/-- `load_static`: replace every static entry.  `none` is the `ValueError` of an entry,
and nothing is changed.  Two signatures are the rows, sorted. -/
def loadStatic (s : Resolver) (entries : List (String × StaticEntry)) : Option Resolver :=
  (entries.mapM parseStatic).map fun rows =>
    let static := reselectAll ((rows.map staticRoute).foldl offerTo freshTables)
    if s.staticSignature.any fun old => old.isPerm rows then { s with static := static }
    else
      { s with
        static := static
        staticSignature := some rows
        generation := s.generation + 1 }

/-- Widths `Route` takes a next hop of. -/
def nexthopWidths : List Nat := [0, 4, 16]

def kernelRoute (found : Prefix × KernelRoute) : Route :=
  ⟨0, found.1, KERNEL_PROTOCOL, KERNEL_DISTANCE, found.2.priority.toNat, found.2.gateway, 0, 0⟩

/-- `load_kernel`, once the dump has been read, and whether the call returned.  A gateway `Route`
refuses ends it, the routes before it offered and none selected. -/
def loadKernel (s : Resolver) (found : List KernelRoute) : Resolver × Bool :=
  if !s.kernelImport then (s, false)
  else
    let parsed := found.filterMap fun k => k.pfx.map fun p => (p, k)
    let fits := fun item : Prefix × KernelRoute => decide (item.2.gateway.length ∈ nexthopWidths)
    let tables := ((parsed.takeWhile fits).map kernelRoute).foldl offerTo freshTables
    if parsed.all fits then
      ({ s with kernel := reselectAll tables, generation := s.generation + 1 }, true)
    else ({ s with kernel := tables }, false)

/-- `clear_kernel`. -/
def clearKernel (s : Resolver) : Resolver :=
  let dropped := (s.kernel.values.map RouteTable.routeCount).sum
  { s with
    kernel := freshTables
    generation := if dropped ≠ 0 then s.generation + 1 else s.generation }

/-- `_covering`: the longest destination that may answer for an address, or for a
prefix of a length.  The outer `none` is a `ValueError`. -/
def covering (s : Resolver) (table : RouteTable) (afi : Nat) (addr : Bytes)
    (plen : Option Nat) : Option (Option Dest) :=
  let first :=
    match plen with
    | none => table.lpmAddr addr
    | some plen => (Prefix.new afi plen addr).map table.lpm
  match first with
  | none => none
  | some dest =>
    table.shorterCover afi addr
      (fun dest => dest.best.isSome && (dest.pfx.plen ≠ 0 || s.resolveViaDefault))
      (pfxAddrBits afi + 2) dest

/-- Whether an engine route may vouch for a next hop of the asking protocol. -/
def usable (s : Resolver) (protocol : Option Nat) (route : Route) : Bool :=
  protocol ≠ some route.protocol && (0 < route.pfx.plen || s.resolveViaDefault)

/-- One of the two tables `_step` searches itself: the destination found, with its
winner. -/
def stepTable (s : Resolver) (tables : Dict Nat RouteTable) (afi : Nat) (addr : Bytes) :
    Option (Option (Prefix × Route)) :=
  match tables.get? afi with
  | none => some none
  | some table =>
    (s.covering table afi addr none).map fun found =>
      found.bind fun dest => dest.best.map fun route => (dest.pfx, route)

/-- The engine's part of `_step`. -/
def stepRib (s : Resolver) (afi : Nat) (addr : Bytes) (protocol : Option Nat) :
    Option (Option Route) :=
  match s.useRib, s.globalRib with
  | true, some g => g.lpm afi addr SAFI_UNICAST (some (s.usable protocol))
  | _, _ => some none

/-- `_step`: one lookup, in source order. -/
def step (s : Resolver) (afi : Nat) (addr : Bytes) (protocol : Option Nat) :
    Option (Option (LookupSource × Prefix × Route)) :=
  match s.stepTable s.static afi addr with
  | none => none
  | some (some found) => some (some (.static, found))
  | some none =>
    match s.stepTable s.kernel afi addr with
    | none => none
    | some (some found) => some (some (.kernel, found))
    | some none =>
      (s.stepRib afi addr protocol).map fun route => route.map fun route => (.rib, route.pfx, route)

/-- The body of `_resolve`.  `next` is the recursive call, which answers nothing when
there are no more levels. -/
def resolveVia (s : Resolver) (protocol : Option Nat)
    (next : Nat → Bytes → List (Nat × Prefix) → Option (Option Resolution)) (afi : Nat)
    (addr : Bytes) (seen : List (Nat × Prefix)) : Option (Option Resolution) :=
  match s.step afi addr protocol with
  | none => none
  | some none => some none
  | some (some (source, pfx, route)) =>
    let answer : Resolution := ⟨pfx, route.nexthop, route.metric, source⟩
    if source = .rib ∧ route.nexthop ≠ [] then
      if (afi, pfx) ∈ seen then some none
      else
        let nhAfi := if route.nexthop.length = 4 then AFI_IP else AFI_IP6
        -- A route that cannot be reached is not passed over for a shorter one.
        (next nhAfi route.nexthop ((afi, pfx) :: seen)).map fun found => found.map fun _ => answer
    else some (some answer)

/-- `_resolve`, with the number of levels left below this one. -/
def resolveFrom (s : Resolver) (protocol : Option Nat) :
    Nat → Nat → Bytes → List (Nat × Prefix) → Option (Option Resolution)
  | 0 => s.resolveVia protocol fun _ _ _ => some none
  | left + 1 => s.resolveVia protocol (s.resolveFrom protocol left)

/-- `resolve`.  The outer `none` is its `ValueError`. -/
def resolve (s : Resolver) (afi : Nat) (addr : Bytes) (protocol : Option Nat) :
    Option (Option Resolution) :=
  if pfxAddrLen afi = 0 ∨ addr.length ≠ pfxAddrLen afi then none
  else s.resolveFrom protocol MAX_DEPTH afi addr []

end Resolver

end Rib

end Packets
