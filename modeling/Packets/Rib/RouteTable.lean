/-
The protocol-neutral route table (`rib/table.pyx`) and the cross-protocol RIB
(`rib/globalrib.py`).

Destinations are shared by the trie and the change queue, so they are kept in a heap.
`calls` records what the sink was told, with the table whose selection led to it.
-/
import Mathlib.Data.List.MinMax
import Packets.Lib.Preference
import Packets.Rib.Prefix
import Packets.Lib.BigEndian

namespace Packets

namespace Rib

/-- One protocol's candidate for one prefix.  `oid` is the object, `source` the
offering plugin's token. -/
structure Route where
  oid : Nat
  pfx : Prefix
  protocol : Nat
  adminDistance : Nat
  metric : Nat
  nexthop : Bytes
  source : Nat
  recvTime : Int
deriving DecidableEq

/-- `same_origin`: whether a route would replace another. -/
def Route.isFrom (r : Route) (protocol source : Nat) : Bool :=
  r.protocol == protocol && r.source == source

/-- `_same_content`: everything selection and a sink can see but the age. -/
def sameContent (a b : Route) : Bool :=
  a.adminDistance == b.adminDistance && a.metric == b.metric && a.nexthop == b.nexthop

/-- `route_cmp`: negative if `a` is preferred. -/
def routeCmp (a b : Route) : Int :=
  if a.adminDistance ≠ b.adminDistance then
    if a.adminDistance < b.adminDistance then -1 else 1
  else if a.metric ≠ b.metric then
    if a.metric < b.metric then -1 else 1
  else if a.protocol ≠ b.protocol then
    if a.protocol < b.protocol then -1 else 1
  else if a.recvTime ≠ b.recvTime then
    if a.recvTime < b.recvTime then -1 else 1
  else 0

/-- Every route offered for one prefix, and the current winner. -/
structure Dest where
  pfx : Prefix
  routes : List Route
  best : Option Route
  queued : Bool

def Dest.new (pfx : Prefix) : Dest := ⟨pfx, [], none, false⟩

/-- `0.0.0.0/0`, what the unused cells of a heap are for. -/
instance : Inhabited Prefix := ⟨.ipv4 0 0 0 0 0⟩

/-- `_select`: a linear scan in which ties keep the earlier route. -/
def selectRoute (routes : List Route) : Option Route :=
  routes.foldl
    (fun best r =>
      match best with
      | none => some r
      | some b => if routeCmp r b < 0 then some r else some b) none

structure RouteTable where
  afi : Nat
  safi : Nat
  heap : Heap Dest
  trie : Dict Prefix Nat
  routeCount : Nat
  queue : List Nat

namespace RouteTable

def new (afi safi : Nat) : RouteTable :=
  ⟨afi, safi, ⟨0, fun _ => Dest.new default⟩, Dict.empty, 0, []⟩

def cell (t : RouteTable) (d : Nat) : Dest := t.heap.cell d

def setDest (t : RouteTable) (d : Nat) (dest : Dest) : RouteTable :=
  { t with heap := t.heap.write d dest }

/-- `_enqueue`: mark a destination dirty, once. -/
def enqueue (t : RouteTable) (d : Nat) : RouteTable :=
  if (t.cell d).queued then t
  else { t.setDest d { t.cell d with queued := true } with queue := t.queue ++ [d] }

/-- `dest`: the destination of a prefix, created and queued if needed.  `none` is the
`ValueError` of a prefix of another family. -/
def dest (t : RouteTable) (pfx : Prefix) : Option (RouteTable × Nat) :=
  if pfx.afi ≠ t.afi then none
  else
    match t.trie.get? pfx with
    | some d => some (t, d)
    | none =>
      let created := { t with
        heap := t.heap.alloc (Dest.new pfx)
        trie := t.trie.set pfx t.heap.next }
      some (created.enqueue t.heap.next, t.heap.next)

/-- The longest entry of a trie that covers an address, among those up to a length. -/
def longestCover (t : RouteTable) (plen : Nat) (addr : Bytes) : Option (Prefix × Nat) :=
  (t.trie.entries.filter fun e =>
    decide (e.1.afi = t.afi ∧ e.1.plen ≤ plen ∧ pfxMask e.1.plen addr = e.1.addr)).argmax
    fun e => e.1.plen

/-- `lpm`: the destination of the longest prefix that covers one. -/
def lpm (t : RouteTable) (p : Prefix) : Option Dest :=
  if p.afi ≠ t.afi then none
  else (t.longestCover p.plen p.addr).map fun e => t.cell e.2

/-- `lpm_addr`.  `none` is the `ValueError` of an address of another width. -/
def lpmAddr (t : RouteTable) (addr : Bytes) : Option (Option Dest) :=
  if addr.length ≠ pfxAddrLen t.afi then none
  else some ((t.longestCover (pfxAddrBits t.afi) addr).map fun e => t.cell e.2)

/-- From a cover to shorter ones until a test passes: the loop of `_covering` and of `lpm`.  The
outer `none` is the `ValueError` of a prefix, or a loop not finished. -/
def shorterCover (t : RouteTable) (afi : Nat) (addr : Bytes) (accept : Dest → Bool) :
    Nat → Option Dest → Option (Option Dest)
  | 0, _ => none
  | _ + 1, none => some none
  | fuel + 1, some dest =>
    if accept dest then some (some dest)
    else if dest.pfx.plen = 0 then some none
    else
      match Prefix.new afi (dest.pfx.plen - 1) addr with
      | none => none
      | some p => shorterCover t afi addr accept fuel (t.lpm p)

/-- Put a route in the place of the one of the same origin. -/
def replaceOffer (r : Route) : List Route → List Route
  | [] => []
  | old :: rest => if old.isFrom r.protocol r.source then r :: rest else old :: replaceOffer r rest

/-- `offer`: an identical re-offer keeps the route already held. -/
def offer (t : RouteTable) (r : Route) : Option RouteTable :=
  match t.dest r.pfx with
  | none => none
  | some (t, d) =>
    let routes := (t.cell d).routes
    match routes.find? fun old => old.isFrom r.protocol r.source with
    | some old =>
      if sameContent old r then some t
      else
        some ((t.setDest d { t.cell d with routes := replaceOffer r routes }).enqueue d)
    | none =>
      let t := { t.setDest d { t.cell d with routes := routes ++ [r] } with
        routeCount := t.routeCount + 1 }
      some (t.enqueue d)

/-- `retract`. -/
def retract (t : RouteTable) (pfx : Prefix) (protocol source : Nat) : RouteTable :=
  match t.trie.get? pfx with
  | none => t
  | some d =>
    let routes := (t.cell d).routes
    match routes.find? fun r => r.isFrom protocol source with
    | none => t
    | some _ =>
      let t := { t.setDest d { t.cell d with
          routes := routes.eraseP fun r => r.isFrom protocol source } with
        routeCount := t.routeCount - 1 }
      t.enqueue d

/-- What `retract` returns: whether there was a route to withdraw. -/
def retracts (t : RouteTable) (pfx : Prefix) (protocol source : Nat) : Bool :=
  match t.trie.get? pfx with
  | none => false
  | some d => (t.cell d).routes.any fun r => r.isFrom protocol source

def pending (t : RouteTable) : Nat := t.queue.length

/-- The body of `reselect` for one destination taken off the queue, with the
destinations whose winner changed. -/
def reselectDest (acc : RouteTable × List Nat) (d : Nat) : RouteTable × List Nat :=
  let dest := acc.1.cell d
  let winner := selectRoute dest.routes
  let t := acc.1.setDest d { dest with best := winner, queued := false }
  let t := if winner = none ∧ dest.routes = [] then { t with trie := t.trie.erase dest.pfx } else t
  (t, if winner ≠ dest.best then acc.2 ++ [d] else acc.2)

/-- `reselect`: re-run selection for up to `limit` queued destinations, all of them
when the limit is 0 or less. -/
def reselect (t : RouteTable) (limit : Int) : RouteTable × List Nat :=
  let count := if limit ≤ 0 then t.queue.length else min limit.toNat t.queue.length
  (t.queue.take count).foldl reselectDest ({ t with queue := t.queue.drop count }, [])

end RouteTable

inductive SinkCall where
  | install (route : Route)
  | withdraw (route : Route)
deriving DecidableEq

structure GlobalRib where
  tables : Dict Family RouteTable
  published : Dict (Family × Prefix) Route
  calls : List (Family × SinkCall)

namespace GlobalRib

/-- `ensure_table`.  `none` is the `ValueError` of an unknown family. -/
def ensureTable (g : GlobalRib) (key : Family) : Option (GlobalRib × RouteTable) :=
  if pfxAddrLen key.1 = 0 then none
  else
    match g.tables.get? key with
    | some table => some (g, table)
    | none =>
      let table := RouteTable.new key.1 key.2
      some ({ g with tables := g.tables.set key table }, table)

def empty : GlobalRib := ⟨Dict.empty, Dict.empty, []⟩

/-- The constructor, which creates a table for each pair it is given. -/
def new (afiSafi : List Family) : Option GlobalRib :=
  afiSafi.foldlM (fun g key => (g.ensureTable key).map Prod.fst) empty

/-- `offer`.  `none` is its `ValueError`. -/
def offer (g : GlobalRib) (route : Route) (safi : Nat) : Option GlobalRib :=
  match g.ensureTable (route.pfx.afi, safi) with
  | none => none
  | some (g, table) =>
    (table.offer route).map fun table =>
      { g with tables := g.tables.set (route.pfx.afi, safi) table }

/-- `retract`. -/
def retract (g : GlobalRib) (pfx : Prefix) (protocol source safi : Nat) : GlobalRib :=
  match g.tables.get? (pfx.afi, safi) with
  | none => g
  | some table =>
    { g with
      tables := g.tables.set (pfx.afi, safi) (table.retract pfx protocol source) }

/-- The order of prefixes (`pfx_cmp`), in which a table is iterated. -/
def pfxLe (a b : Prefix) : Bool :=
  decide (Preference.compareRanks [(a.afi : Int), BigEndian.toNat a.addr, a.plen]
    [(b.afi : Int), BigEndian.toNat b.addr, b.plen] ≤ 0)

/-- The body of `retract_all` for one table. -/
def retractEach (protocol source : Nat) (table : RouteTable) : RouteTable :=
  (table.trie.keys.insertionSort (pfxLe · ·)).foldl
    (fun table pfx => table.retract pfx protocol source) table

/-- `retract_all`. -/
def retractAll (g : GlobalRib) (protocol source : Nat) : GlobalRib :=
  { g with tables := g.tables.mapValues fun _ table => retractEach protocol source table }

/-- `lpm`: the winning route of the longest cover, or of the longest whose winner a test
accepts.  The outer `none` is a `ValueError`. -/
def lpm (g : GlobalRib) (afi : Nat) (addr : Bytes) (safi : Nat)
    (accept : Option (Route → Bool)) : Option (Option Route) :=
  match g.tables.get? (afi, safi) with
  | none => some none
  | some table =>
    match table.lpmAddr addr, accept with
    | none, _ => none
    | some dest, none => some (dest.bind Dest.best)
    | some dest, some accept =>
      -- Each cover is shorter than the one before it.
      (table.shorterCover afi addr (fun dest => dest.best.any accept)
        (pfxAddrBits afi + 2) dest).map fun dest => dest.bind Dest.best

/-- `pending`. -/
def pending (g : GlobalRib) : Nat := (g.tables.values.map RouteTable.pending).sum

/-- The body of `_publish` for one destination whose winner changed. -/
def publishDest (key : Family) (g : GlobalRib) (dest : Dest) : GlobalRib :=
  match dest.best with
  | none =>
    match g.published.get? (key, dest.pfx) with
    | none => g
    | some previous =>
      { g with
        published := g.published.erase (key, dest.pfx)
        calls := g.calls ++ [(key, .withdraw previous)] }
  | some best =>
    { g with
      published := g.published.set (key, dest.pfx) best
      calls := g.calls ++ [(key, .install best)] }

/-- The body of `select_step` for one table, with the number of destinations
examined. -/
def selectTable (chunk : Int) (acc : GlobalRib × Nat) (key : Family) : GlobalRib × Nat :=
  match acc.1.tables.get? key with
  | none => acc
  | some table =>
    if table.pending = 0 then acc
    else
      let selected := table.reselect chunk
      let g := { acc.1 with tables := acc.1.tables.set key selected.1 }
      ((selected.2.map selected.1.cell).foldl (publishDest key) g,
        acc.2 + (table.pending - selected.1.pending))

/-- `select_step`. -/
def selectStep (g : GlobalRib) (chunk : Int) : GlobalRib × Nat :=
  g.tables.keys.foldl (selectTable chunk) (g, 0)

/-- The loop of `select`: steps until one examines nothing. -/
def selectLoop (chunk : Int) : Nat → GlobalRib → GlobalRib
  | 0, g => g
  | fuel + 1, g =>
    if (g.selectStep chunk).2 = 0 then (g.selectStep chunk).1
    else selectLoop chunk fuel (g.selectStep chunk).1

/-- `select`.  Each step but the last examines a destination. -/
def select (g : GlobalRib) (limit : Int) : GlobalRib :=
  selectLoop (if limit > 0 then limit else 2 ^ 30) (g.pending + 1) g

end GlobalRib

end Rib

end Packets
