/-
The path-compressed radix trie (`rib/trie.pyx`).

Nodes are cells of a heap; a freed cell is one nothing in use points at.  A walk is given more
turns than it takes.
-/
import Packets.Lib.Dict
import Packets.Rib.PrefixBits

namespace Packets

abbrev NodeId := Nat

structure TrieNode (V : Type) where
  addr : Bytes
  plen : Nat
  isReal : Bool
  parent : Option NodeId
  /-- The subtree of each value of the bit after `plen`. -/
  child : Bool → Option NodeId
  value : Option V

structure Trie (V : Type) where
  afi : Nat
  root : Option NodeId
  heap : Heap (TrieNode V)
  /-- Real entries. -/
  count : Nat
  /-- Allocated nodes, glue included. -/
  nodes : Nat

variable {V : Type}

/-- A node that holds no value and is linked to none. -/
def TrieNode.blank (addr : Bytes) (plen : Nat) : TrieNode V where
  addr := addr
  plen := plen
  isReal := false
  parent := none
  child := fun _ => none
  value := none

namespace Trie

/-- An empty trie of one family; `none` is the `ValueError` of an unknown one. -/
def new (afi : Nat) : Option (Trie V) :=
  if pfxAddrLen afi = 0 then none
  else some ⟨afi, none, ⟨0, fun _ => .blank [] 0⟩, 0, 0⟩

def alen (t : Trie V) : Nat := pfxAddrLen t.afi

def abits (t : Trie V) : Nat := pfxAddrBits t.afi

def cell (t : Trie V) (n : NodeId) : TrieNode V := t.heap.cell n

/-- `_alloc`: a node of a masked prefix, linked to none. -/
def alloc (t : Trie V) (addr : Bytes) (plen : Nat) : Trie V × NodeId :=
  ({ t with
      heap := t.heap.alloc (.blank (pfxMask plen addr) plen)
      nodes := t.nodes + 1 }, t.heap.next)

def setParent (t : Trie V) (n : NodeId) (parent : Option NodeId) : Trie V :=
  { t with heap := t.heap.write n { t.cell n with parent := parent } }

def setChild (t : Trie V) (n : NodeId) (b : Bool) (c : Option NodeId) : Trie V :=
  { t with heap := t.heap.write n { t.cell n with
      child := fun d => if d = b then c else (t.cell n).child d } }

/-- Write the pointer a descent towards an address came by: the root, or the branch of
the parent. -/
def relink (t : Trie V) (parent : Option NodeId) (addr : Bytes) (c : Option NodeId) : Trie V :=
  match parent with
  | none => { t with root := c }
  | some p => t.setChild p (pfxBit addr (t.cell p).plen) c

/-- `trie_node_value`. -/
def nodeValue (t : Trie V) (n : Option NodeId) : Option V := n.bind fun n => (t.cell n).value

/-- The loop of `node_exact`. -/
def exactLoop (t : Trie V) (addr : Bytes) (plen : Nat) : Nat → Option NodeId → Option NodeId
  | 0, _ => none
  | _, none => none
  | fuel + 1, some n =>
    let node := t.cell n
    if plen < node.plen then none
    else if !pfxMatch node.addr node.plen addr then none
    else if node.plen = plen then if node.isReal then some n else none
    else exactLoop t addr plen fuel (node.child (pfxBit addr node.plen))

/-- `node_exact`: the real node of exactly a prefix. -/
def nodeExact (t : Trie V) (addr : Bytes) (plen : Nat) : Option NodeId :=
  t.exactLoop addr plen (t.abits + 1) t.root

/-- The loop of `node_lpm`. -/
def lpmLoop (t : Trie V) (addr : Bytes) (plen : Nat) :
    Nat → Option NodeId → Option NodeId → Option NodeId
  | 0, _, best => best
  | _, none, best => best
  | fuel + 1, some n, best =>
    let node := t.cell n
    if plen < node.plen then best
    else if !pfxMatch node.addr node.plen addr then best
    else
      let best := if node.isReal then some n else best
      if node.plen = plen then best
      else lpmLoop t addr plen fuel (node.child (pfxBit addr node.plen)) best

/-- `node_lpm`: the longest real node that covers a prefix. -/
def nodeLpm (t : Trie V) (addr : Bytes) (plen : Nat) : Option NodeId :=
  t.lpmLoop addr plen (t.abits + 1) t.root none

/-- Where the descent of `node_intern` ends: at the node of the prefix, or below a
parent, with a node in the way or with none. -/
inductive Descent where
  | found (n : NodeId)
  | stopped (parent n : Option NodeId)

/-- The loop of `node_intern`. -/
def descend (t : Trie V) (addr : Bytes) (plen : Nat) : Nat → Option NodeId → Option NodeId → Descent
  | 0, parent, n => .stopped parent n
  | _, parent, none => .stopped parent none
  | fuel + 1, parent, some n =>
    let node := t.cell n
    if node.plen ≤ plen ∧ pfxMatch node.addr node.plen addr then
      if node.plen = plen then .found n
      else descend t addr plen fuel (some n) (node.child (pfxBit addr node.plen))
    else .stopped parent (some n)

/-- Nothing in the way: a new node off the last match. -/
def hangNew (t : Trie V) (addr : Bytes) (plen : Nat) (parent : Option NodeId) : Trie V × NodeId :=
  let (t, fresh) := t.alloc addr plen
  let t := t.setParent fresh parent
  (t.relink parent addr (some fresh), fresh)

/-- The new prefix covers the node in the way, and goes above it. -/
def insertAbove (t : Trie V) (addr : Bytes) (plen : Nat) (parent : Option NodeId)
    (n : NodeId) : Trie V × NodeId :=
  let (t, fresh) := t.alloc addr plen
  let t := t.setParent fresh parent
  let t := t.setChild fresh (pfxBit (t.cell n).addr plen) (some n)
  let t := t.relink parent addr (some fresh)
  (t.setParent n (some fresh), fresh)

/-- The two diverge: a glue node holds them apart. -/
def splitAt (t : Trie V) (addr : Bytes) (plen : Nat) (parent : Option NodeId) (n : NodeId)
    (common : Nat) : Trie V × NodeId :=
  let (t, glue) := t.alloc addr common
  let (t, fresh) := t.alloc addr plen
  let t := t.setParent glue parent
  let t := t.setChild glue (pfxBit (t.cell n).addr common) (some n)
  let t := t.setChild glue (pfxBit addr common) (some fresh)
  let t := t.setParent n (some glue)
  let t := t.setParent fresh (some glue)
  (t.relink parent addr (some glue), fresh)

/-- `node_intern`: the node of a prefix, created when there is none. -/
def nodeIntern (t : Trie V) (addr : Bytes) (plen : Nat) : Trie V × NodeId :=
  match t.descend addr plen (t.abits + 1) none t.root with
  | .found n => (t, n)
  | .stopped parent none => t.hangNew addr plen parent
  | .stopped parent (some n) =>
    let node := t.cell n
    let common := min (min (pfxCommonBits t.alen node.addr addr) node.plen) plen
    if common = plen then t.insertAbove addr plen parent n
    else t.splitAt addr plen parent n common

/-- `set_value`. -/
def setValue (t : Trie V) (n : NodeId) (v : V) : Trie V :=
  { t with
    count := if (t.cell n).value.isNone then t.count + 1 else t.count
    heap := t.heap.write n { t.cell n with value := some v, isReal := true } }

/-- `_release`. -/
def release (t : Trie V) (n : NodeId) : Trie V :=
  { t with heap := t.heap.write n { t.cell n with value := none, isReal := false } }

/-- Hand a node's child, if it has one, to the node's parent. -/
def adopt (t : Trie V) (child parent : Option NodeId) : Trie V :=
  match child with
  | some c => t.setParent c parent
  | none => t

/-- Put the child where the node's parent points at the node. -/
def replace (t : Trie V) (n : NodeId) (parent child : Option NodeId) : Trie V :=
  match parent with
  | none => { t with root := child }
  | some p => t.setChild p (decide ((t.cell p).child false ≠ some n)) child

/-- One node of `_prune` given up: its child, if it has one, takes its place. -/
def unlink (t : Trie V) (n : NodeId) (child : Option NodeId) : Trie V :=
  let parent := (t.cell n).parent
  let t := (t.adopt child parent).replace n parent child
  { t with nodes := t.nodes - 1 }

/-- `_prune`: free a chain of glue nodes that hold no two subtrees apart. -/
def prune : Nat → Trie V → Option NodeId → Trie V
  | 0, t, _ => t
  | _, t, none => t
  | fuel + 1, t, some n =>
    let node := t.cell n
    if node.isReal then t
    else if (node.child false).isSome ∧ (node.child true).isSome then t
    else
      let child := (node.child false).or (node.child true)
      let t := t.unlink n child
      if child.isSome then t else prune fuel t node.parent

/-- `clear_value`: remove a node's value, and the node if it is redundant. -/
def clearValue (t : Trie V) (n : NodeId) : Trie V :=
  if (t.cell n).value.isNone then t
  else
    let t := t.release n
    prune (t.abits + 1) { t with count := t.count - 1 } (some n)

/-- `insert`: store a value, returning the previous one.  `none` is the `ValueError`
of another family. -/
def insert (t : Trie V) (p : Prefix) (v : V) : Option (Trie V × Option V) :=
  if p.afi ≠ t.afi then none
  else
    let (t, n) := t.nodeIntern p.addr p.plen
    let previous := t.nodeValue (some n)
    some (t.setValue n v, previous)

/-- `get`: the value stored under exactly a prefix. -/
def get (t : Trie V) (p : Prefix) : Option V :=
  if p.afi ≠ t.afi then none else t.nodeValue (t.nodeExact p.addr p.plen)

/-- `lpm`: the value of the longest prefix that covers one. -/
def lpm (t : Trie V) (p : Prefix) : Option V :=
  if p.afi ≠ t.afi then none else t.nodeValue (t.nodeLpm p.addr p.plen)

/-- `lpm_entry`: also the prefix that matched.  A component that is `none` is the
`ValueError` of `pfx_new`, or a node without a value. -/
def lpmEntry (t : Trie V) (p : Prefix) : Option (Option Prefix × Option V) :=
  if p.afi ≠ t.afi then none
  else
    (t.nodeLpm p.addr p.plen).map fun n =>
      (pfxNew t.afi (t.cell n).plen (t.cell n).addr, t.nodeValue (some n))

/-- `lpm_addr`: resolve a host address.  `none` is the `ValueError` of another width. -/
def lpmAddr (t : Trie V) (addr : Bytes) : Option (Option V) :=
  if addr.length ≠ t.alen then none else some (t.nodeValue (t.nodeLpm addr t.abits))

/-- `remove`: remove a prefix, returning the value it held. -/
def remove (t : Trie V) (p : Prefix) : Trie V × Option V :=
  if p.afi ≠ t.afi then (t, none)
  else
    match t.nodeExact p.addr p.plen with
    | none => (t, none)
    | some n => (t.clearValue n, t.nodeValue (some n))

/-- `size`, `__len__`. -/
def size (t : Trie V) : Nat := t.count

/-- `clear`: every node is freed. -/
def clear (t : Trie V) : Trie V := { t with root := none, count := 0, nodes := 0 }

end Trie

end Packets
