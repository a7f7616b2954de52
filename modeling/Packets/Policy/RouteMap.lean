/-
AS-path access-lists (`policy/aspath.py`) and route-maps (`policy/routemap.py`).

What a regular expression finds is a parameter of the lists.  The lists a clause names are
looked up on every application, so an edit of a list changes what a map does.
-/
import Packets.Policy.PrefixList
import Packets.Bgp.Attrs

namespace Packets

/-- Compiling a pattern and searching a text with it. -/
structure RegexEngine where
  compiles : String → Bool
  search : String → String → Bool

structure AsPathListEntry where
  seq : Nat
  action : Action
  pattern : String
deriving DecidableEq

/-- `AsPathMatcher`: a non-empty pattern that compiles. -/
def asPathPattern (rx : RegexEngine) (pattern : Json) : Option String :=
  match pattern.str? with
  | some text => if text ≠ "" ∧ rx.compiles text then some text else none
  | none => none

/-- The constructor of an entry; `none` is its `ValueError`. -/
def AsPathListEntry.new (rx : RegexEngine) (seq action pattern : Json) :
    Option AsPathListEntry := do
  let seq ← seqNumber seq
  let action ← actionId action
  let pattern ← asPathPattern rx pattern
  some ⟨seq, action, pattern⟩

structure AsPathList where
  version : Nat
  entries : List AsPathListEntry

namespace AsPathList

def new : AsPathList := ⟨0, []⟩

def add (l : AsPathList) (entry : AsPathListEntry) : AsPathList :=
  ⟨l.version + 1, Sequenced.insert AsPathListEntry.seq entry l.entries⟩

/-- `clear`: drop every entry, keeping the version line. -/
def clear (l : AsPathList) : AsPathList :=
  ⟨if l.entries.isEmpty then l.version else l.version + 1, []⟩

/-- `evaluate`: the first entry whose regex matches decides. -/
def evaluate (rx : RegexEngine) (l : AsPathList) (path : String) : Option Action :=
  (l.entries.find? fun e => rx.search e.pattern path).map AsPathListEntry.action

def permits (rx : RegexEngine) (l : AsPathList) (path : String) : Bool :=
  l.evaluate rx path == some .permit

end AsPathList

def UINT32_MAX : Int := 0xffffffff

/-- `_origin_id`. -/
def originId : Json → Option Nat
  | .str "igp" => some 0
  | .str "egp" => some 1
  | .str "incomplete" => some 2
  | .int 0 => some 0
  | .int 1 => some 1
  | .int 2 => some 2
  | _ => none

def wellKnownCommunity : String → Option Nat
  | "internet" => some 0x00000000
  | "no-export" => some 0xffffff01
  | "no-advertise" => some 0xffffff02
  | "no-export-subconfed" => some 0xffffff03
  | "local-as" => some 0xffffff03
  | _ => none

/-- `community_value`: a name, `ASN:VALUE` or a 32-bit number. -/
def communityValue : Json → Option Nat
  | .int i => Json.intIn? 0 UINT32_MAX (.int i)
  | .str text =>
    match wellKnownCommunity text with
    | some value => some value
    | none =>
      match text.toList.splitOn ':' with
      | [digits] => (decimal? digits).filter fun n => n ≤ 0xffffffff
      | [high, low] => do
        let high ← decimal? high
        let low ← decimal? low
        if high ≤ 0xffff ∧ low ≤ 0xffff then some (high * 65536 + low) else none
      | _ => none
  | _ => none

/-- The three parts of a large community. -/
abbrev LargeCommunity := Nat × Nat × Nat

/-- `large_community_value`: `A:B:C` or three numbers. -/
def largeCommunityValue : Json → Option LargeCommunity
  | .list [a, b, c] => do
    let a ← a.intIn? 0 UINT32_MAX
    let b ← b.intIn? 0 UINT32_MAX
    let c ← c.intIn? 0 UINT32_MAX
    some (a, b, c)
  | .str text =>
    match text.toList.splitOn ':' with
    | [a, b, c] => do
      let a ← decimal? a
      let b ← decimal? b
      let c ← decimal? c
      if a ≤ 0xffffffff ∧ b ≤ 0xffffffff ∧ c ≤ 0xffffffff then some (a, b, c)
      else none
    | _ => none
  | _ => none

def packCommunity (value : Nat) : Bytes := BigEndian.ofNat 4 value

def packLarge (value : LargeCommunity) : Bytes :=
  BigEndian.ofNat 4 value.1 ++ BigEndian.ofNat 4 value.2.1 ++ BigEndian.ofNat 4 value.2.2

def largeLe (x y : LargeCommunity) : Bool :=
  x.1 < y.1 || (x.1 == y.1 && (x.2.1 < y.2.1 || (x.2.1 == y.2.1 && x.2.2 ≤ y.2.2)))

/-- `_community_values`: at least one, ascending and without duplicates. -/
def communityValues (items : Json) : Option (List Nat) :=
  match items.items? with
  | some (item :: rest) =>
    ((item :: rest).mapM communityValue).map fun values => values.dedup.insertionSort (· ≤ ·)
  | _ => none

/-- `_large_community_values`. -/
def largeCommunityValues (items : Json) : Option (List LargeCommunity) :=
  match items.items? with
  | some (item :: rest) =>
    ((item :: rest).mapM largeCommunityValue).map fun values =>
      values.dedup.insertionSort fun x y => largeLe x y
  | _ => none

/-- The kinds of object a policy names.  The prefix-lists of the two families are
separate namespaces. -/
inductive PolicyKind where
  | prefixList
  | ipv6PrefixList
  | routeMap
  | asPath
deriving DecidableEq, Repr

inductive Match where
  | origin (origin : Nat)
  | metric (metric : Nat)
  | localPref (localPref : Nat)
  | nextHop (nexthop : Bytes)
  | prefixList (afi : Nat) (name : String)
  | asPathRegex (patterns : List String)
  | asPathList (name : String)
  | community (values : List Nat) (exact : Bool)
  | largeCommunity (values : List LargeCommunity) (exact : Bool)
deriving DecidableEq

/-- What the matchers of a clause resolve names against. -/
structure Resolver where
  prefixList : String → Nat → Option PrefixList
  asPathList : String → Option AsPathList

/-- `_has_aligned`: whether a value stands on a boundary of its own width. -/
def hasAligned (packed target : Bytes) (stride : Nat) : Bool :=
  (List.range (packed.length / stride)).any fun i =>
    (packed.drop (i * stride)).take stride == target

namespace Match

/-- Relative expense of a test, low first. -/
def cost : Match → Nat
  | .origin _ => 10
  | .metric _ => 10
  | .localPref _ => 10
  | .nextHop _ => 15
  | .prefixList _ _ => 20
  | .asPathRegex _ => 60
  | .asPathList _ => 60
  | .community _ _ => 30
  | .largeCommunity _ _ => 35

/-- All targets present on their boundaries, or the attribute exactly these. -/
def hasCommunities (packed : Bytes) (targets : List Bytes) (stride : Nat) (exact : Bool) : Bool :=
  if exact then packed == targets.flatten
  else packed ≠ [] && targets.all fun target => hasAligned packed target stride

/-- `matches`: whether a condition holds for one route. -/
def holds (rx : RegexEngine) (lists : Resolver) (pfx : Prefix)
    (attrs : Option AttrSet) : Match → Bool
  | .origin code => attrs.any fun a => a.origin.toNat == code
  | .metric med => attrs.any fun a => a.med.map UInt32.toNat == some med
  | .localPref pref => attrs.any fun a => a.localPref.map UInt32.toNat == some pref
  | .nextHop addr => attrs.any fun a => a.nexthop == addr
  | .prefixList afi name => pfx.afi == afi && (lists.prefixList name afi).any fun l => l.permits pfx
  | .asPathRegex patterns =>
    attrs.any fun a => patterns.any fun pattern => rx.search pattern a.asPathStr
  | .asPathList name =>
    attrs.any fun a => (lists.asPathList name).any fun l => l.permits rx a.asPathStr
  | .community values exact =>
    attrs.any fun a => hasCommunities a.communities (values.map packCommunity) 4 exact
  | .largeCommunity values exact =>
    attrs.any fun a => hasCommunities a.largeCommunities (values.map packLarge) 12 exact

/-- `references`: the `(kind, name)` policy objects a condition depends on. -/
def references : Match → List (PolicyKind × String)
  | .prefixList afi name => [(if afi = AFI_IP then .prefixList else .ipv6PrefixList, name)]
  | .asPathList name => [(.asPath, name)]
  | _ => []

end Match

/-- `_parse_community_match`: a bare list, or one with an `exact-match` flag. -/
def parseCommunityMatch {α : Type} (parseValues : Json → Option (List α))
    (factory : List α → Bool → Match) (value : Json) : Option Match :=
  if value.isDict then
    if !value.keysAmong ["list", "exact-match"] then none
    else do
      let items ← value.get? "list"
      let exact ← ((value.get? "exact-match").getD (.bool false)).bool?
      let values ← parseValues items
      some (factory values exact)
  else (parseValues value).map fun values => factory values false

/-- A non-empty name. -/
def name? (j : Json) : Option String := j.str?.filter fun name => name ≠ ""

/-- `_parse_prefix_list_match`: `{'address': {'prefix-list': NAME}}`. -/
def parsePrefixListMatch (afi : Nat) (value : Json) : Option Match :=
  if !value.isDict || !value.keysAmong ["address"] then none
  else do
    let inner ← value.get? "address"
    if !inner.isDict || !inner.keysAmong ["prefix-list"] then none
    else do
      let name ← (← inner.get? "prefix-list") |> name?
      some (.prefixList afi name)

/-- `_parse_as_path_match`: a regex, a list of them, or a named list. -/
def parseAsPathMatch (rx : RegexEngine) (value : Json) : Option Match :=
  match value with
  | .dict _ =>
    if !value.keysAmong ["access-list"] then none
    else do
      let name ← (← value.get? "access-list") |> name?
      some (.asPathList name)
  | .str _ => (asPathPattern rx value).map fun pattern => .asPathRegex [pattern]
  | .list (item :: rest) => ((item :: rest).mapM (asPathPattern rx)).map .asPathRegex
  | _ => none

/-- One keyword of a match clause. -/
def parseMatchKey (rx : RegexEngine) (key : String) (value : Json) : Option Match :=
  match key with
  | "ip" => parsePrefixListMatch AFI_IP value
  | "ipv6" => parsePrefixListMatch AFI_IP6 value
  | "as-path" => parseAsPathMatch rx value
  | "community" => parseCommunityMatch communityValues .community value
  | "large-community" => parseCommunityMatch largeCommunityValues .largeCommunity value
  | "metric" => (value.intIn? 0 UINT32_MAX).map .metric
  | "local-preference" => (value.intIn? 0 UINT32_MAX).map .localPref
  | "origin" => (originId value).map .origin
  | "next-hop" => (value.str?.bind packAddr).map .nextHop
  | _ => none

/-- `_parse_match`: the conditions of a clause, cheapest first. -/
def parseMatch (rx : RegexEngine) : Json → Option (List Match)
  | .null => some []
  | spec =>
    if !spec.isDict then none
    else
      (spec.sortedKeys.mapM fun key => (spec.get? key).bind (parseMatchKey rx key)).map
        fun tests => tests.insertionSort fun x y => x.cost ≤ y.cost

inductive CommunityMode where
  | set
  | add
  | none
deriving DecidableEq

/-- The normalized edits of a clause. -/
structure Edits where
  localPref : Option Nat := none
  metric : Option Nat := none
  origin : Option Nat := none
  nexthop : Option Bytes := none
  community : Option (CommunityMode × List Nat) := none
  largeCommunity : Option (CommunityMode × List LargeCommunity) := none
  asPathPrepend : Option (List Nat) := none
deriving DecidableEq

/-- `_parse_community_edit`: replace, add to, or clear the attribute. -/
def parseCommunityEdit {α : Type} (parseValues : Json → Option (List α))
    (value : Json) : Option (CommunityMode × List α) :=
  match value with
  | .str text => if text = "none" then some (.none, []) else none
  | .dict _ =>
    if !value.keysAmong ["list", "additive"] then none
    else do
      let items ← value.get? "list"
      let additive ← ((value.get? "additive").getD (.bool false)).bool?
      let values ← parseValues items
      some (if additive then .add else .set, values)
  | _ => (parseValues value).map fun values => (.set, values)

/-- The words of a text, split at blanks. -/
def words (text : List Char) : List (List Char) := (text.splitOnP Char.isWhitespace).filter (· ≠ [])

/-- An AS number that may stand in a path. -/
def asNumber? (n : Nat) : Option Nat := if 1 ≤ n ∧ n ≤ 0xffffffff then some n else none

/-- `_parse_prepend`: the ASNs to prepend, in order. -/
def parsePrepend (value : Json) : Option (List Nat) :=
  if !value.isDict || !value.keysAmong ["prepend"] then none
  else
    match value.get? "prepend" with
    | some (.str text) =>
      match words text.toList with
      | [] => none
      | items => items.mapM fun item => (decimal? item).bind asNumber?
    | some (.list (item :: rest)) => (item :: rest).mapM fun item => item.intIn? 1 UINT32_MAX
    | _ => none

/-- One keyword of a set clause. -/
def parseSetKey (key : String) (value : Json) (edits : Edits × Option Nat) :
    Option (Edits × Option Nat) :=
  let (e, weight) := edits
  match key with
  | "local-preference" =>
    (value.intIn? 0 UINT32_MAX).map fun n => ({ e with localPref := some n }, weight)
  | "metric" => (value.intIn? 0 UINT32_MAX).map fun n => ({ e with metric := some n }, weight)
  | "origin" => (originId value).map fun n => ({ e with origin := some n }, weight)
  | "next-hop" =>
    (value.str?.bind packAddr).map fun addr => ({ e with nexthop := some addr }, weight)
  | "weight" => (value.intIn? 0 0xffff).map fun n => (e, some n)
  | "community" =>
    (parseCommunityEdit communityValues value).map fun edit =>
      ({ e with community := some edit }, weight)
  | "large-community" =>
    (parseCommunityEdit largeCommunityValues value).map fun edit =>
      ({ e with largeCommunity := some edit }, weight)
  | "as-path" =>
    (parsePrepend value).map fun asns => ({ e with asPathPrepend := some asns }, weight)
  | _ => none

/-- `_parse_set`: the edits of a clause and its weight. -/
def parseSet : Json → Option (Edits × Option Nat)
  | .null => some ({}, none)
  | spec =>
    if !spec.isDict then none
    else
      spec.sortedKeys.foldlM
        (fun edits key => (spec.get? key).bind fun value => parseSetKey key value edits)
        (({}, none) : Edits × Option Nat)

structure RouteMapClause where
  seq : Nat
  action : Action
  tests : List Match
  edits : Edits
  weight : Option Nat
deriving DecidableEq

/-- The constructor of a clause; `none` is its `ValueError`. -/
def RouteMapClause.new (rx : RegexEngine) (seq action matchSpec setSpec : Json) :
    Option RouteMapClause := do
  let seq ← seqNumber seq
  let action ← actionId action
  let tests ← parseMatch rx matchSpec
  let (edits, weight) ← parseSet setSpec
  some ⟨seq, action, tests, edits, weight⟩

def RouteMapClause.holds (rx : RegexEngine) (lists : Resolver) (pfx : Prefix)
    (attrs : Option AttrSet) (c : RouteMapClause) : Bool :=
  c.tests.all fun test => test.holds rx lists pfx attrs

/-- `references`: what a clause depends on. -/
def RouteMapClause.references (c : RouteMapClause) : List (PolicyKind × String) :=
  c.tests.flatMap Match.references

/-- What a route-map decided about one route. -/
structure RouteMapResult where
  action : Action
  clause : Option Nat
  sets : Edits
  weight : Option Nat
  matched : Bool
deriving DecidableEq

structure RouteMap where
  version : Nat
  clauses : List RouteMapClause

namespace RouteMap

def new : RouteMap := ⟨0, []⟩

def addClause (m : RouteMap) (clause : RouteMapClause) : RouteMap :=
  ⟨m.version + 1, Sequenced.insert RouteMapClause.seq clause m.clauses⟩

/-- `clear`: drop every clause, keeping the version line. -/
def clear (m : RouteMap) : RouteMap := ⟨if m.clauses.isEmpty then m.version else m.version + 1, []⟩

/-- `apply`: the first clause all of whose conditions hold decides; a route that
matches none is denied. -/
def apply (rx : RegexEngine) (lists : Resolver) (m : RouteMap) (pfx : Prefix)
    (attrs : Option AttrSet) : RouteMapResult :=
  match m.clauses.find? fun c => c.holds rx lists pfx attrs with
  | none => ⟨.deny, none, {}, none, false⟩
  | some c =>
    if c.action = .permit then ⟨.permit, some c.seq, c.edits, c.weight, true⟩
    else ⟨.deny, some c.seq, {}, none, true⟩

/-- `references`: every policy object a map depends on. -/
def references (m : RouteMap) : List (PolicyKind × String) :=
  m.clauses.flatMap RouteMapClause.references

end RouteMap

end Packets
