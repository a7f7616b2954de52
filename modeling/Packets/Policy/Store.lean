/-
The policy store (`policy/store.py`).

`validate` decides whether a document is acceptable and changes nothing; `load`
makes the store match it, refilling in place the objects whose section changed.
-/
import Packets.Lib.Catalog
import Packets.Policy.RouteMap

namespace Packets

/-- The number of an entry that omits its own. -/
def autoSeq (index step : Nat) : Json := .int ((index + 1) * step : Nat)

/-- `_entry_args`, and the entry it describes. -/
def prefixListEntryOf (entry : Json) (index : Nat) : Option PrefixListEntry :=
  if !entry.isDict || !entry.keysAmong ["seq", "action", "prefix", "le", "ge"] then none
  else do
    let action ← entry.get? "action"
    let pfx ← entry.get? "prefix"
    PrefixListEntry.new ((entry.get? "seq").getD (autoSeq index 5)) action pfx
      ((entry.get? "le").getD (.int 0)) ((entry.get? "ge").getD (.int 0))

/-- `_as_path_args`, and the entry it describes.  `pattern` is a synonym of
`regex`, and only one of them may be given. -/
def asPathListEntryOf (rx : RegexEngine) (entry : Json) (index : Nat) : Option AsPathListEntry :=
  if !entry.isDict || !entry.keysAmong ["seq", "action", "regex", "pattern"] then none
  else do
    let action ← entry.get? "action"
    let regex ←
      match entry.get? "regex", entry.get? "pattern" with
      | some _, some _ => none
      | some regex, none => some regex
      | none, pattern => pattern
    AsPathListEntry.new rx ((entry.get? "seq").getD (autoSeq index 5)) action regex

/-- `_clause_args`, and the clause it describes. -/
def routeMapClauseOf (rx : RegexEngine) (clause : Json) (index : Nat) : Option RouteMapClause :=
  if !clause.isDict || !clause.keysAmong ["seq", "action", "match", "set"] then none
  else do
    let action ← clause.get? "action"
    RouteMapClause.new rx ((clause.get? "seq").getD (autoSeq index 10)) action
      ((clause.get? "match").getD .null) ((clause.get? "set").getD .null)

/-- Add the entries of a section in order, each with its position. -/
def fillFrom {A B : Type} (read : Json → Nat → Option B) (add : A → B → Option A)
    (sec : Json) (a : A) : Option A :=
  sec.items?.bind fun items =>
    (items.zipIdx.mapM fun e => read e.1 e.2).bind fun entries => entries.foldlM add a

def prefixListKind (afi : Nat) : Catalog.Kind Json Frozen PrefixList where
  freeze := freeze
  new := PrefixList.new afi
  clear := PrefixList.clear
  fill := fillFrom prefixListEntryOf PrefixList.add

def asPathKind (rx : RegexEngine) : Catalog.Kind Json Frozen AsPathList where
  freeze := freeze
  new := AsPathList.new
  clear := AsPathList.clear
  fill := fillFrom (asPathListEntryOf rx) fun l entry => some (l.add entry)

def routeMapKind (rx : RegexEngine) : Catalog.Kind Json Frozen RouteMap where
  freeze := freeze
  new := RouteMap.new
  clear := RouteMap.clear
  fill := fillFrom (routeMapClauseOf rx) fun m clause => some (m.addClause clause)

/-- The named sections of an object of the document, in order of their names. -/
def sectionsOf (j : Json) : Dict String Json :=
  j.sortedKeys.foldl
    (fun found name =>
      match j.get? name with
      | some sec => found.set name sec
      | none => found) Dict.empty

structure PolicyStore where
  v4 : Catalog.Table String Frozen PrefixList
  v6 : Catalog.Table String Frozen PrefixList
  maps : Catalog.Table String Frozen RouteMap
  asPaths : Catalog.Table String Frozen AsPathList
  /-- Bumped once per load that changed anything. -/
  revision : Nat
  loads : Nat
  changes : Nat

namespace PolicyStore

def new : PolicyStore := ⟨Catalog.empty, Catalog.empty, Catalog.empty, Catalog.empty, 0, 0, 0⟩

/-- The four sections of a document, each by name. -/
def wantedV4 (document : Json) : Json := document.section? ["ip", "prefix-list"]
def wantedV6 (document : Json) : Json := document.section? ["ipv6", "prefix-list"]
def wantedAsPaths (document : Json) : Json := document.section? ["ip", "as-path-access-list"]
def wantedMaps (document : Json) : Json := document.section? ["route-map"]

/-- A section of one kind: named lists that a scratch object takes whole. -/
def validateKind {A : Type} (k : Catalog.Kind Json Frozen A) (sections : Json) : Bool :=
  sections.isDict && (sectionsOf sections).entries.all fun e =>
    e.1 ≠ "" && (k.fill e.2 k.new).isSome

/-- Whether the document defines what a route-map refers to. -/
def defines (document : Json) (ref : PolicyKind × String) : Bool :=
  match ref.1 with
  | .prefixList => (sectionsOf (wantedV4 document)).contains ref.2
  | .ipv6PrefixList => (sectionsOf (wantedV6 document)).contains ref.2
  | .asPath => (sectionsOf (wantedAsPaths document)).contains ref.2
  | .routeMap => false

/-- Whether every reference of every clause is defined. -/
def referencesDefined (rx : RegexEngine) (document : Json) : Bool :=
  (sectionsOf (wantedMaps document)).entries.all fun e =>
    (e.2.items?.getD []).zipIdx.all fun item =>
      match routeMapClauseOf rx item.1 item.2 with
      | none => false
      | some clause => clause.references.all (defines document)

/-- `validate`: whether a document is accepted.  `null` is no document. -/
def validate (rx : RegexEngine) (document : Json) : Bool :=
  (document matches .null || document.isDict) &&
    validateKind (prefixListKind AFI_IP) (wantedV4 document) &&
    validateKind (prefixListKind AFI_IP6) (wantedV6 document) &&
    validateKind (asPathKind rx) (wantedAsPaths document) &&
    validateKind (routeMapKind rx) (wantedMaps document) &&
    referencesDefined rx document

/-- `load`: make the store match a document.  `none` when it raises, which leaves
the store as it was. -/
def load (rx : RegexEngine) (s : PolicyStore) (document : Json) : Option PolicyStore :=
  if !validate rx document then none
  else do
    let (v4, n4) ← Catalog.load (prefixListKind AFI_IP) (sectionsOf (wantedV4 document)) s.v4
    let (v6, n6) ← Catalog.load (prefixListKind AFI_IP6) (sectionsOf (wantedV6 document)) s.v6
    let (asPaths, na) ← Catalog.load (asPathKind rx) (sectionsOf (wantedAsPaths document)) s.asPaths
    let (maps, nm) ← Catalog.load (routeMapKind rx) (sectionsOf (wantedMaps document)) s.maps
    let changed := n4 + n6 + na + nm
    some {
      v4 := v4
      v6 := v6
      maps := maps
      asPaths := asPaths
      revision := if changed = 0 then s.revision else s.revision + 1
      loads := s.loads + 1
      changes := s.changes + changed }

def prefixList (s : PolicyStore) (name : String) (afi : Nat) : Option PrefixList :=
  if afi = AFI_IP then s.v4.get? name
  else if afi = AFI_IP6 then s.v6.get? name
  else none

def routeMap (s : PolicyStore) (name : String) : Option RouteMap := s.maps.get? name

def asPathList (s : PolicyStore) (name : String) : Option AsPathList := s.asPaths.get? name

/-- What the clauses of the store's route-maps resolve names against. -/
def resolver (s : PolicyStore) : Resolver := ⟨s.prefixList, s.asPathList⟩

/-- `version_of`: the version of an object, `none` when it is not defined. -/
def versionOf (s : PolicyStore) (kind : PolicyKind) (name : String) : Option Nat :=
  match kind with
  | .prefixList => (s.v4.get? name).map PrefixList.version
  | .ipv6PrefixList => (s.v6.get? name).map PrefixList.version
  | .routeMap => (s.maps.get? name).map RouteMap.version
  | .asPath => (s.asPaths.get? name).map AsPathList.version

end PolicyStore

end Packets
