/-
The configuration store (`config.py`): paths into a document, diffs, proposals, and
the secrets kept out of what leaves it.

The walk over secret places is written for any monad.  `self.revision` is left out.
-/
import Packets.Config.Schema
import Packets.Lib.Dict

namespace Packets

namespace Json

mutual

/-- No object names a key twice. -/
def WellKeyed : Json → Prop
  | .list items => WellKeyedItems items
  | .dict fields => (fields.map Prod.fst).Nodup ∧ WellKeyedFields fields
  | _ => True

def WellKeyedItems : List Json → Prop
  | [] => True
  | j :: rest => j.WellKeyed ∧ WellKeyedItems rest

def WellKeyedFields : List (String × Json) → Prop
  | [] => True
  | (_, j) :: rest => j.WellKeyed ∧ WellKeyedFields rest

end

/-- Python truth of a value. -/
def truthy : Json → Bool
  | .null => false
  | .bool b => b
  | .int i => i ≠ 0
  | .float x => x ≠ 0
  | .str s => s ≠ ""
  | .list items => !items.isEmpty
  | .dict fields => !fields.isEmpty

end Json

/-- `get_path`; `none` is `MISSING`. -/
def getPath : Json → Path → Option Json
  | doc, [] => some doc
  | .dict fields, key :: rest =>
    match fields.lookup key with
    | none => none
    | some value => getPath value rest
  | _, _ :: _ => none

/-- `set_path` on the fields of an object; `sofar` is the path it stands at. -/
def setPath : List (String × Json) → Path → Json → Path → Except ConfigError (List (String × Json))
  | _, [], _, _ => fail [] .noPath
  | fields, [key], value, _ => .ok (Dict.setEntries key value fields)
  | fields, key :: next :: rest, value, sofar =>
    match fields.lookup key with
    | none | some .null => do
      let sub ← setPath [] (next :: rest) value (sofar ++ [key])
      pure (Dict.setEntries key (.dict sub) fields)
    | some (.dict sub) => do
      let sub ← setPath sub (next :: rest) value (sofar ++ [key])
      pure (Dict.setEntries key (.dict sub) fields)
    | some _ => fail (sofar ++ [key]) .notASection

def eraseField (key : String) (fields : List (String × Json)) : List (String × Json) :=
  fields.eraseP fun e => e.1 = key

/-- `del_path` on the fields of an object, pruning the sections it empties; `none`
when there is nothing to remove. -/
def delPath : List (String × Json) → Path → Option (List (String × Json))
  | _, [] => none
  | fields, [key] =>
    match fields.lookup key with
    | none => none
    | some _ => some (eraseField key fields)
  | fields, key :: next :: rest =>
    match fields.lookup key with
    | some (.dict sub) =>
      (delPath sub (next :: rest)).map fun sub =>
        if sub = [] then eraseField key fields else Dict.setEntries key (.dict sub) fields
    | _ => none

/-- One change; a side that is `none` is `MISSING`. -/
structure Change where
  path : Path
  old : Option Json
  new : Option Json

/-- What `as_list` renders: an absent side is an absent key. -/
structure ChangeItem where
  path : String
  old : Option Json
  new : Option Json

/-- `Diff.as_list` -/
def asList (changes : List Change) : List ChangeItem :=
  changes.map fun c => ⟨".".intercalate c.path, c.old, c.new⟩

mutual

/-- Python equality: a boolean equals the number it is, key order does not count. -/
def pyEq : Json → Json → Bool
  | .null, .null => true
  | .bool a, .bool b => a = b
  | .bool a, .int b => (if a then 1 else 0) = b
  | .bool a, .float b => (if a then 1 else 0) = b
  | .int a, .bool b => a = if b then 1 else 0
  | .int a, .int b => a = b
  | .int a, .float b => (a : Rat) = b
  | .float a, .bool b => a = if b then 1 else 0
  | .float a, .int b => a = (b : Rat)
  | .float a, .float b => a = b
  | .str a, .str b => a = b
  | .list xs, .list ys => pyEqItems xs ys
  | .dict f, .dict g => decide (f.length = g.length) && pyEqFields f g
  | _, _ => false

def pyEqItems : List Json → List Json → Bool
  | [], [] => true
  | x :: xs, y :: ys => pyEq x y && pyEqItems xs ys
  | _, _ => false

def pyEqFields : List (String × Json) → List (String × Json) → Bool
  | [], _ => true
  | (key, x) :: rest, g =>
    (match g.lookup key with
    | some y => pyEq x y
    | none => false) && pyEqFields rest g

end

/-- `type(old) is type(new)` -/
def sameType : Json → Json → Bool
  | .null, .null | .bool _, .bool _ | .int _, .int _ | .float _, .float _ | .str _, .str _
  | .list _, .list _ | .dict _, .dict _ => true
  | _, _ => false

/-- The changes of two objects in the order of their keys. -/
def inKeyOrder (parts : List (String × List Change)) : List Change :=
  (parts.insertionSort fun a b => a.1 ≤ b.1).flatMap Prod.snd

/-- The keys only the new object has. -/
def addedFields (f g : List (String × Json)) (path : Path) : List (String × List Change) :=
  (g.filter fun e => (f.lookup e.1).isNone).map fun e => (e.1, [⟨path ++ [e.1], none, some e.2⟩])

mutual

/-- `_diff_into` where both sides are there. -/
def diffInto : Json → Json → Path → List Change
  | .dict f, .dict g, path => inKeyOrder (diffFields f g path ++ addedFields f g path)
  | old, new, path => if pyEq old new && sameType old new then [] else [⟨path, some old, some new⟩]

/-- The keys the old object has. -/
def diffFields : List (String × Json) → List (String × Json) → Path → List (String × List Change)
  | [], _, _ => []
  | (key, old) :: rest, g, path =>
    (key, match g.lookup key with
      | none => [⟨path ++ [key], some old, none⟩]
      | some new => diffInto old new (path ++ [key])) :: diffFields rest g path

end

/-- `diff_documents` -/
def diffDocuments (old new : Json) : List Change := diffInto old new []

section Walk

variable {m : Type → Type} [Monad m]

/-- `_walk_one`: visit the entries of objects a pattern leads to.  The visitor is
given the value at the place and returns what to store there. -/
def walkOne (visit : Json → Path → m Json) : Pattern → Json → Path → m Json
  | [], node, _ => pure node
  | none :: rest, .dict fields, sofar =>
    Json.dict <$> fields.mapM fun e => (e.1, ·) <$> walkOne visit rest e.2 (sofar ++ [e.1])
  | some key :: rest, .dict fields, sofar =>
    Json.dict <$> fields.mapM fun e =>
      if e.1 = key then
        (e.1, ·) <$> if rest = [] then visit e.2 (sofar ++ [e.1])
          else walkOne visit rest e.2 (sofar ++ [e.1])
      else pure e
  | _ :: _, node, _ => pure node

/-- `_walk_secrets` -/
def walkSecrets (schema : Schema) (doc : Json) (visit : Json → Path → m Json) : m Json :=
  (secretPaths schema.root []).foldlM (fun doc spath => walkOne visit spath doc []) doc

end Walk

/-- The visitor of `_redact_into` and of `_redact_value`. -/
def redactLeaf : Json → Json
  | .str s => .str (if s = "" then "" else REDACTED)
  | value => value

def isRedacted : Json → Bool
  | .str s => s = REDACTED
  | _ => false

/-- `_redact_into`, on the copy that `redacted_copy` makes. -/
def redactedCopy (schema : Schema) (doc : Json) : Json :=
  Id.run (walkSecrets schema doc fun value _ => pure (redactLeaf value))

/-- The visitor of `_resolve_secrets`. -/
def keepStored (stored : Json) (value : Json) (path : Path) : Except ConfigError Json :=
  if isRedacted value then
    match getPath stored path with
    | none => fail path .nothingStored
    | some existing => if isRedacted existing then fail path .nothingStored else .ok existing
  else .ok value

/-- `_resolve_secrets` -/
def resolveSecrets (schema : Schema) (stored proposed : Json) : Except ConfigError Json :=
  walkSecrets schema proposed (keepStored stored)

/-- The patterns that go on below a path, or `none` when the path is at a secret or
inside one. -/
def belowPath (path : Path) : List Pattern → Option (List Pattern)
  | [] => some []
  | spath :: rest =>
    if spath.length ≤ path.length then
      if patternMatches (path.take spath.length) spath then none else belowPath path rest
    else if patternMatches path (spath.take path.length) then
      (belowPath path rest).map (spath.drop path.length :: ·)
    else belowPath path rest

/-- `_redact_value` on a side that is there. -/
def redactValue (path : Path) (value : Json) (secrets : List Pattern) : Json :=
  match value with
  | .null => .null
  | value =>
    match belowPath path secrets with
    | none => match value with
        | .str s => .str (if s = "" then "" else REDACTED)
        | _ => .str REDACTED
    | some below => Id.run (below.foldlM
        (fun value rest => walkOne (fun value _ => pure (redactLeaf value)) rest value path)
        value)

/-- `redacted_changes` -/
def redactedChanges (schema : Schema) (changes : List Change) : List ChangeItem :=
  let secrets := secretPaths schema.root []
  asList (changes.map fun c =>
    ⟨c.path, c.old.map (redactValue c.path · secrets), c.new.map (redactValue c.path · secrets)⟩)

structure ConfigStore where
  schema : Schema
  fields : List (String × Json)
  /-- The document is an object, and has been validated. -/
  wellKeyed : (Json.dict fields).WellKeyed
  valid : Node.validate schema.root (.dict fields) [] = .ok ()

namespace ConfigStore

def stored (store : ConfigStore) : Json := .dict store.fields

/-- `document` -/
def document (store : ConfigStore) (redact : Bool) : Json :=
  if redact then redactedCopy store.schema store.stored else store.stored

/-- A proposal with its secrets resolved and validated. -/
def accept (store : ConfigStore) (proposed : Json) : Except ConfigError Json := do
  let proposed ← resolveSecrets store.schema store.stored proposed
  Node.validate store.schema.root proposed []
  pure proposed

def proposeSet (store : ConfigStore) (path : Path) (value : Json) : Except ConfigError Json := do
  store.accept (.dict (← setPath store.fields path value []))

def proposeDelete (store : ConfigStore) (path : Path) : Except ConfigError Json :=
  if path = [] then fail [] .noPath
  else
    match delPath store.fields path with
    | none => fail path .nothingConfigured
    | some fields => do
      Node.validate store.schema.root (.dict fields) []
      pure (.dict fields)

def proposeReplace (store : ConfigStore) (document : Json) : Except ConfigError Json :=
  match if document.truthy then document else .dict [] with
  | .dict fields => store.accept (.dict fields)
  | _ => fail [] .notADocument

def diff (store : ConfigStore) (proposed : Json) : List Change :=
  diffDocuments store.stored proposed

end ConfigStore

end Packets
