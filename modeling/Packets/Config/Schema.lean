/-
The configuration schema (`config.py`): what may stand where in a document, and
where its secrets are.

An absent node is `any`.  A `pattern` is the compiled regular expression.
-/
import Packets.Config.Json
import Packets.Rib.Address

namespace Packets

abbrev Path := List String

/-- What a `_fail` complains about; the values it prints are kept, not rendered. -/
inductive Complaint where
  | notAName (key : String)
  | notAPrefix (text : String)
  | notBare (text : String)
  | asnDigits (key : String)
  | asnRange (asn : Nat)
  | notAnAfi (key : String)
  | notASafi (key : String)
  | unknownKey (key : String) (known : List String)
  | required
  | expected (what : String)
  | tooManyKeys (limit got : Nat)
  | atLeast (low : Int)
  | atMost (high : Int)
  | oneOf (choices : List String)
  | noMatch
  | tooShort (minlen : Nat)
  | noPath
  | notASection
  | nothingConfigured
  | nothingStored
  | notADocument

/-- `ConfigError`, or the `ConflictError` of `tooManyKeys`, with its path. -/
structure ConfigError where
  path : Path
  complaint : Complaint

inductive KeyType where
  | name | pfx | addr | asn | afi | safi | str

/-- What a string is checked for. -/
structure TextRule where
  choices : Option (List String) := none
  pattern : Option (String → Bool) := none
  minlen : Option Nat := none

mutual

inductive Node where
  | any
  | fixed (keys : Keys)
  | keyed (keyType : KeyType) (maxKeys : Option Nat) (value : Node)
  | list (item : Node)
  | bool
  | int (min max : Option Int)
  | str (rule : TextRule)
  | pfx
  | addr
  | secret (rule : TextRule)

/-- The `keys` of a fixed-key object, each with whether it is `required`. -/
inductive Keys where
  | nil
  | cons (key : String) (required : Bool) (node : Node) (rest : Keys)

end

def Keys.names : Keys → List String
  | .nil => []
  | .cons key _ _ rest => key :: rest.names

mutual

/-- No fixed-key object names a key twice. -/
def Node.WellKeyed : Node → Prop
  | .fixed keys => keys.WellKeyed
  | .keyed _ _ value => value.WellKeyed
  | .list item => item.WellKeyed
  | _ => True

def Keys.WellKeyed : Keys → Prop
  | .nil => True
  | .cons key _ node rest => key ∉ rest.names ∧ node.WellKeyed ∧ rest.WellKeyed

end

/-- The root node of a store. -/
structure Schema where
  root : Node
  wellKeyed : root.WellKeyed

def REDACTED : String := "<redacted>"

def fail {α : Type} (path : Path) (complaint : Complaint) : Except ConfigError α :=
  .error ⟨path, complaint⟩

/-- `_NAME_RE`.  A `$` also matches before a final newline. -/
def isName (key : String) : Bool :=
  let chars := key.toList
  let body := if chars.getLast? = some '\n' then chars.dropLast else chars
  match body with
  | [] => false
  | first :: rest =>
    (first.isAlphanum || first = '_') &&
      rest.all fun c => c.isAlphanum || c = '_' || c = '.' || c = '-'

def checkKey (path : Path) (key : String) : KeyType → Except ConfigError Unit
  | .name => if isName key then .ok () else fail path (.notAName key)
  | .pfx =>
    match parsePrefix key with
    | none => fail path (.notAPrefix key)
    | some _ => .ok ()
  | .addr =>
    match parsePrefix key with
    | none => fail path (.notAPrefix key)
    | some p => if p.plen = pfxAddrBits p.afi then .ok () else fail path (.notBare key)
  | .asn =>
    match decimal? key.toList with
    | none => fail path (.asnDigits key)
    | some asn => if asn < 1 ∨ asn > 4294967295 then fail path (.asnRange asn) else .ok ()
  | .afi => if key = "ipv4" ∨ key = "ipv6" then .ok () else fail path (.notAnAfi key)
  | .safi => if key = "unicast" then .ok () else fail path (.notASafi key)
  | .str => .ok ()

/-- The checks of a string or a secret. -/
def checkText (rule : TextRule) (text : String) (path : Path) : Except ConfigError Unit := do
  match rule.choices with
  | some choices => if text ∈ choices then pure () else fail path (.oneOf choices)
  | none => pure ()
  match rule.pattern with
  | some accepts => if accepts text then pure () else fail path .noMatch
  | none => pure ()
  match rule.minlen with
  | some minlen =>
    if text.length < minlen ∧ text ≠ REDACTED then fail path (.tooShort minlen) else pure ()
  | none => pure ()

def Keys.checkRequired (fields : List (String × Json)) (path : Path) :
    Keys → Except ConfigError Unit
  | .nil => .ok ()
  | .cons key required _ rest =>
    if required ∧ (fields.lookup key).isNone then fail (path ++ [key]) .required
    else rest.checkRequired fields path

mutual

/-- `validate`: a document, or a subtree of one, against a node. -/
def Node.validate : Node → Json → Path → Except ConfigError Unit
  | .any, _, _ => .ok ()
  | .fixed keys, doc, path =>
    match doc with
    | .dict fields => do
      fields.forM fun e => Keys.validateKey keys keys.names e.1 e.2 path
      keys.checkRequired fields path
    | _ => fail path (.expected "an object")
  | .keyed keyType maxKeys value, doc, path =>
    match doc with
    | .dict fields => do
      match maxKeys with
      | some limit => if fields.length > limit then fail path (.tooManyKeys limit fields.length)
      | none => pure ()
      fields.forM fun e => do
        checkKey path e.1 keyType
        Node.validate value e.2 (path ++ [e.1])
    | _ => fail path (.expected "an object")
  | .list item, doc, path =>
    match doc with
    | .list items => items.zipIdx.forM fun x => Node.validate item x.1 (path ++ [toString x.2])
    | _ => fail path (.expected "a list")
  | .bool, doc, path =>
    match doc with
    | .bool _ => .ok ()
    | _ => fail path (.expected "true or false")
  | .int low high, doc, path =>
    match doc with
    | .int i => do
      match low with
      | some bound => if i < bound then fail path (.atLeast bound) else pure ()
      | none => pure ()
      match high with
      | some bound => if i > bound then fail path (.atMost bound) else pure ()
      | none => pure ()
    | _ => fail path (.expected "an integer")
  | .str rule, doc, path | .secret rule, doc, path =>
    match doc with
    | .str text => checkText rule text path
    | _ => fail path (.expected "a string")
  | .pfx, doc, path =>
    match doc with
    | .str text => checkKey path text .pfx
    | _ => fail path (.expected "a string")
  | .addr, doc, path =>
    match doc with
    | .str text => checkKey path text .addr
    | _ => fail path (.expected "a string")

/-- The entry of a fixed-key object under its own key's node. -/
def Keys.validateKey : Keys → List String → String → Json → Path → Except ConfigError Unit
  | .nil, known, key, _, path => fail path (.unknownKey key (known.insertionSort (· ≤ ·)))
  | .cons key' _ node rest, known, key, doc, path =>
    if key = key' then Node.validate node doc (path ++ [key])
    else Keys.validateKey rest known key doc path

end

/-- A path with `none` for any key. -/
abbrev Pattern := List (Option String)

mutual

def secretPaths : Node → Pattern → List Pattern
  | .secret _, path => [path]
  | .fixed keys, path => secretPathsKeys keys path
  | .keyed _ _ value, path => secretPaths value (path ++ [none])
  | .list item, path => secretPaths item (path ++ [none])
  | _, _ => []

def secretPathsKeys : Keys → Pattern → List Pattern
  | .nil, _ => []
  | .cons key _ node rest, path =>
    secretPaths node (path ++ [some key]) ++ secretPathsKeys rest path

end

/-- `_matches` -/
def patternMatches (path : Path) (pattern : Pattern) : Bool :=
  decide (path.length = pattern.length) &&
    (path.zip pattern).all fun x => x.2 = none || x.2 = some x.1

mutual

theorem secretPaths_append (n : Node) (path : Pattern) :
    secretPaths n path = (secretPaths n []).map (path ++ ·) := by
  match n with
  | .secret _ => simp [secretPaths]
  | .fixed keys => simpa only [secretPaths] using secretPathsKeys_append keys path
  | .keyed _ _ value | .list value =>
    simp only [secretPaths, List.nil_append]
    rw [secretPaths_append value (path ++ [none]), secretPaths_append value [none]]
    simp
  | .any | .bool | .int _ _ | .str _ | .pfx | .addr => simp [secretPaths]

theorem secretPathsKeys_append (keys : Keys) (path : Pattern) :
    secretPathsKeys keys path = (secretPathsKeys keys []).map (path ++ ·) := by
  match keys with
  | .nil => simp [secretPathsKeys]
  | .cons key _ node rest =>
    simp only [secretPathsKeys, List.nil_append, List.map_append]
    rw [secretPaths_append node (path ++ [some key]), secretPaths_append node [some key],
      secretPathsKeys_append rest path]
    simp

end

end Packets
