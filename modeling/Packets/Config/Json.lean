/-
Configuration documents.

`freeze` is the snapshot the policy store compares: values Python calls equal freeze to equal
snapshots, so a boolean and its integer are one number.
-/
import Mathlib.Data.List.Sort
import Mathlib.Data.Rat.Defs

namespace Packets

inductive Json where
  | null
  | bool (b : Bool)
  | int (i : Int)
  | float (x : Rat)
  | str (s : String)
  | list (items : List Json)
  | dict (fields : List (String × Json))

namespace Json

/-- Member access; `none` for a key that is absent and for a non-object. -/
def get? (key : String) : Json → Option Json
  | .dict fields => fields.lookup key
  | _ => none

def keys : Json → List String
  | .dict fields => fields.map Prod.fst
  | _ => []

/-- `sorted` over the keys of an object. -/
def sortedKeys (j : Json) : List String := j.keys.insertionSort (· ≤ ·)

def isDict : Json → Bool
  | .dict _ => true
  | _ => false

def items? : Json → Option (List Json)
  | .list items => some items
  | _ => none

def str? : Json → Option String
  | .str s => some s
  | _ => none

/-- An integer; a boolean is not one. -/
def int? : Json → Option Int
  | .int i => some i
  | _ => none

def bool? : Json → Option Bool
  | .bool b => some b
  | _ => none

/-- `_coerce_int`: an integer in range. -/
def intIn? (low high : Int) (j : Json) : Option Nat :=
  match j.int? with
  | some i => if low ≤ i ∧ i ≤ high then some i.toNat else none
  | none => none

/-- Whether every key of an object is among the known ones. -/
def keysAmong (known : List String) (j : Json) : Bool := j.keys.all known.contains

/-- `_section`: a nested section, an empty object when it is absent. -/
def section? : Json → List String → Json
  | j, [] => j
  | j, key :: rest =>
    match j.get? key with
    | none => .dict []
    | some .null => .dict []
    | some value => section? value rest

end Json

/-- What `_freeze` returns. -/
inductive Frozen where
  | none
  | num (x : Rat)
  | str (s : String)
  | tuple (items : List Frozen)

namespace Frozen

mutual

def decEq : (a b : Frozen) → Decidable (a = b)
  | .none, .none => isTrue rfl
  | .num x, .num y => if h : x = y then isTrue (by rw [h]) else isFalse (by simp [h])
  | .str x, .str y => if h : x = y then isTrue (by rw [h]) else isFalse (by simp [h])
  | .tuple xs, .tuple ys =>
    match decEqList xs ys with
    | isTrue h => isTrue (by rw [h])
    | isFalse h => isFalse (by simp [h])
  | .none, .num _ | .none, .str _ | .none, .tuple _ => isFalse (by simp)
  | .num _, .none | .num _, .str _ | .num _, .tuple _ => isFalse (by simp)
  | .str _, .none | .str _, .num _ | .str _, .tuple _ => isFalse (by simp)
  | .tuple _, .none | .tuple _, .num _ | .tuple _, .str _ => isFalse (by simp)

def decEqList : (a b : List Frozen) → Decidable (a = b)
  | [], [] => isTrue rfl
  | x :: xs, y :: ys =>
    match decEq x y, decEqList xs ys with
    | isTrue h, isTrue h' => isTrue (by rw [h, h'])
    | isFalse h, _ => isFalse (by simp [h])
    | _, isFalse h => isFalse (by simp [h])
  | [], _ :: _ => isFalse (by simp)
  | _ :: _, [] => isFalse (by simp)

end

instance : DecidableEq Frozen := decEq

/-- Key order does not show in a snapshot. -/
def sortFields (fields : List (String × Frozen)) : List (String × Frozen) :=
  fields.insertionSort fun a b => a.1 ≤ b.1

end Frozen

mutual

/-- `_freeze`: an immutable, comparable snapshot of a document fragment. -/
def freeze : Json → Frozen
  | .null => .none
  | .bool b => .num (if b then 1 else 0)
  | .int i => .num i
  | .float x => .num x
  | .str s => .str s
  | .list items => .tuple (freezeList items)
  | .dict fields =>
    .tuple ((Frozen.sortFields (freezeFields fields)).map fun e => .tuple [.str e.1, e.2])

def freezeList : List Json → List Frozen
  | [] => []
  | j :: rest => freeze j :: freezeList rest

def freezeFields : List (String × Json) → List (String × Frozen)
  | [] => []
  | (key, j) :: rest => (key, freeze j) :: freezeFields rest

end

end Packets
