/-
A merge into the redacted document is the merge into the document.

Both look alike once every stored secret is behind its placeholder, and resolving does not tell
the one from the other.
-/
import Packets.Api.Requests

namespace Packets

/-- A change of strings alone, into strings. -/
structure Leafwise (h : Json → Path → Json) : Prop where
  str : ∀ s path, ∃ t, h (.str s) path = .str t
  other : ∀ value path, (∀ s, value ≠ .str s) → h value path = value

theorem Leafwise.dict {h : Json → Path → Json} (hleaf : Leafwise h)
    (fields : List (String × Json)) (path : Path) : h (.dict fields) path = .dict fields :=
  hleaf.other _ path (by simp)

theorem leafwise_redactLeaf : Leafwise fun value _ => redactLeaf value where
  str s _ := ⟨if s = "" then "" else REDACTED, rfl⟩
  other value _ hvalue := by
    cases value with
    | str s => exact absurd rfl (hvalue s)
    | _ => rfl

/-- The node of a key, `any` where the schema has none. -/
def Node.childD (n : Node) (key : String) : Node := (n.child key).getD .any

/-- The node at the end of a path. -/
def Node.descend : Node → Path → Node
  | n, [] => n
  | n, key :: rest => (n.childD key).descend rest

def objectAt : Option Json → Option (List (String × Json))
  | some (.dict fields) => some fields
  | _ => none

theorem objectAt_eq_some {value : Option Json} {fields : List (String × Json)} :
    objectAt value = some fields ↔ value = some (.dict fields) := by
  cases value with
  | none => simp [objectAt]
  | some found => cases found <;> simp [objectAt]

theorem mergeKey_object (merged : List (String × Json)) (key : String)
    (fields : List (String × Json)) :
    mergeKey merged key (.dict fields) = Dict.setEntries key
      (.dict ((objectAt (merged.lookup key)).elim fields fun sub => deepMerge sub fields))
      merged := by
  rw [mergeKey]
  cases merged.lookup key with
  | none => rfl
  | some old => cases old <;> rfl

theorem mergeKey_leaf (merged : List (String × Json)) (key : String) {value : Json}
    (hdict : ∀ fields, value ≠ .dict fields) (hnull : value ≠ .null) :
    mergeKey merged key value = Dict.setEntries key value merged := by
  cases value with
  | null => exact absurd rfl hnull
  | dict fields => exact absurd rfl (hdict fields)
  | _ => rfl

section Leaves

variable {h : Json → Path → Json} (hleaf : Leafwise h)

include hleaf

/-- The entry of an object: what is in it is filled in, and it stays an object. -/
theorem fillEntry_object (n : Node) (path : Path) (key : String) (fields : List (String × Json)) :
    fillEntry h n path key (.dict fields) =
      .dict (fillFields h (n.childD key) (path ++ [key]) fields) := by
  have hany : ∀ fields : List (String × Json), fillFields h .any (path ++ [key]) fields =
      fields := fun fields => List.map_id _
  cases n with
  | fixed keys =>
    rw [fillEntry, fillKey_eq, Node.childD, Node.child]
    cases hlook : keys.lookup key with
    | none => rw [Option.getD_none, hany]
    | some node =>
      rw [Option.getD_some]
      by_cases hsecret : node.isSecret = true
      · simp only [if_pos hsecret]
        rw [hleaf.dict]
        cases node with
        | secret rule => exact congrArg Json.dict (List.map_id _).symm
        | _ => simp [Node.isSecret] at hsecret
      · simp only [if_neg hsecret]
        exact fillNode_dict h node fields _
  | keyed _ _ node | list node => exact fillNode_dict h node fields _
  | _ => exact congrArg Json.dict (hany fields).symm

/-- The entry of a leaf: a string stays one, anything else stays what it is. -/
theorem fillEntry_leaf (n : Node) (path : Path) (key : String) {value : Json}
    (hvalue : ∀ fields, value ≠ .dict fields) :
    fillEntry h n path key value = value ∨
      ∃ s t, value = .str s ∧ fillEntry h n path key value = .str t := by
  have hnode : ∀ node : Node, fillNode h node value (path ++ [key]) = value := by
    intro node
    cases value with
    | dict fields => exact absurd rfl (hvalue fields)
    | _ => cases node <;> rfl
  cases n with
  | fixed keys =>
    rw [fillEntry, fillKey_eq]
    cases hlook : keys.lookup key with
    | none => exact Or.inl rfl
    | some node =>
      by_cases hsecret : node.isSecret = true
      · simp only [if_pos hsecret]
        cases value with
        | str s =>
          obtain ⟨t, ht⟩ := hleaf.str s (path ++ [key])
          exact Or.inr ⟨s, t, rfl, ht⟩
        | _ => exact Or.inl (hleaf.other _ _ (by simp))
      · simp only [if_neg hsecret]
        exact Or.inl (hnode node)
  | keyed _ _ node | list node => exact Or.inl (hnode node)
  | _ => exact Or.inl rfl

theorem objectAt_fillEntry (n : Node) (path : Path) (key : String) (old : Option Json) :
    objectAt (old.map (fillEntry h n path key)) =
      (objectAt old).map (fillFields h (n.childD key) (path ++ [key])) := by
  cases old with
  | none => rfl
  | some value =>
    by_cases hobject : ∃ fields, value = .dict fields
    · obtain ⟨fields, rfl⟩ := hobject
      rw [Option.map_some, fillEntry_object hleaf]
      rfl
    · have hdict : ∀ fields, value ≠ .dict fields := fun fields heq => hobject ⟨fields, heq⟩
      rcases fillEntry_leaf hleaf n path key hdict with hsame | ⟨s, t, rfl, hstr⟩
      · rw [Option.map_some, hsame]
        cases value with
        | dict fields => exact absurd rfl (hdict fields)
        | _ => rfl
      · rw [Option.map_some, hstr]
        rfl

theorem fillFields_mergeKey_leaf (n : Node) (path : Path) (merged : List (String × Json))
    (key : String) {value : Json} (hdict : ∀ fields, value ≠ .dict fields) (hnull : value ≠ .null) :
    fillFields h n path (mergeKey merged key value) =
      mergeKey (fillFields h n path merged) key (fillEntry h n path key value) := by
  rw [mergeKey_leaf merged key hdict hnull, fillFields_setEntries]
  rcases fillEntry_leaf hleaf n path key hdict with hsame | ⟨s, t, -, hstr⟩
  · rw [hsame, mergeKey_leaf _ key hdict hnull]
  · rw [hstr, mergeKey_leaf _ key (by simp) (by simp)]

end Leaves

mutual

theorem fillFields_deepMerge {h : Json → Path → Json} (hleaf : Leafwise h) (n : Node)
    (path : Path) (merged patch : List (String × Json)) :
    fillFields h n path (deepMerge merged patch) =
      deepMerge (fillFields h n path merged) (fillFields h n path patch) := by
  match patch with
  | [] => rfl
  | (key, value) :: rest =>
    have hfirst := fillFields_mergeKey hleaf n path merged key value
    rw [deepMerge, fillFields_deepMerge hleaf n path _ rest, hfirst]
    rfl

theorem fillFields_mergeKey {h : Json → Path → Json} (hleaf : Leafwise h) (n : Node)
    (path : Path) (merged : List (String × Json)) (key : String) (value : Json) :
    fillFields h n path (mergeKey merged key value) =
      mergeKey (fillFields h n path merged) key (fillEntry h n path key value) := by
  match value with
  | .dict fields =>
    rw [fillEntry_object hleaf, mergeKey_object, mergeKey_object, fillFields_setEntries,
      fillEntry_object hleaf, lookup_fillFields, objectAt_fillEntry hleaf]
    cases objectAt (merged.lookup key) with
    | none => rfl
    | some sub =>
      simp only [Option.map_some, Option.elim_some]
      rw [fillFields_deepMerge hleaf (n.childD key) (path ++ [key]) sub fields]
  | .null =>
    have hnull : fillEntry h n path key .null = .null := by
      rcases @fillEntry_leaf h hleaf n path key .null (by simp) with hsame | ⟨s, t, hstr, -⟩
      · exact hsame
      · exact absurd hstr (by simp)
    rw [hnull]
    exact fillFields_eraseField h n path key merged
  | .bool _ | .int _ | .float _ | .str _ | .list _ =>
    exact fillFields_mergeKey_leaf hleaf n path merged key (by simp) (by simp)

end

/-- What stands below a path of a filled document, where that is an object. -/
theorem getPath_fillNode {h : Json → Path → Json} (hleaf : Leafwise h) (n : Node)
    (fields : List (String × Json)) (target : Path) (path : Path) :
    objectAt (getPath (.dict (fillFields h n path fields)) target) =
      (objectAt (getPath (.dict fields) target)).map
        (fillFields h (n.descend target) (path ++ target)) := by
  induction target generalizing n fields path with
  | nil =>
    rw [List.append_nil]
    rfl
  | cons key rest ih =>
    rw [getPath, getPath, lookup_fillFields]
    cases hlook : fields.lookup key with
    | none => rfl
    | some value =>
      rw [Option.map_some]
      by_cases hobject : ∃ sub, value = .dict sub
      · obtain ⟨sub, rfl⟩ := hobject
        rw [fillEntry_object hleaf]
        have hrest := ih (n.childD key) sub (path ++ [key])
        rwa [List.append_assoc, List.singleton_append] at hrest
      · have hdict : ∀ sub, value ≠ .dict sub := fun sub heq => hobject ⟨sub, heq⟩
        have hnone : ∀ v : Json, (∀ sub, v ≠ .dict sub) → objectAt (getPath v rest) = none := by
          intro v hv
          cases rest with
          | nil =>
            cases v with
            | dict sub => exact absurd rfl (hv sub)
            | _ => rfl
          | cons next rest =>
            cases v with
            | dict sub => exact absurd rfl (hv sub)
            | _ => rfl
        rw [hnone value hdict]
        apply hnone
        rcases fillEntry_leaf hleaf n path key hdict with hsame | ⟨s, t, -, hstr⟩
        · rwa [hsame]
        · simp [hstr]

/-- Whether there is anything at a path does not depend on what fills the document. -/
theorem getPath_isSome_fillNode {h : Json → Path → Json} (hleaf : Leafwise h) (n : Node)
    (fields : List (String × Json)) (target : Path) (path : Path) :
    (getPath (.dict (fillFields h n path fields)) target).isSome =
      (getPath (.dict fields) target).isSome := by
  induction target generalizing n fields path with
  | nil => rfl
  | cons key rest ih =>
    rw [getPath, getPath, lookup_fillFields]
    cases hlook : fields.lookup key with
    | none => rfl
    | some value =>
      rw [Option.map_some]
      by_cases hobject : ∃ sub, value = .dict sub
      · obtain ⟨sub, rfl⟩ := hobject
        rw [fillEntry_object hleaf]
        exact ih (n.childD key) sub (path ++ [key])
      · have hdict : ∀ sub, value ≠ .dict sub := fun sub heq => hobject ⟨sub, heq⟩
        have hsome : ∀ v : Json, (∀ sub, v ≠ .dict sub) →
            (getPath v rest).isSome = rest.isEmpty := by
          intro v hv
          cases rest with
          | nil => cases v <;> rfl
          | cons next rest =>
            cases v with
            | dict sub => exact absurd rfl (hv sub)
            | _ => rfl
        rw [hsome value hdict]
        apply hsome
        rcases fillEntry_leaf hleaf n path key hdict with hsame | ⟨s, t, -, hstr⟩
        · rwa [hsame]
        · simp [hstr]

/-- How a path is spelt in a document does not depend on its leaves. -/
theorem storedPath_fillNode {h : Json → Path → Json} (hleaf : Leafwise h) (n : Node)
    (fields : List (String × Json)) (target : Path) (path : Path) :
    storedPath (some (.dict (fillFields h n path fields))) target =
      storedPath (some (.dict fields)) target := by
  induction target generalizing n fields path with
  | nil => rfl
  | cons key rest ih =>
    have hkey : matchKey (fillFields h n path fields) key = matchKey fields key := by
      have hkeys : (fillFields h n path fields).map Prod.fst = fields.map Prod.fst := by
        rw [fillFields, List.map_map]
        rfl
      rw [matchKey, matchKey, lookup_fillFields, Option.isSome_map, hkeys]
    rw [storedPath, storedPath, hkey, lookup_fillFields]
    congr 1
    cases hlook : fields.lookup (matchKey fields key) with
    | none => rfl
    | some value =>
      rw [Option.map_some]
      by_cases hobject : ∃ sub, value = .dict sub
      · obtain ⟨sub, rfl⟩ := hobject
        rw [fillEntry_object hleaf]
        exact ih (n.childD _) sub _
      · have hdict : ∀ sub, value ≠ .dict sub := fun sub heq => hobject ⟨sub, heq⟩
        have hsame : ∀ v : Json, (∀ sub, v ≠ .dict sub) → storedPath (some v) rest = rest := by
          intro v hv
          cases v with
          | dict sub => exact absurd rfl (hv sub)
          | _ => cases rest <;> rfl
        rw [hsame value hdict]
        apply hsame
        rcases fillEntry_leaf hleaf n path _ hdict with hsame' | ⟨s, t, -, hstr⟩
        · rwa [hsame']
        · simp [hstr]

/-- Two objects that look alike filled in, put at one path, leave documents that look
alike. -/
theorem setPath_congr {h : Json → Path → Json} (hleaf : Leafwise h) {n : Node}
    {fields : List (String × Json)} {target : Path} {path : Path}
    {value value' : List (String × Json)}
    (halike : fillFields h (n.descend target) (path ++ target) value =
      fillFields h (n.descend target) (path ++ target) value') (sofar : Path)
    {set : List (String × Json)} (hset : setPath fields target (.dict value) sofar = .ok set) :
    ∃ set', setPath fields target (.dict value') sofar = .ok set' ∧
      fillFields h n path set = fillFields h n path set' := by
  induction target generalizing n fields path sofar set with
  | nil => simp [setPath, fail] at hset
  | cons key rest ih =>
    cases rest with
    | nil =>
      cases hset
      refine ⟨_, rfl, ?_⟩
      rw [fillFields_setEntries, fillFields_setEntries, fillEntry_object hleaf,
        fillEntry_object hleaf]
      have hkey : fillFields h (n.childD key) (path ++ [key]) value =
          fillFields h (n.childD key) (path ++ [key]) value' := halike
      rw [hkey]
    | cons next rest =>
      obtain ⟨sub, sub', hsection, hsub, rfl⟩ := setPath_cons_iff.mp hset
      have hbelow : fillFields h ((n.childD key).descend (next :: rest))
          ((path ++ [key]) ++ (next :: rest)) value =
            fillFields h ((n.childD key).descend (next :: rest))
              ((path ++ [key]) ++ (next :: rest)) value' := by
        rw [List.append_assoc]
        exact halike
      obtain ⟨sub'', hsub'', hfill⟩ := ih hbelow (sofar ++ [key]) hsub
      refine ⟨_, setPath_cons_iff.mpr ⟨sub, sub'', hsection, hsub'', rfl⟩, ?_⟩
      rw [fillFields_setEntries, fillFields_setEntries, fillEntry_object hleaf,
        fillEntry_object hleaf, hfill]

/-- A string that is stored at its path, behind its placeholder. -/
def veil (stored value : Json) (path : Path) : Json :=
  match value, getPath stored path with
  | .str s, some (.str t) => if s = t then redactLeaf (.str s) else .str s
  | value, _ => value

theorem leafwise_veil (stored : Json) : Leafwise (veil stored) where
  str s path := by
    unfold veil
    split
    · split
      · exact ⟨_, rfl⟩
      · exact ⟨_, rfl⟩
    · exact ⟨s, rfl⟩
  other value path hvalue := by
    unfold veil
    split
    · next s t _ => exact absurd rfl (hvalue s)
    · rfl

theorem veil_of_stored {stored value : Json} {path : Path}
    (hget : getPath stored path = some value) : veil stored value path = redactLeaf value := by
  cases value with
  | str s => simp [veil, hget]
  | _ => simp [veil, redactLeaf]

theorem veil_redactLeaf {stored value : Json} {path : Path}
    (hget : getPath stored path = some value) :
    veil stored (redactLeaf value) path = veil stored value path := by
  rw [veil_of_stored hget]
  cases value with
  | str s =>
    by_cases hs : s = ""
    · simp [redactLeaf, veil, hs, hget]
    · simp only [redactLeaf, if_neg hs, veil, hget]
      split
      · simp [REDACTED]
      · rfl
  | _ => simp [veil, redactLeaf]

/-- Resolving does not tell a stored secret from its placeholder. -/
theorem keepStored_veil (stored value : Json) (path : Path) :
    keepStored stored (veil stored value path) path = keepStored stored value path := by
  unfold veil
  split
  · next s t hget =>
    split
    · next heq =>
      subst heq
      by_cases hplaceholder : s = REDACTED
      · simp [redactLeaf, hplaceholder, REDACTED]
      · have hstored := keepStored_redactLeaf hget (by simpa using hplaceholder)
        rw [hstored, keepStored, if_neg (by simpa [isRedacted] using hplaceholder)]
    · rfl
  · rfl

/-- A walk over a filled document visits what it was filled with. -/
theorem walkNode_fillNode {m : Type → Type} [Monad m] [LawfulMonad m]
    (visit : Json → Path → m Json) (g : Json → Path → Json) (n : Node) (doc : Json) (path : Path) :
    walkNode visit n (fillNode g n doc path) path =
      walkNode (fun value path => visit (g value path) path) n doc path := by
  induction n using Node.byLookup generalizing doc path with
  | fixed keys ih =>
    cases doc with
    | dict fields =>
      rw [fillNode, walkNode, walkNode, List.mapM_map]
      congr 2
      funext e
      simp only [Function.comp_apply, fillKey_eq, walkKey_eq]
      cases hlook : keys.lookup e.1 with
      | none => rfl
      | some node =>
        by_cases hsecret : node.isSecret = true
        · simp [hsecret]
        · simp [hsecret, ih e.1 node hlook]
    | _ => rfl
  | keyed _ _ value ih | list value ih =>
    cases doc with
    | dict fields =>
      rw [fillNode, walkNode, walkNode, List.mapM_map]
      congr 2
      funext e
      rw [Function.comp_apply, ih]
    | _ => rfl
  | _ => rfl

theorem resolveSecrets_veil (schema : Schema) (stored proposed : Json) :
    (resolveSecrets schema stored (fillNode (veil stored) schema.root proposed [])).toOption =
      (resolveSecrets schema stored proposed).toOption := by
  rw [resolveSecrets, resolveSecrets, toOption_walkSecrets, toOption_walkSecrets, walkNode_fillNode]
  simp only [keepStored_veil]

theorem resolveSecrets_congr {schema : Schema} {stored : Json}
    {fields fields' : List (String × Json)}
    (halike : fillFields (veil stored) schema.root [] fields =
      fillFields (veil stored) schema.root [] fields') :
    (resolveSecrets schema stored (.dict fields)).toOption =
      (resolveSecrets schema stored (.dict fields')).toOption := by
  rw [← resolveSecrets_veil, ← resolveSecrets_veil schema stored (.dict fields'), fillNode_dict,
    fillNode_dict, halike]

end Packets
