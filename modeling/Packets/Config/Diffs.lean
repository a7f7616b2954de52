/-
A diff of two documents is the change from one to the other.

The comparison goes into objects and not into lists, which Python compares by value: equal
lists of values of other types make no change.
-/
import Packets.Config.Fields
import Packets.Config.Snapshot

namespace Packets

/-- The same values of the same types; the order of keys does not count. -/
inductive Identical : Json → Json → Prop
  | null : Identical .null .null
  | bool (b : Bool) : Identical (.bool b) (.bool b)
  | int (i : Int) : Identical (.int i) (.int i)
  | float (x : Rat) : Identical (.float x) (.float x)
  | str (s : String) : Identical (.str s) (.str s)
  | list {xs ys : List Json} (h : List.Forall₂ Identical xs ys) :
      Identical (.list xs) (.list ys)
  | dict {f g : List (String × Json)}
      (h : ∀ key, Option.Rel Identical (f.lookup key) (g.lookup key)) :
      Identical (.dict f) (.dict g)

/-- The same at a place that may be missing. -/
abbrev IdenticalAt (x y : Option Json) : Prop := Option.Rel Identical x y

theorem Identical.refl (j : Json) : Identical j j := by
  induction j using Json.byParts with
  | h j hitems hfields =>
    cases j with
    | null => exact .null
    | bool b => exact .bool b
    | int i => exact .int i
    | float x => exact .float x
    | str s => exact .str s
    | list items => exact .list (List.forall₂_same.mpr (hitems items rfl))
    | dict fields =>
      apply Identical.dict
      intro key
      cases hlook : fields.lookup key with
      | none => exact .none
      | some x => exact .some (hfields fields rfl _ (lookup_mem hlook))

theorem Identical.symm {x y : Json} (h : Identical x y) : Identical y x := by
  induction x using Json.byParts generalizing y with
  | h x hitems hfields =>
    cases h with
    | null => exact .null
    | bool b => exact .bool b
    | int i => exact .int i
    | float x => exact .float x
    | str s => exact .str s
    | @list xs ys h =>
      apply Identical.list
      replace hitems := hitems xs rfl
      clear hfields
      induction h with
      | nil => exact .nil
      | cons hhead _ ih =>
        rw [List.forall_mem_cons] at hitems
        exact .cons (hitems.1 hhead) (ih hitems.2)
    | @dict f g h =>
      apply Identical.dict
      intro key
      have hkey := h key
      cases hf : f.lookup key with
      | none =>
        rw [hf] at hkey
        generalize g.lookup key = y at hkey ⊢
        cases hkey
        exact .none
      | some x =>
        rw [hf] at hkey
        generalize g.lookup key = y at hkey ⊢
        cases hkey with
        | some hsame => exact .some (hfields f rfl _ (lookup_mem hf) hsame)

/-- Store a value under a key, or remove the key. -/
def putField (key : String) : Option Json → List (String × Json) → List (String × Json)
  | some value, fields => Dict.setEntries key value fields
  | none, fields => fields.filter fun e => e.1 ≠ key

/-- Assign what stands at a path, or remove it.  Only what is there is gone into. -/
def assign : Option Json → Path → Option Json → Option Json
  | _, [], value => value
  | some (.dict fields), key :: rest, value =>
    some (.dict (putField key (assign (fields.lookup key) rest value) fields))
  | doc, _ :: _, _ => doc

/-- Apply changes to a document, path by path. -/
def applyChanges (changes : List Change) (doc : Option Json) : Option Json :=
  changes.foldl (fun doc c => assign doc c.path c.new) doc

/-- `Diff.inverse` -/
def inverse (changes : List Change) : List Change := changes.map fun c => ⟨c.path, c.new, c.old⟩

/-- `Diff.under` -/
def under (changes : List Change) (path : Path) : List Change :=
  changes.filter fun c => path.isPrefixOf c.path || c.path.isPrefixOf path

theorem lookup_putField (key : String) (value : Option Json) (fields : List (String × Json))
    (k : String) :
    (putField key value fields).lookup k = if k = key then value else fields.lookup k := by
  cases value with
  | some value => exact lookup_setEntries key value fields k
  | none =>
    rw [putField]
    induction fields with
    | nil => simp
    | cons e rest ih =>
      obtain ⟨k', v⟩ := e
      by_cases hkey : k' = key
      · rw [List.filter_cons_of_neg (by simp [hkey]), ih]
        by_cases hk : k = key
        · rw [if_pos hk, if_pos hk]
        · rw [if_neg hk, if_neg hk, List.lookup_cons, hkey, beq_eq_false_iff_ne.mpr hk]
      · rw [List.filter_cons_of_pos (by simp [hkey]), List.lookup_cons, List.lookup_cons, ih]
        by_cases hk : k = k'
        · simp [hk, hkey]
        · simp [beq_eq_false_iff_ne.mpr hk]

/-- The changes below a key, as changes of what stands there. -/
def forKey (key : String) (changes : List Change) : List Change :=
  changes.filterMap fun c =>
    match c.path with
    | [] => none
    | k :: rest => if k = key then some { c with path := rest } else none

/-- Changes inside an object are made key by key. -/
theorem applyChanges_dict (changes : List Change) (h : ∀ c ∈ changes, c.path ≠ [])
    (fields : List (String × Json)) :
    ∃ fields', applyChanges changes (some (.dict fields)) = some (.dict fields') ∧
      ∀ k, fields'.lookup k = applyChanges (forKey k changes) (fields.lookup k) := by
  induction changes generalizing fields with
  | nil => exact ⟨fields, rfl, fun _ => rfl⟩
  | cons c rest ih =>
    rw [List.forall_mem_cons] at h
    obtain ⟨path, old, new⟩ := c
    cases path with
    | nil => exact absurd rfl h.1
    | cons key path =>
      obtain ⟨fields', hall, hkeys⟩ :=
        ih h.2 (putField key (assign (fields.lookup key) path new) fields)
      refine ⟨fields', hall, fun k => ?_⟩
      rw [hkeys k, lookup_putField]
      by_cases hk : k = key
      · subst hk
        simp [forKey, applyChanges]
      · have hne : key ≠ k := fun heq => hk heq.symm
        simp [forKey, hk, hne]

/-- A change as seen from further up. -/
def Change.below (path : Path) (c : Change) : Change := { c with path := path ++ c.path }

theorem map_inKeyOrder (h : Change → Change) (parts : List (String × List Change)) :
    (inKeyOrder parts).map h = inKeyOrder (parts.map fun part => (part.1, part.2.map h)) := by
  have hsort := List.map_insertionSort (fun a b : String × List Change => a.1 ≤ b.1)
    (fun a b => a.1 ≤ b.1) (fun part => (part.1, part.2.map h)) parts fun _ _ _ _ => Iff.rfl
  rw [inKeyOrder, inKeyOrder, ← hsort, List.map_flatMap, List.flatMap_map]

theorem diffFields_eq_map (f g : List (String × Json)) (path : Path) :
    diffFields f g path = f.map fun e => (e.1, match g.lookup e.1 with
      | none => [⟨path ++ [e.1], some e.2, none⟩]
      | some new => diffInto e.2 new (path ++ [e.1])) := by
  induction f with
  | nil => rfl
  | cons e rest ih =>
    cases hlook : g.lookup e.1 with
    | none => simp only [diffFields, ih, List.map_cons, hlook]
    | some y => simp only [diffFields, ih, List.map_cons, hlook]

theorem diffInto_leaf {old new : Json} (h : ¬(old.isDict = true ∧ new.isDict = true))
    (path : Path) :
    diffInto old new path =
      if pyEq old new && sameType old new then [] else [⟨path, some old, some new⟩] := by
  cases old <;> cases new <;> first | rfl | exact absurd ⟨rfl, rfl⟩ h

theorem diffInto_append (old new : Json) (path rest : Path) :
    diffInto old new (path ++ rest) = (diffInto old new rest).map (Change.below path) := by
  induction old using Json.byParts generalizing new rest with
  | h old hitems hfields =>
    by_cases hdict : old.isDict = true ∧ new.isDict = true
    · obtain ⟨hold, hnew⟩ := hdict
      obtain ⟨f, rfl⟩ := Json.isDict_iff.mp hold
      obtain ⟨g, rfl⟩ := Json.isDict_iff.mp hnew
      rw [diffInto, diffInto, map_inKeyOrder, List.map_append, diffFields_eq_map,
        diffFields_eq_map, List.map_map, addedFields, addedFields, List.map_map]
      congr 2
      · apply List.map_congr_left
        intro e he
        have hfield := hfields f rfl e he
        simp only [Function.comp_apply, List.append_assoc]
        cases g.lookup e.1 with
        | none => simp [Change.below]
        | some y => simp only [hfield]
      · apply List.map_congr_left
        intro e _
        simp [Change.below]
    · rw [diffInto_leaf hdict, diffInto_leaf hdict]
      split
      · rfl
      · rfl

/-- What changes at a place where either side may be missing. -/
def diffAt : Option Json → Option Json → List Change
  | some old, some new => diffInto old new []
  | some old, none => [⟨[], some old, none⟩]
  | none, some new => [⟨[], none, some new⟩]
  | none, none => []

theorem forKey_append (key : String) (cs ds : List Change) :
    forKey key (cs ++ ds) = forKey key cs ++ forKey key ds := List.filterMap_append

theorem forKey_flatMap {α : Type} (key : String) (parts : List α) (f : α → List Change) :
    forKey key (parts.flatMap f) = parts.flatMap fun part => forKey key (f part) := by
  induction parts with
  | nil => rfl
  | cons part rest ih => rw [List.flatMap_cons, forKey_append, ih, List.flatMap_cons]

theorem forKey_below (key k : String) (cs : List Change) :
    forKey key (cs.map (Change.below [k])) = if k = key then cs else [] := by
  induction cs with
  | nil => simp [forKey]
  | cons c rest ih =>
    rw [List.map_cons, forKey, List.filterMap_cons]
    rw [forKey] at ih
    rw [ih]
    by_cases hk : k = key <;> simp [Change.below, hk]

theorem lookup_eq_some_iff {β : Type} {l : List (String × β)} (h : (l.map Prod.fst).Nodup)
    {key : String} {value : β} : l.lookup key = some value ↔ (key, value) ∈ l := by
  induction l with
  | nil => simp
  | cons e rest ih =>
    obtain ⟨k, v⟩ := e
    rw [List.map_cons, List.nodup_cons] at h
    rw [List.lookup_cons, List.mem_cons]
    by_cases hk : key = k
    · subst hk
      have hnot : (key, value) ∉ rest := fun hmem =>
        h.1 (List.mem_map.mpr ⟨(key, value), hmem, rfl⟩)
      simp [hnot, eq_comm]
    · simp [beq_eq_false_iff_ne.mpr hk, hk, ih h.2]

theorem lookup_eq_none_of_notMem {β : Type} {l : List (String × β)} {key : String}
    (h : key ∉ l.map Prod.fst) : l.lookup key = none := by
  rw [List.lookup_eq_none_iff]
  intro e he
  rw [bne_iff_ne]
  rintro rfl
  exact h (List.mem_map_of_mem he)

/-- Of parts with a key each, only the one with a key adds to what is there at it. -/
theorem flatMap_of_key {β γ : Type} {parts : List (String × β)}
    (hnodup : (parts.map Prod.fst).Nodup) {key : String} {h : String × β → List γ}
    (hother : ∀ part ∈ parts, part.1 ≠ key → h part = []) :
    parts.flatMap h = ((parts.lookup key).map fun value => h (key, value)).getD [] := by
  induction parts with
  | nil => rfl
  | cons part rest ih =>
    obtain ⟨k, value⟩ := part
    rw [List.map_cons, List.nodup_cons] at hnodup
    rw [List.forall_mem_cons] at hother
    rw [List.flatMap_cons, ih hnodup.2 hother.2, List.lookup_cons]
    by_cases hk : key = k
    · subst hk
      simp [lookup_eq_none_of_notMem hnodup.1]
    · have hne : k ≠ key := fun heq => hk heq.symm
      simp [beq_eq_false_iff_ne.mpr hk, hother.1 hne]

/-- The parts of two objects, each below its key. -/
theorem parts_eq (f g : List (String × Json)) :
    diffFields f g [] ++ addedFields f g [] =
      (f.map fun e => (e.1, (diffAt (some e.2) (g.lookup e.1)).map (Change.below [e.1]))) ++
        (g.filter fun e => (f.lookup e.1).isNone).map fun e =>
          (e.1, (diffAt none (some e.2)).map (Change.below [e.1])) := by
  rw [diffFields_eq_map, addedFields]
  congr 1
  apply List.map_congr_left
  intro e _
  cases g.lookup e.1 with
  | none => rfl
  | some y =>
    have happend := diffInto_append e.2 y [e.1] []
    rw [List.append_nil] at happend
    simp only [List.nil_append, happend, diffAt]

theorem forKey_diffInto {f g : List (String × Json)} (hf : (f.map Prod.fst).Nodup)
    (hg : (g.map Prod.fst).Nodup) (key : String) :
    forKey key (diffInto (.dict f) (.dict g) []) = diffAt (f.lookup key) (g.lookup key) := by
  rw [diffInto, inKeyOrder, forKey_flatMap, parts_eq]
  generalize hparts : (f.map fun e =>
      (e.1, (diffAt (some e.2) (g.lookup e.1)).map (Change.below [e.1]))) ++
    ((g.filter fun e => (f.lookup e.1).isNone).map fun e =>
      (e.1, (diffAt none (some e.2)).map (Change.below [e.1]))) = parts
  have hkeys : parts.map Prod.fst =
      f.map Prod.fst ++ (g.filter fun e => (f.lookup e.1).isNone).map Prod.fst := by
    rw [← hparts, List.map_append, List.map_map, List.map_map]
    rfl
  have hnodup : (parts.map Prod.fst).Nodup := by
    rw [hkeys, List.nodup_append]
    refine ⟨hf, hg.sublist (List.filter_sublist.map Prod.fst), ?_⟩
    rintro k hk k' hk' rfl
    obtain ⟨e, he, rfl⟩ := List.mem_map.mp hk
    obtain ⟨e', he', heq⟩ := List.mem_map.mp hk'
    have hnone := (List.mem_filter.mp he').2
    rw [heq, (lookup_eq_some_iff hf).mpr he] at hnone
    cases hnone
  have hperm := List.perm_insertionSort (fun a b : String × List Change => a.1 ≤ b.1) parts
  have hsorted : ((parts.insertionSort fun a b => a.1 ≤ b.1).map Prod.fst).Nodup :=
    (hperm.map Prod.fst).nodup_iff.mpr hnodup
  have hmem : ∀ part ∈ parts,
      part.2 = (diffAt (f.lookup part.1) (g.lookup part.1)).map (Change.below [part.1]) := by
    intro part hpart
    rw [← hparts] at hpart
    rcases List.mem_append.mp hpart with h | h
    · obtain ⟨e, he, rfl⟩ := List.mem_map.mp h
      rw [(lookup_eq_some_iff hf).mpr he]
    · obtain ⟨e, he, rfl⟩ := List.mem_map.mp h
      obtain ⟨hin, hnone⟩ := List.mem_filter.mp he
      rw [(lookup_eq_some_iff hg).mpr hin, Option.isNone_iff_eq_none.mp hnone]
  have hforKey : ∀ part ∈ parts.insertionSort fun a b => a.1 ≤ b.1,
      part.1 ≠ key → forKey key part.2 = [] := by
    intro part hpart hne
    rw [hmem part (hperm.mem_iff.mp hpart), forKey_below, if_neg hne]
  rw [flatMap_of_key hsorted hforKey]
  cases hlook : (parts.insertionSort fun a b => a.1 ≤ b.1).lookup key with
  | some changes =>
    have hin := hperm.mem_iff.mp ((lookup_eq_some_iff hsorted).mp hlook)
    have hchanges := hmem _ hin
    dsimp only at hchanges
    rw [Option.map_some, Option.getD_some, hchanges, forKey_below, if_pos rfl]
  | none =>
    have hnot : key ∉ parts.map Prod.fst := by
      intro hkey
      rw [← (hperm.map Prod.fst).mem_iff] at hkey
      obtain ⟨part, hpart, rfl⟩ := List.mem_map.mp hkey
      rw [(lookup_eq_some_iff hsorted).mpr hpart] at hlook
      cases hlook
    rw [hkeys, List.mem_append, not_or] at hnot
    have hold := lookup_eq_none_of_notMem hnot.1
    have hnew : g.lookup key = none := by
      cases hval : g.lookup key with
      | none => rfl
      | some value =>
        refine absurd (List.mem_map.mpr ⟨(key, value), ?_, rfl⟩) hnot.2
        rw [List.mem_filter]
        exact ⟨lookup_mem hval, Option.isNone_iff_eq_none.mpr hold⟩
    rw [hold, hnew]
    rfl

/-- A change made at a key is a change of the whole object. -/
theorem mem_of_forKey {key : String} {changes : List Change} {c : Change}
    (h : c ∈ forKey key changes) : c.below [key] ∈ changes := by
  rw [forKey, List.mem_filterMap] at h
  obtain ⟨d, hd, heq⟩ := h
  obtain ⟨path, old, new⟩ := d
  cases path with
  | nil => cases heq
  | cons k rest =>
    dsimp only at heq
    split at heq
    · rename_i hk
      cases heq
      subst hk
      exact hd
    · cases heq

theorem path_ne_nil_of_mem {f g : List (String × Json)} {c : Change}
    (h : c ∈ diffInto (.dict f) (.dict g) []) : c.path ≠ [] := by
  rw [diffInto, mem_inKeyOrder, parts_eq] at h
  obtain ⟨part, hpart, hc⟩ := h
  rcases List.mem_append.mp hpart with hpart | hpart
  · obtain ⟨e, -, rfl⟩ := List.mem_map.mp hpart
    obtain ⟨d, -, rfl⟩ := List.mem_map.mp hc
    exact List.cons_ne_nil _ _
  · obtain ⟨e, -, rfl⟩ := List.mem_map.mp hpart
    obtain ⟨d, -, rfl⟩ := List.mem_map.mp hc
    exact List.cons_ne_nil _ _

theorem forKey_inverse (key : String) (changes : List Change) :
    forKey key (inverse changes) = inverse (forKey key changes) := by
  rw [forKey, forKey, inverse, inverse, List.filterMap_map, List.map_filterMap]
  apply List.filterMap_congr
  intro c _
  obtain ⟨path, old, new⟩ := c
  cases path with
  | nil => rfl
  | cons k rest => by_cases hk : k = key <;> simp [hk]

/-- Applied to the first, the changes give the second. -/
def Applies (changes : List Change) (old new : Option Json) : Prop :=
  IdenticalAt (applyChanges changes old) new

theorem identicalAt_dict_iff {f g : List (String × Json)} :
    IdenticalAt (some (.dict f)) (some (.dict g)) ↔
      ∀ key, IdenticalAt (f.lookup key) (g.lookup key) := by
  constructor
  · intro h
    cases h with
    | some h =>
      cases h with
      | dict h => exact h
  · exact fun h => .some (.dict h)

theorem applies_dict_iff {changes : List Change} (h : ∀ c ∈ changes, c.path ≠ [])
    {f g : List (String × Json)} :
    Applies changes (some (.dict f)) (some (.dict g)) ↔
      ∀ key, Applies (forKey key changes) (f.lookup key) (g.lookup key) := by
  obtain ⟨fields, hall, hkeys⟩ := applyChanges_dict changes h f
  rw [Applies, hall, identicalAt_dict_iff]
  apply forall_congr'
  intro key
  rw [hkeys key, Applies]

/-- No two lists at one place are equal by value without being the same. -/
def ListsAgree (old new : Json) : Prop :=
  ∀ path xs ys, getPath old path = some (.list xs) → getPath new path = some (.list ys) →
    pyEq (.list xs) (.list ys) = true → Identical (.list xs) (.list ys)

theorem ListsAgree.field {f g : List (String × Json)} (h : ListsAgree (.dict f) (.dict g))
    {key : String} {x y : Json} (hx : f.lookup key = some x) (hy : g.lookup key = some y) :
    ListsAgree x y := by
  intro path xs ys hxs hys
  apply h (key :: path) xs ys
  · simpa [getPath, hx] using hxs
  · simpa [getPath, hy] using hys

theorem getPath_nil (doc : Json) : getPath doc [] = some doc := by cases doc <;> rfl

/-- Equal by value and of one type, two values that are not objects are the same, unless
they are lists. -/
theorem identical_of_pyEq {old new : Json} (hdict : ¬(old.isDict = true ∧ new.isDict = true))
    (hlists : ListsAgree old new) (h : (pyEq old new && sameType old new) = true) :
    Identical old new := by
  rw [Bool.and_eq_true] at h
  obtain ⟨heq, htype⟩ := h
  cases old with
  | null =>
    cases new with
    | null => exact .null
    | _ => simp [sameType] at htype
  | bool a =>
    cases new with
    | bool b =>
      rw [pyEq, decide_eq_true_iff] at heq
      exact heq ▸ .bool a
    | _ => simp [sameType] at htype
  | int a =>
    cases new with
    | int b =>
      rw [pyEq, decide_eq_true_iff] at heq
      exact heq ▸ .int a
    | _ => simp [sameType] at htype
  | float a =>
    cases new with
    | float b =>
      rw [pyEq, decide_eq_true_iff] at heq
      exact heq ▸ .float a
    | _ => simp [sameType] at htype
  | str a =>
    cases new with
    | str b =>
      rw [pyEq, decide_eq_true_iff] at heq
      exact heq ▸ .str a
    | _ => simp [sameType] at htype
  | list xs =>
    cases new with
    | list ys => exact hlists [] xs ys rfl rfl heq
    | _ => simp [sameType] at htype
  | dict f =>
    cases new with
    | dict g => exact absurd ⟨rfl, rfl⟩ hdict
    | _ => simp [sameType] at htype

theorem applies_leaf (x y : Option Json) :
    Applies [⟨[], x, y⟩] x y ∧ Applies (inverse [⟨[], x, y⟩]) y x := by
  have hsame : ∀ z : Option Json, IdenticalAt z z := by
    intro z
    cases z with
    | none => exact .none
    | some z => exact .some (Identical.refl z)
  have hassign : ∀ z w : Option Json, assign z [] w = w := by
    intro z w
    rcases z with _ | (_ | _ | _ | _ | _ | _ | _) <;> rfl
  constructor
  · rw [Applies, applyChanges, List.foldl_cons, List.foldl_nil, hassign]
    exact hsame y
  · rw [Applies, applyChanges, inverse, List.map_singleton, List.foldl_cons, List.foldl_nil,
      hassign]
    exact hsame x

/-- Where the lists agree, the changes lead from the old to the new and back. -/
theorem applies_diffInto {old new : Json} (hold : old.WellKeyed) (hnew : new.WellKeyed)
    (hlists : ListsAgree old new) :
    Applies (diffInto old new []) (some old) (some new) ∧
      Applies (inverse (diffInto old new [])) (some new) (some old) := by
  induction old using Json.byParts generalizing new with
  | h old hitems hfields =>
    clear hitems
    by_cases hdict : old.isDict = true ∧ new.isDict = true
    · obtain ⟨hf, hg⟩ := hdict
      obtain ⟨f, rfl⟩ := Json.isDict_iff.mp hf
      obtain ⟨g, rfl⟩ := Json.isDict_iff.mp hg
      have hkeys : ∀ key,
          Applies (diffAt (f.lookup key) (g.lookup key)) (f.lookup key) (g.lookup key) ∧
          Applies (inverse (diffAt (f.lookup key) (g.lookup key))) (g.lookup key)
            (f.lookup key) := by
        intro key
        cases hx : f.lookup key with
        | none =>
          cases hy : g.lookup key with
          | none => exact ⟨.none, .none⟩
          | some y => exact applies_leaf none (some y)
        | some x =>
          cases hy : g.lookup key with
          | none => exact applies_leaf (some x) none
          | some y =>
            exact hfields f rfl _ (lookup_mem hx) (wellKeyed_of_lookup hold hx)
              (wellKeyed_of_lookup hnew hy) (hlists.field hx hy)
      have hpaths : ∀ c ∈ inverse (diffInto (.dict f) (.dict g) []), c.path ≠ [] := by
        intro c hc
        obtain ⟨d, hd, rfl⟩ := List.mem_map.mp hc
        have hne : d.path ≠ [] := path_ne_nil_of_mem hd
        exact hne
      rw [applies_dict_iff fun c => path_ne_nil_of_mem, applies_dict_iff hpaths]
      constructor
      · intro key
        rw [forKey_diffInto (wellKeyed_dict_iff.mp hold).1 (wellKeyed_dict_iff.mp hnew).1]
        exact (hkeys key).1
      · intro key
        rw [forKey_inverse, forKey_diffInto (wellKeyed_dict_iff.mp hold).1
          (wellKeyed_dict_iff.mp hnew).1]
        exact (hkeys key).2
    · rw [diffInto_leaf hdict]
      split
      · rename_i heq
        have hsame := identical_of_pyEq hdict hlists heq
        exact ⟨.some hsame, .some hsame.symm⟩
      · exact applies_leaf (some old) (some new)

/-- Changes that lead to the new document leave no lists that only look equal. -/
theorem listsAgree_of_applies {old new : Json} (hold : old.WellKeyed) (hnew : new.WellKeyed)
    (h : Applies (diffInto old new []) (some old) (some new)) : ListsAgree old new := by
  intro path xs ys hxs hys heq
  induction path generalizing old new with
  | nil =>
    rw [getPath_nil, Option.some.injEq] at hxs hys
    subst hxs hys
    have hleaf : diffInto (.list xs) (.list ys) [] = [] := by
      rw [diffInto, heq]
      · rfl
      · exact nofun
    rw [hleaf] at h
    cases h with
    | some hsame => exact hsame
  | cons key rest ih =>
    cases old with
    | dict f =>
      cases new with
      | dict g =>
        rw [applies_dict_iff fun c => path_ne_nil_of_mem] at h
        have hkey := h key
        rw [forKey_diffInto (wellKeyed_dict_iff.mp hold).1 (wellKeyed_dict_iff.mp hnew).1] at hkey
        rw [getPath] at hxs hys
        cases hx : f.lookup key with
        | none => simp [hx] at hxs
        | some x =>
          cases hy : g.lookup key with
          | none => simp [hy] at hys
          | some y =>
            rw [hx] at hkey hxs
            rw [hy] at hkey hys
            exact ih (wellKeyed_of_lookup hold hx) (wellKeyed_of_lookup hnew hy) hkey hxs hys
      | _ => simp [getPath] at hys
    | _ => simp [getPath] at hxs

theorem wellKeyed_list_iff {items : List Json} :
    (Json.list items).WellKeyed ↔ ∀ x ∈ items, x.WellKeyed := by
  rw [Json.WellKeyed]
  induction items with
  | nil => simp [Json.WellKeyedItems]
  | cons x rest ih => rw [Json.WellKeyedItems, ih, List.forall_mem_cons]

theorem pyEqFields_iff {f g : List (String × Json)} :
    pyEqFields f g = true ↔ ∀ e ∈ f, ∃ y, g.lookup e.1 = some y ∧ pyEq e.2 y = true := by
  induction f with
  | nil => simp [pyEqFields]
  | cons e rest ih =>
    rw [pyEqFields, Bool.and_eq_true, ih, List.forall_mem_cons]
    cases g.lookup e.1 with
    | none => simp
    | some y => simp

theorem length_eq_of_lookup {f g : List (String × Json)} (hf : (f.map Prod.fst).Nodup)
    (hg : (g.map Prod.fst).Nodup)
    (h : ∀ key, IdenticalAt (f.lookup key) (g.lookup key)) : f.length = g.length := by
  have hkeys : ∀ key, key ∈ f.map Prod.fst ↔ key ∈ g.map Prod.fst := by
    intro key
    have hkey := h key
    constructor
    · intro hmem
      by_contra hnot
      obtain ⟨e, he, rfl⟩ := List.mem_map.mp hmem
      rw [(lookup_eq_some_iff hf).mpr he, lookup_eq_none_of_notMem hnot] at hkey
      cases hkey
    · intro hmem
      by_contra hnot
      obtain ⟨e, he, rfl⟩ := List.mem_map.mp hmem
      rw [(lookup_eq_some_iff hg).mpr he, lookup_eq_none_of_notMem hnot] at hkey
      cases hkey
  have hperm := (List.perm_ext_iff_of_nodup hf hg).mpr hkeys
  simpa using hperm.length_eq

theorem pyEq_of_identical {x y : Json} (hx : x.WellKeyed) (hy : y.WellKeyed)
    (h : Identical x y) : pyEq x y = true := by
  induction x using Json.byParts generalizing y with
  | h x hitems hfields =>
    cases h with
    | null => simp [pyEq]
    | bool b => simp [pyEq]
    | int i => simp [pyEq]
    | float q => simp [pyEq]
    | str s => simp [pyEq]
    | @list xs ys h =>
      rw [wellKeyed_list_iff] at hx hy
      replace hitems := hitems xs rfl
      clear hfields
      rw [pyEq]
      induction h with
      | nil => rfl
      | cons hhead _ ih =>
        rw [List.forall_mem_cons] at hx hy hitems
        rw [pyEqItems, hitems.1 hx.1 hy.1 hhead, ih hx.2 hy.2 hitems.2]
        rfl
    | @dict f g h =>
      have hf := (wellKeyed_dict_iff.mp hx).1
      have hg := (wellKeyed_dict_iff.mp hy).1
      rw [pyEq, Bool.and_eq_true, decide_eq_true_iff]
      refine ⟨length_eq_of_lookup hf hg h, pyEqFields_iff.mpr ?_⟩
      intro e he
      have hkey := h e.1
      have hlook := (lookup_eq_some_iff hf).mpr he
      rw [hlook] at hkey
      cases hval : g.lookup e.1 with
      | none =>
        rw [hval] at hkey
        cases hkey
      | some y =>
        rw [hval] at hkey
        cases hkey with
        | some hsame =>
          exact ⟨y, rfl, hfields f rfl e he (wellKeyed_of_lookup hx hlook)
            (wellKeyed_of_lookup hy hval) hsame⟩

theorem Identical.sameType {x y : Json} (h : Identical x y) : sameType x y = true := by
  cases h <;> rfl

theorem diffInto_of_identical {old new : Json} (hold : old.WellKeyed) (hnew : new.WellKeyed)
    (h : Identical old new) : diffInto old new [] = [] := by
  induction old using Json.byParts generalizing new with
  | h old hitems hfields =>
    clear hitems
    by_cases hdict : old.isDict = true ∧ new.isDict = true
    · obtain ⟨hf, hg⟩ := hdict
      obtain ⟨f, rfl⟩ := Json.isDict_iff.mp hf
      obtain ⟨g, rfl⟩ := Json.isDict_iff.mp hg
      have hkeys := identicalAt_dict_iff.mp (.some h)
      rw [List.eq_nil_iff_forall_not_mem]
      intro c hc
      obtain ⟨path, x, y⟩ := c
      cases path with
      | nil => exact path_ne_nil_of_mem hc rfl
      | cons key rest =>
        have hmem : ⟨rest, x, y⟩ ∈ forKey key (diffInto (.dict f) (.dict g) []) := by
          rw [forKey, List.mem_filterMap]
          exact ⟨_, hc, if_pos rfl⟩
        rw [forKey_diffInto (wellKeyed_dict_iff.mp hold).1 (wellKeyed_dict_iff.mp hnew).1] at hmem
        have hkey := hkeys key
        cases hx : f.lookup key with
        | none =>
          rw [hx] at hkey hmem
          generalize g.lookup key = z at hkey hmem
          cases hkey
          cases hmem
        | some v =>
          cases hy : g.lookup key with
          | none =>
            rw [hx, hy] at hkey
            cases hkey
          | some w =>
            rw [hx, hy] at hkey hmem
            cases hkey with
            | some hsame =>
              have hnil := hfields f rfl _ (lookup_mem hx) (wellKeyed_of_lookup hold hx)
                (wellKeyed_of_lookup hnew hy) hsame
              rw [diffAt, hnil] at hmem
              cases hmem
    · rw [diffInto_leaf hdict, pyEq_of_identical hold hnew h, h.sameType]
      rfl

theorem identical_of_diffInto {old new : Json} (hold : old.WellKeyed) (hnew : new.WellKeyed)
    (hlists : ListsAgree old new) (h : diffInto old new [] = []) : Identical old new := by
  have happlies := (applies_diffInto hold hnew hlists).1
  rw [h] at happlies
  cases happlies with
  | some hsame => exact hsame

theorem identicalAt_getPath {old new : Json} (h : Identical old new) (path : Path) :
    IdenticalAt (getPath old path) (getPath new path) := by
  induction path generalizing old new with
  | nil =>
    rw [getPath_nil, getPath_nil]
    exact .some h
  | cons key rest ih =>
    cases h with
    | @dict f g h =>
      have hkey := h key
      rw [getPath, getPath]
      cases hx : f.lookup key with
      | none =>
        rw [hx] at hkey
        generalize g.lookup key = z at hkey
        cases hkey
        exact .none
      | some x =>
        rw [hx] at hkey
        cases hy : g.lookup key with
        | none =>
          rw [hy] at hkey
          cases hkey
        | some y =>
          rw [hy] at hkey
          cases hkey with
          | some hsame => exact ih hsame
    | _ => exact .none

/-- A section that differs has a change above, at or below it. -/
theorem under_ne_nil {old new : Json} (hold : old.WellKeyed) (hnew : new.WellKeyed)
    (hlists : ListsAgree old new) {path : Path}
    (hdiff : ¬IdenticalAt (getPath old path) (getPath new path)) :
    under (diffInto old new []) path ≠ [] := by
  have hsome : ∃ c ∈ diffInto old new [],
      (path.isPrefixOf c.path || c.path.isPrefixOf path) = true := by
    induction path generalizing old new with
    | nil =>
      rw [getPath_nil, getPath_nil] at hdiff
      cases hchanges : diffInto old new [] with
      | nil =>
        have hsame := identical_of_diffInto hold hnew hlists hchanges
        exact absurd (.some hsame) hdiff
      | cons c rest => exact ⟨c, List.mem_cons_self, by simp⟩
    | cons key rest ih =>
      by_cases hdict : old.isDict = true ∧ new.isDict = true
      · obtain ⟨hf, hg⟩ := hdict
        obtain ⟨f, rfl⟩ := Json.isDict_iff.mp hf
        obtain ⟨g, rfl⟩ := Json.isDict_iff.mp hg
        rw [getPath, getPath] at hdiff
        have hat : ∃ c ∈ diffAt (f.lookup key) (g.lookup key),
            (rest.isPrefixOf c.path || c.path.isPrefixOf rest) = true := by
          cases hx : f.lookup key with
          | none =>
            cases hy : g.lookup key with
            | none =>
              rw [hx, hy] at hdiff
              exact absurd .none hdiff
            | some y => exact ⟨_, List.mem_singleton_self _, by simp⟩
          | some x =>
            cases hy : g.lookup key with
            | none => exact ⟨_, List.mem_singleton_self _, by simp⟩
            | some y =>
              rw [hx, hy] at hdiff
              exact ih (wellKeyed_of_lookup hold hx) (wellKeyed_of_lookup hnew hy)
                (hlists.field hx hy) hdiff
        obtain ⟨c, hc, hpath⟩ := hat
        rw [← forKey_diffInto (wellKeyed_dict_iff.mp hold).1 (wellKeyed_dict_iff.mp hnew).1] at hc
        exact ⟨c.below [key], mem_of_forKey hc, by simpa [Change.below] using hpath⟩
      · have hleaf := diffInto_leaf hdict []
        split at hleaf
        · have hsame := identical_of_diffInto hold hnew hlists hleaf
          exact absurd (identicalAt_getPath hsame (key :: rest)) hdiff
        · rw [hleaf]
          exact ⟨_, List.mem_singleton_self _, by simp⟩
  obtain ⟨c, hc, hpath⟩ := hsome
  exact List.ne_nil_of_mem (List.mem_filter.mpr ⟨hc, hpath⟩)

/-- The diff of two documents leads from one to the other and back, is empty only for the
same document, and has changes under every section that differs. -/
def IsTheChange (old new : Json) : Prop :=
  Applies (diffDocuments old new) (some old) (some new) ∧
    Applies (inverse (diffDocuments old new)) (some new) (some old) ∧
    (diffDocuments old new = [] ↔ Identical old new) ∧
    ∀ path, ¬IdenticalAt (getPath old path) (getPath new path) →
      under (diffDocuments old new) path ≠ []

theorem isTheChange_iff {old new : Json} (hold : old.WellKeyed) (hnew : new.WellKeyed) :
    IsTheChange old new ↔ ListsAgree old new := by
  constructor
  · exact fun h => listsAgree_of_applies hold hnew h.1
  · intro hlists
    obtain ⟨hforth, hback⟩ := applies_diffInto hold hnew hlists
    have hempty : diffDocuments old new = [] ↔ Identical old new :=
      ⟨identical_of_diffInto hold hnew hlists, diffInto_of_identical hold hnew⟩
    exact ⟨hforth, hback, hempty, fun _ => under_ne_nil hold hnew hlists⟩

theorem isTheChange_iff_flag :
    IsTheChange (.dict [("a", .int 1)]) (.dict [("a", .bool true)]) ↔
      ListsAgree (.dict [("a", .int 1)]) (.dict [("a", .bool true)]) := by
  have hold : (Json.dict [("a", .int 1)]).WellKeyed := by
    simp [Json.WellKeyed, Json.WellKeyedFields]
  have hnew : (Json.dict [("a", .bool true)]).WellKeyed := by
    simp [Json.WellKeyed, Json.WellKeyedFields]
  exact isTheChange_iff hold hnew

theorem not_isTheChange :
    ¬∀ old new : Json, old.WellKeyed → new.WellKeyed → IsTheChange old new := by
  intro h
  have hold : (Json.dict [("a", .list [.int 1])]).WellKeyed := by
    simp [Json.WellKeyed, Json.WellKeyedFields, Json.WellKeyedItems]
  have hnew : (Json.dict [("a", .list [.bool true])]).WellKeyed := by
    simp [Json.WellKeyed, Json.WellKeyedFields, Json.WellKeyedItems]
  have hempty := (h _ _ hold hnew).2.2.1
  have hnone : diffDocuments (.dict [("a", .list [.int 1])]) (.dict [("a", .list [.bool true])]) =
      [] := by
    simp [diffDocuments, diffInto, diffFields, addedFields, inKeyOrder, pyEq, pyEqItems, sameType]
  have hsame := identicalAt_getPath (hempty.mp hnone) ["a"]
  cases hsame with
  | some hsame =>
    cases hsame with
    | list hitems =>
      cases hitems with
      | cons hhead _ => cases hhead

end Packets
