/-
A redacted document written back: its placeholders resolve to what is stored, and one where
nothing is stored is refused wherever the walk over secret places goes.
-/
import Packets.Config.Redaction

namespace Packets

theorem covered_fillNode (g : Json → Path → Json) (n : Node) (doc : Json) (path : Path) :
    covered n (fillNode g n doc path) path =
      (covered n doc path).map fun x => (x.1, g x.2 x.1) := by
  induction n using Node.byLookup generalizing doc path with
  | fixed keys ih =>
    cases doc with
    | dict fields =>
      rw [fillNode, covered, covered, List.flatMap_map, List.map_flatMap]
      congr 1
      funext e
      simp only [coveredKey_eq, fillKey_eq]
      cases hlook : keys.lookup e.1 with
      | none => rfl
      | some node =>
        by_cases hsecret : node.isSecret = true
        · simp [hsecret]
        · simpa [hsecret] using ih e.1 node hlook e.2 (path ++ [e.1])
    | _ => rfl
  | keyed _ _ value ih | list value ih =>
    cases doc with
    | dict fields =>
      rw [fillNode, covered, covered, List.flatMap_map, List.map_flatMap]
      congr 1
      funext e
      exact ih e.2 (path ++ [e.1])
    | _ => rfl
  | _ => rfl

theorem fillNode_fillNode (g h : Json → Path → Json) (n : Node) (doc : Json) (path : Path) :
    fillNode g n (fillNode h n doc path) path =
      fillNode (fun value path => g (h value path) path) n doc path := by
  induction n using Node.byLookup generalizing doc path with
  | fixed keys ih =>
    cases doc with
    | dict fields =>
      simp only [fillNode, List.map_map, Json.dict.injEq]
      apply List.map_congr_left
      intro e _
      simp only [Function.comp_apply, Prod.mk.injEq, true_and, fillKey_eq]
      cases hlook : keys.lookup e.1 with
      | none => rfl
      | some node =>
        by_cases hsecret : node.isSecret = true
        · simp [hsecret]
        · simpa [hsecret] using ih e.1 node hlook e.2 (path ++ [e.1])
    | _ => rfl
  | keyed _ _ value ih | list value ih =>
    cases doc with
    | dict fields =>
      simp only [fillNode, List.map_map, Json.dict.injEq]
      apply List.map_congr_left
      intro e _
      simp only [Function.comp_apply, Prod.mk.injEq, true_and]
      exact ih e.2 (path ++ [e.1])
    | _ => rfl
  | _ => rfl

/-- Filling in what is there already changes nothing. -/
theorem fillNode_eq_self {g : Json → Path → Json} {n : Node} {doc : Json} {path : Path}
    (h : ∀ x ∈ covered n doc path, g x.2 x.1 = x.2) : fillNode g n doc path = doc := by
  induction n using Node.byLookup generalizing doc path with
  | fixed keys ih =>
    cases doc with
    | dict fields =>
      rw [fillNode, Json.dict.injEq]
      apply (List.map_congr_left _).trans (List.map_id _)
      intro e he
      have hkey : ∀ x ∈ coveredKey keys e.1 e.2 (path ++ [e.1]), g x.2 x.1 = x.2 :=
        fun x hx => h x (List.mem_flatMap.mpr ⟨e, he, hx⟩)
      rw [coveredKey_eq] at hkey
      rw [fillKey_eq]
      cases hlook : keys.lookup e.1 with
      | none => rfl
      | some node =>
        rw [hlook] at hkey
        by_cases hsecret : node.isSecret = true
        · simp only [if_pos hsecret] at hkey ⊢
          rw [hkey _ List.mem_cons_self]
          rfl
        · simp only [if_neg hsecret] at hkey ⊢
          rw [ih e.1 node hlook hkey]
          rfl
    | _ => rfl
  | keyed _ _ value ih | list value ih =>
    cases doc with
    | dict fields =>
      rw [fillNode, Json.dict.injEq]
      apply (List.map_congr_left _).trans (List.map_id _)
      intro e he
      rw [ih fun x hx => h x (List.mem_flatMap.mpr ⟨e, he, hx⟩)]
      rfl
    | _ => rfl
  | _ => rfl

theorem Json.WellKeyed.field {fields : List (String × Json)} (h : (Json.dict fields).WellKeyed)
    {e : String × Json} (he : e ∈ fields) : fields.lookup e.1 = some e.2 ∧ e.2.WellKeyed := by
  obtain ⟨hnodup, hfields⟩ := h
  induction fields with
  | nil => simp at he
  | cons x rest ih =>
    obtain ⟨k, v⟩ := x
    rw [List.map_cons, List.nodup_cons] at hnodup
    obtain ⟨hv, hrest⟩ := hfields
    rcases List.mem_cons.mp he with rfl | he
    · exact ⟨by simp, hv⟩
    · have hne : (e.1 == k) = false :=
        beq_eq_false_iff_ne.mpr fun heq => hnodup.1 (List.mem_map.mpr ⟨e, he, heq⟩)
      obtain ⟨hlook, hwell⟩ := ih he hnodup.2 hrest
      exact ⟨by rw [List.lookup_cons, hne]; exact hlook, hwell⟩

/-- What a walk visits stands at its path. -/
theorem getPath_of_covered {n : Node} {doc : Json} (hdoc : doc.WellKeyed) {path : Path}
    {x : Path × Json} (hx : x ∈ covered n doc path) :
    ∃ rest, x.1 = path ++ rest ∧ getPath doc rest = some x.2 := by
  induction n using Node.byLookup generalizing doc path with
  | fixed keys ih =>
    cases doc with
    | dict fields =>
      obtain ⟨e, he, hx⟩ := List.mem_flatMap.mp hx
      obtain ⟨hlook, hwell⟩ := hdoc.field he
      rw [coveredKey_eq] at hx
      cases hnode : keys.lookup e.1 with
      | none => simp [hnode] at hx
      | some node =>
        rw [hnode] at hx
        by_cases hsecret : node.isSecret = true
        · simp only [if_pos hsecret, List.mem_singleton] at hx
          subst hx
          exact ⟨[e.1], rfl, by simp [getPath, hlook]⟩
        · simp only [if_neg hsecret] at hx
          obtain ⟨rest, hrest, hget⟩ := ih e.1 node hnode hwell hx
          exact ⟨e.1 :: rest, by simpa using hrest, by simpa [getPath, hlook] using hget⟩
    | _ => simp [covered] at hx
  | keyed _ _ value ih | list value ih =>
    cases doc with
    | dict fields =>
      obtain ⟨e, he, hx⟩ := List.mem_flatMap.mp hx
      obtain ⟨hlook, hwell⟩ := hdoc.field he
      obtain ⟨rest, hrest, hget⟩ := ih hwell hx
      exact ⟨e.1 :: rest, by simpa using hrest, by simpa [getPath, hlook] using hget⟩
    | _ => simp [covered] at hx
  | _ => simp [covered] at hx

/-- Neither leads further along the other: the path is at, above or below a place of
the pattern unless a key tells them apart. -/
def overlaps (path : Path) (pattern : Pattern) : Bool :=
  (path.zip pattern).all fun x => x.2 = none || x.2 = some x.1

/-- No secret stands at, above or below the path. -/
def Beside (n : Node) (path : Path) : Prop :=
  ∀ spath ∈ secretPaths n [], overlaps path spath = false

/-- The node of a key of an object at this node. -/
def Node.child : Node → String → Option Node
  | .fixed keys, key => keys.lookup key
  | .keyed _ _ value, _ | .list value, _ => some value
  | _, _ => none

theorem mem_secretPathsKeys {keys : Keys} {key : String} {node : Node} {spath : Pattern}
    (hlook : keys.lookup key = some node) (h : spath ∈ secretPaths node []) :
    some key :: spath ∈ secretPathsKeys keys [] := by
  cases keys with
  | nil => simp [Keys.lookup] at hlook
  | cons k _ first rest =>
    rw [Keys.lookup] at hlook
    rw [secretPathsKeys, secretPaths_append, List.mem_append]
    by_cases hk : k = key
    · rw [if_pos hk, Option.some.injEq] at hlook
      subst hk hlook
      exact .inl (List.mem_map.mpr ⟨spath, h, rfl⟩)
    · rw [if_neg hk] at hlook
      exact .inr (mem_secretPathsKeys hlook h)

theorem Beside.child {n node : Node} {key : String} {path : Path} (h : Beside n (key :: path))
    (hchild : n.child key = some node) : Beside node path := by
  intro spath hmem
  cases n with
  | fixed keys =>
    have hover := h _ (mem_secretPathsKeys hchild hmem)
    simpa [overlaps] using hover
  | keyed _ _ value | list value =>
    cases hchild
    have hover := h (none :: spath) (by
      rw [secretPaths, secretPaths_append]
      exact List.mem_map.mpr ⟨spath, hmem, rfl⟩)
    simpa [overlaps] using hover
  | _ => simp [Node.child] at hchild

theorem Beside.not_secret {n : Node} {path : Path} (h : Beside n path) : n.isSecret = false := by
  cases hsecret : n.isSecret with
  | false => rfl
  | true =>
    have hover := h [] ((nil_mem_secretPaths_iff n).mpr hsecret)
    simp [overlaps] at hover

/-- The visited places below one entry of an object. -/
def coveredEntry (n : Node) (path : Path) (e : String × Json) : List (Path × Json) :=
  match n with
  | .fixed keys => coveredKey keys e.1 e.2 (path ++ [e.1])
  | .keyed _ _ value | .list value => covered value e.2 (path ++ [e.1])
  | _ => []

def fillEntry (g : Json → Path → Json) (n : Node) (path : Path) (key : String)
    (value : Json) : Json :=
  match n with
  | .fixed keys => fillKey g keys key value (path ++ [key])
  | .keyed _ _ node | .list node => fillNode g node value (path ++ [key])
  | _ => value

/-- An object's fields with something else at the visited places. -/
def fillFields (g : Json → Path → Json) (n : Node) (path : Path)
    (fields : List (String × Json)) : List (String × Json) :=
  fields.map fun e => (e.1, fillEntry g n path e.1 e.2)

theorem covered_dict (n : Node) (fields : List (String × Json)) (path : Path) :
    covered n (.dict fields) path = fields.flatMap (coveredEntry n path) := by
  cases n <;> simp [covered, coveredEntry] <;> rfl

theorem fillNode_dict (g : Json → Path → Json) (n : Node) (fields : List (String × Json))
    (path : Path) : fillNode g n (.dict fields) path = .dict (fillFields g n path fields) := by
  cases n <;> simp [fillNode, fillFields, fillEntry]

theorem coveredEntry_of_beside {n : Node} {key : String} {rest : Path}
    (h : Beside n (key :: rest)) (path : Path) (value : Json) :
    coveredEntry n path (key, value) = match n.child key with
      | none => []
      | some node => covered node value (path ++ [key]) := by
  cases n with
  | fixed keys =>
    simp only [coveredEntry, coveredKey_eq, Node.child]
    cases hlook : keys.lookup key with
    | none => rfl
    | some node => simp [(h.child hlook).not_secret]
  | _ => rfl

theorem fillEntry_of_beside (g : Json → Path → Json) {n : Node} {key : String} {rest : Path}
    (h : Beside n (key :: rest)) (path : Path) (value : Json) :
    fillEntry g n path key value = match n.child key with
      | none => value
      | some node => fillNode g node value (path ++ [key]) := by
  cases n with
  | fixed keys =>
    simp only [fillEntry, fillKey_eq, Node.child]
    cases hlook : keys.lookup key with
    | none => rfl
    | some node => simp [(h.child hlook).not_secret]
  | _ => rfl

theorem Beside.of_nil {n : Node} (h : Beside n []) (path : Path) : Beside n path :=
  fun spath hmem => absurd (h spath hmem) (by simp [overlaps])

/-- Where no secret can be, nothing is visited. -/
theorem covered_of_beside_nil {n : Node} (h : Beside n []) (value : Json) (path : Path) :
    covered n value path = [] := by
  induction n using Node.byLookup generalizing value path with
  | fixed keys ih =>
    cases value with
    | dict fields =>
      rw [covered_dict, List.flatMap_eq_nil_iff]
      intro e _
      rw [coveredEntry_of_beside (h.of_nil [e.1])]
      cases hlook : keys.lookup e.1 with
      | none => simp [Node.child, hlook]
      | some node =>
        simp only [Node.child, hlook]
        exact ih e.1 node hlook ((h.of_nil [e.1]).child hlook) _ _
    | _ => rfl
  | keyed _ _ node ih | list node ih =>
    cases value with
    | dict fields =>
      rw [covered_dict, List.flatMap_eq_nil_iff]
      intro e _
      exact ih ((h.of_nil [e.1]).child rfl) _ _
    | _ => rfl
  | _ => rfl

theorem fillNode_of_beside_nil (g : Json → Path → Json) {n : Node} (h : Beside n [])
    (value : Json) (path : Path) : fillNode g n value path = value :=
  fillNode_eq_self (by simp [covered_of_beside_nil h])

theorem flatMap_setEntries {δ : Type} (f : String × Json → List δ) (key : String)
    (value : Json) {fields : List (String × Json)}
    (h : f (key, value) = ((fields.lookup key).map fun old => f (key, old)).getD []) :
    (Dict.setEntries key value fields).flatMap f = fields.flatMap f := by
  induction fields with
  | nil => simpa [Dict.setEntries] using h
  | cons e rest ih =>
    obtain ⟨k, old⟩ := e
    rw [Dict.setEntries]
    by_cases hk : k = key
    · subst hk
      simp only [List.lookup_cons, beq_self_eq_true, Option.map_some, Option.getD_some] at h
      rw [if_pos rfl, List.flatMap_cons, List.flatMap_cons, h]
    · have hne : (key == k) = false := beq_eq_false_iff_ne.mpr (Ne.symm hk)
      rw [List.lookup_cons, hne] at h
      rw [if_neg hk, List.flatMap_cons, List.flatMap_cons, ih h]

theorem flatMap_eraseField {δ : Type} (f : String × Json → List δ) {key : String}
    {fields : List (String × Json)} (h : ∀ old, fields.lookup key = some old → f (key, old) = []) :
    (eraseField key fields).flatMap f = fields.flatMap f := by
  induction fields with
  | nil => rfl
  | cons e rest ih =>
    obtain ⟨k, old⟩ := e
    by_cases hk : k = key
    · subst hk
      have hnil := h old (by simp)
      simp [eraseField, hnil]
    · have hne : (key == k) = false := beq_eq_false_iff_ne.mpr (Ne.symm hk)
      simp only [List.lookup_cons, hne] at h
      have hrest := ih h
      simp only [eraseField] at hrest
      simp [eraseField, hk, hrest]

section Fill

variable (g : Json → Path → Json) (n : Node) (path : Path)

theorem lookup_fillFields (fields : List (String × Json)) (key : String) :
    (fillFields g n path fields).lookup key = (fields.lookup key).map (fillEntry g n path key) := by
  induction fields with
  | nil => rfl
  | cons e rest ih =>
    obtain ⟨k, old⟩ := e
    simp only [fillFields, List.map_cons, List.lookup_cons] at ih ⊢
    by_cases hk : key = k
    · subst hk
      simp
    · have hne : (key == k) = false := beq_eq_false_iff_ne.mpr hk
      rw [hne]
      exact ih

theorem fillFields_setEntries (key : String) (value : Json) (fields : List (String × Json)) :
    fillFields g n path (Dict.setEntries key value fields) =
      Dict.setEntries key (fillEntry g n path key value) (fillFields g n path fields) := by
  induction fields with
  | nil => rfl
  | cons e rest ih =>
    obtain ⟨k, old⟩ := e
    simp only [fillFields, Dict.setEntries, List.map_cons] at ih ⊢
    by_cases hk : k = key
    · simp [hk]
    · simp [hk, ih]

theorem fillFields_eraseField (key : String) (fields : List (String × Json)) :
    fillFields g n path (eraseField key fields) = eraseField key (fillFields g n path fields) := by
  induction fields with
  | nil => rfl
  | cons e rest ih =>
    simp only [fillFields, eraseField] at ih ⊢
    by_cases hk : e.1 = key
    · simp [hk]
    · simp [hk, ih]

theorem fillFields_eq_nil_iff (fields : List (String × Json)) :
    fillFields g n path fields = [] ↔ fields = [] := by
  simp [fillFields]

end Fill

theorem covered_setEntries {n : Node} {key : String} {value : Json}
    {fields : List (String × Json)} {path : Path}
    (h : coveredEntry n path (key, value) =
      ((fields.lookup key).map fun old => coveredEntry n path (key, old)).getD []) :
    covered n (.dict (Dict.setEntries key value fields)) path = covered n (.dict fields) path := by
  rw [covered_dict, covered_dict]
  exact flatMap_setEntries _ key value h

theorem coveredEntry_of_last {n : Node} {key : String} (h : Beside n [key]) (path : Path)
    (value : Json) : coveredEntry n path (key, value) = [] := by
  rw [coveredEntry_of_beside h]
  cases hchild : n.child key with
  | none => rfl
  | some node => exact covered_of_beside_nil (h.child hchild) _ _

theorem fillEntry_of_last (g : Json → Path → Json) {n : Node} {key : String} (h : Beside n [key])
    (path : Path) (value : Json) : fillEntry g n path key value = value := by
  rw [fillEntry_of_beside g h]
  cases hchild : n.child key with
  | none => rfl
  | some node => exact fillNode_of_beside_nil g (h.child hchild) _ _

theorem coveredEntry_dict_congr {n : Node} {key : String} {rest : Path}
    (h : Beside n (key :: rest)) {path : Path} {sub sub' : List (String × Json)}
    (hsub : ∀ node, n.child key = some node →
      covered node (.dict sub') (path ++ [key]) = covered node (.dict sub) (path ++ [key])) :
    coveredEntry n path (key, .dict sub') = coveredEntry n path (key, .dict sub) := by
  rw [coveredEntry_of_beside h, coveredEntry_of_beside h]
  cases hchild : n.child key with
  | none => rfl
  | some node => exact hsub node hchild

/-- The object an intermediate key of `set_path` goes on in. -/
def sectionAt : Option Json → Option (List (String × Json))
  | none | some .null => some []
  | some (.dict sub) => some sub
  | some _ => none

theorem setPath_cons_iff {fields fields' : List (String × Json)} {key next : String}
    {rest : Path} {value : Json} {sofar : Path} :
    setPath fields (key :: next :: rest) value sofar = .ok fields' ↔
      ∃ sub sub', sectionAt (fields.lookup key) = some sub ∧
        setPath sub (next :: rest) value (sofar ++ [key]) = .ok sub' ∧
        fields' = Dict.setEntries key (.dict sub') fields := by
  rw [setPath]
  cases hlook : fields.lookup key with
  | none =>
    cases hsub : setPath [] (next :: rest) value (sofar ++ [key]) <;>
      simp [sectionAt, hsub, bind, Except.bind, pure, Except.pure, eq_comm]
  | some old =>
    cases old with
    | null =>
      cases hsub : setPath [] (next :: rest) value (sofar ++ [key]) <;>
        simp [sectionAt, hsub, bind, Except.bind, pure, Except.pure, eq_comm]
    | dict sub =>
      cases hsub : setPath sub (next :: rest) value (sofar ++ [key]) <;>
        simp [sectionAt, hsub, bind, Except.bind, pure, Except.pure, eq_comm]
    | _ => simp [sectionAt, fail]

/-- The fields of the object under a key, with something else at the visited places. -/
def fillSection (g : Json → Path → Json) (n : Node) (path : Path) (key : String)
    (sub : List (String × Json)) : List (String × Json) :=
  match n.child key with
  | none => sub
  | some node => fillFields g node (path ++ [key]) sub

theorem fillEntry_dict (g : Json → Path → Json) {n : Node} {key : String} {rest : Path}
    (h : Beside n (key :: rest)) (path : Path) (sub : List (String × Json)) :
    fillEntry g n path key (.dict sub) = .dict (fillSection g n path key sub) := by
  rw [fillEntry_of_beside g h, fillSection]
  cases n.child key with
  | none => rfl
  | some node => exact fillNode_dict g node sub _

theorem sectionAt_fill (g : Json → Path → Json) {n : Node} {key : String} {rest : Path}
    (h : Beside n (key :: rest)) (path : Path) {old : Option Json}
    {sub : List (String × Json)} (hsection : sectionAt old = some sub) :
    sectionAt (old.map (fillEntry g n path key)) = some (fillSection g n path key sub) := by
  have hnil : fillSection g n path key [] = [] := by
    rw [fillSection]
    cases n.child key <;> rfl
  cases old with
  | none =>
    cases hsection
    rw [hnil]
    rfl
  | some old =>
    cases old with
    | null =>
      cases hsection
      rw [Option.map_some, fillEntry_of_beside g h, hnil]
      cases n.child key with
      | none => rfl
      | some node => cases node <;> rfl
    | dict s =>
      cases hsection
      rw [Option.map_some, fillEntry_dict g h]
      rfl
    | _ => simp [sectionAt] at hsection

/-- A key's value, as a section, holds what the value held. -/
theorem coveredEntry_section {n : Node} {key : String} {rest : Path}
    (h : Beside n (key :: rest)) (path : Path) {old : Option Json}
    {sub : List (String × Json)} (hsection : sectionAt old = some sub) :
    coveredEntry n path (key, .dict sub) =
      (old.map fun old => coveredEntry n path (key, old)).getD [] := by
  have hnil : coveredEntry n path (key, .dict []) = [] := by
    rw [coveredEntry_of_beside h]
    cases n.child key <;> simp [covered_dict]
  cases old with
  | none =>
    cases hsection
    exact hnil
  | some old =>
    cases old with
    | null =>
      cases hsection
      rw [hnil, Option.map_some, Option.getD_some, coveredEntry_of_beside h]
      cases n.child key with
      | none => rfl
      | some node => cases node <;> rfl
    | dict s =>
      cases hsection
      rfl
    | _ => simp [sectionAt] at hsection

theorem fillSection_step {g : Json → Path → Json} {n : Node} {key : String} {path : Path}
    {sub sub' : List (String × Json)}
    (step : List (String × Json) → List (String × Json) → Prop) (hplain : step sub sub')
    (hnode : ∀ node, n.child key = some node →
      step (fillFields g node (path ++ [key]) sub) (fillFields g node (path ++ [key]) sub')) :
    step (fillSection g n path key sub) (fillSection g n path key sub') := by
  rw [fillSection, fillSection]
  cases hchild : n.child key with
  | none => exact hplain
  | some node => exact hnode node hchild

/-- Setting a path beside the secrets leaves the visited places as they were, and is
the same on the document with other values there. -/
theorem setPath_beside (g : Json → Path → Json) {n : Node} {target : Path}
    (h : Beside n target) {fields fields' : List (String × Json)} {value : Json}
    {sofar : Path} (hset : setPath fields target value sofar = .ok fields') (path : Path) :
    covered n (.dict fields') path = covered n (.dict fields) path ∧
      setPath (fillFields g n path fields) target value sofar =
        .ok (fillFields g n path fields') := by
  induction target generalizing n fields fields' sofar path with
  | nil => simp [setPath, fail] at hset
  | cons key rest ih =>
    cases rest with
    | nil =>
      rw [setPath, Except.ok.injEq] at hset
      subst hset
      constructor
      · apply covered_setEntries
        cases fields.lookup key <;> simp [coveredEntry_of_last h]
      · rw [setPath, fillFields_setEntries, fillEntry_of_last g h]
    | cons next rest =>
      obtain ⟨sub, sub', hsection, hsub, rfl⟩ := setPath_cons_iff.mp hset
      constructor
      · have hentry : coveredEntry n path (key, .dict sub') =
            coveredEntry n path (key, .dict sub) :=
          coveredEntry_dict_congr h fun node hchild => (ih (h.child hchild) hsub (path ++ [key])).1
        exact covered_setEntries (hentry.trans (coveredEntry_section h path hsection))
      · rw [fillFields_setEntries, fillEntry_dict g h]
        apply setPath_cons_iff.mpr
        rw [lookup_fillFields]
        refine ⟨_, _, sectionAt_fill g h path hsection, ?_, rfl⟩
        exact fillSection_step (fun a b => setPath a (next :: rest) value (sofar ++ [key]) = .ok b)
          hsub fun node hchild => (ih (h.child hchild) hsub (path ++ [key])).2

theorem delPath_cons_iff {fields fields' : List (String × Json)} {key next : String} {rest : Path} :
    delPath fields (key :: next :: rest) = some fields' ↔
      ∃ sub sub', fields.lookup key = some (.dict sub) ∧ delPath sub (next :: rest) = some sub' ∧
        fields' = if sub' = [] then eraseField key fields
          else Dict.setEntries key (.dict sub') fields := by
  rw [delPath]
  cases hlook : fields.lookup key with
  | none => simp
  | some old =>
    cases old with
    | dict sub => cases hsub : delPath sub (next :: rest) <;> simp [hsub, eq_comm]
    | _ => simp

/-- Removing a path beside the secrets, likewise. -/
theorem delPath_beside (g : Json → Path → Json) {n : Node} {target : Path}
    (h : Beside n target) {fields fields' : List (String × Json)}
    (hdel : delPath fields target = some fields') (path : Path) :
    covered n (.dict fields') path = covered n (.dict fields) path ∧
      delPath (fillFields g n path fields) target = some (fillFields g n path fields') := by
  induction target generalizing n fields fields' path with
  | nil => simp [delPath] at hdel
  | cons key rest ih =>
    cases rest with
    | nil =>
      cases hlook : fields.lookup key with
      | none => simp [delPath, hlook] at hdel
      | some old =>
        simp only [delPath, hlook, Option.some.injEq] at hdel
        subst hdel
        constructor
        · rw [covered_dict, covered_dict]
          exact flatMap_eraseField _ fun old _ => coveredEntry_of_last h path old
        · rw [delPath, lookup_fillFields, hlook, fillFields_eraseField]
          rfl
    | cons next rest =>
      obtain ⟨sub, sub', hlook, hsub, rfl⟩ := delPath_cons_iff.mp hdel
      have hentry : coveredEntry n path (key, .dict sub') = coveredEntry n path (key, .dict sub) :=
        coveredEntry_dict_congr h fun node hchild => (ih (h.child hchild) hsub (path ++ [key])).1
      have hfilled : (fillFields g n path fields).lookup key =
          some (.dict (fillSection g n path key sub)) := by
        rw [lookup_fillFields, hlook, Option.map_some, fillEntry_dict g h]
      have hstep : delPath (fillSection g n path key sub) (next :: rest) =
          some (fillSection g n path key sub') :=
        fillSection_step (fun a b => delPath a (next :: rest) = some b) hsub
          fun node hchild => (ih (h.child hchild) hsub (path ++ [key])).2
      have hnil : fillSection g n path key sub' = [] ↔ sub' = [] := by
        rw [fillSection]
        cases n.child key with
        | none => exact Iff.rfl
        | some node => exact fillFields_eq_nil_iff g node _ sub'
      by_cases hempty : sub' = []
      · -- The section is pruned: the edit left nothing in it to visit.
        rw [if_pos hempty]
        subst hempty
        constructor
        · rw [covered_dict, covered_dict]
          apply flatMap_eraseField
          intro old hold
          rw [hlook, Option.some.injEq] at hold
          subst hold
          rw [← hentry, coveredEntry_of_beside h]
          cases n.child key <;> simp [covered_dict]
        · apply delPath_cons_iff.mpr
          refine ⟨_, _, hfilled, hstep, ?_⟩
          rw [if_pos (hnil.mpr rfl), fillFields_eraseField]
      · rw [if_neg hempty]
        constructor
        · apply covered_setEntries
          rw [hentry, hlook]
          rfl
        · apply delPath_cons_iff.mpr
          refine ⟨_, _, hfilled, hstep, ?_⟩
          rw [if_neg (mt hnil.mp hempty), fillFields_setEntries, fillEntry_dict g h]

inductive Edit where
  | set (path : Path) (value : Json)
  | delete (path : Path)

def Edit.path : Edit → Path
  | .set path _ => path
  | .delete path => path

/-- What an edit makes of a document's fields; `none` when it is refused. -/
def Edit.apply (fields : List (String × Json)) : Edit → Option (List (String × Json))
  | .set path value => (setPath fields path value []).toOption
  | .delete path => delPath fields path

def applyEdits (edits : List Edit) (fields : List (String × Json)) :
    Option (List (String × Json)) :=
  edits.foldlM Edit.apply fields

theorem Edit.apply_beside (g : Json → Path → Json) {n : Node} {edit : Edit}
    (h : Beside n edit.path) {fields fields' : List (String × Json)}
    (happly : edit.apply fields = some fields') (path : Path) :
    covered n (.dict fields') path = covered n (.dict fields) path ∧
      edit.apply (fillFields g n path fields) = some (fillFields g n path fields') := by
  cases edit with
  | set target value =>
    have hset := Except.toOption_eq_some_iff.mp happly
    obtain ⟨hcovered, hfill⟩ := setPath_beside g h hset path
    exact ⟨hcovered, Except.toOption_eq_some_iff.mpr hfill⟩
  | delete target => exact delPath_beside g h happly path

theorem applyEdits_beside (g : Json → Path → Json) {n : Node} {edits : List Edit}
    (h : ∀ edit ∈ edits, Beside n edit.path) {fields fields' : List (String × Json)}
    (happly : applyEdits edits fields = some fields') (path : Path) :
    covered n (.dict fields') path = covered n (.dict fields) path ∧
      applyEdits edits (fillFields g n path fields) = some (fillFields g n path fields') := by
  induction edits generalizing fields with
  | nil =>
    cases happly
    exact ⟨rfl, rfl⟩
  | cons edit rest ih =>
    obtain ⟨between, hfirst, hrest⟩ := Option.bind_eq_some_iff.mp happly
    obtain ⟨hcovered, hfill⟩ := Edit.apply_beside g (h edit List.mem_cons_self) hfirst path
    obtain ⟨hcovered', hfill'⟩ := ih (fun edit hmem => h edit (List.mem_cons_of_mem _ hmem)) hrest
    exact ⟨hcovered'.trans hcovered, Option.bind_eq_some_iff.mpr ⟨_, hfill, hfill'⟩⟩

/-- The value kept where a walk resolves without an error. -/
def kept (stored : Json) (value : Json) (path : Path) : Json :=
  match keepStored stored value path with
  | .ok value => value
  | .error _ => value

theorem resolveSecrets_ok {schema : Schema} {stored proposed : Json}
    (h : ∀ x ∈ covered schema.root proposed [], ∃ value, keepStored stored x.2 x.1 = .ok value) :
    resolveSecrets schema stored proposed =
      .ok (fillNode (kept stored) schema.root proposed []) := by
  apply Except.toOption_eq_some_iff.mp
  rw [resolveSecrets, toOption_walkSecrets]
  apply walkNode_pure (m := Option)
  intro x hx
  obtain ⟨value, hvalue⟩ := h x hx
  rw [kept, hvalue]
  rfl

theorem resolveSecrets_error {schema : Schema} {stored proposed : Json} {x : Path × Json}
    (hx : x ∈ covered schema.root proposed []) (h : ∃ e, keepStored stored x.2 x.1 = .error e) :
    ∃ e, resolveSecrets schema stored proposed = .error e := by
  apply Except.toOption_eq_none_iff.mp
  rw [resolveSecrets, toOption_walkSecrets]
  exact walkNode_none hx (Except.toOption_eq_none_iff.mpr h)

/-- A placeholder is refused exactly where nothing else is stored. -/
theorem keepStored_error_iff (stored value : Json) (path : Path) :
    (∃ e, keepStored stored value path = .error e) ↔
      value = .str REDACTED ∧
        ∀ existing, getPath stored path = some existing → existing = .str REDACTED := by
  have hredacted : ∀ j : Json, isRedacted j = true ↔ j = .str REDACTED := by
    intro j
    cases j <;> simp [isRedacted]
  have hplaceholder : isRedacted (.str REDACTED) = true := (hredacted _).mpr rfl
  rw [keepStored]
  by_cases hvalue : isRedacted value = true
  · rw [if_pos hvalue, (hredacted value).mp hvalue]
    cases hget : getPath stored path with
    | none => simp [fail]
    | some existing =>
      by_cases hexisting : isRedacted existing = true
      · simp [(hredacted existing).mp hexisting, hplaceholder, fail]
      · simp [hexisting, mt (hredacted existing).mpr hexisting]
  · rw [if_neg hvalue]
    simp [mt (hredacted value).mpr hvalue]

/-- Redacting a stored secret and resolving it gives it back. -/
theorem keepStored_redactLeaf {stored value : Json} {path : Path}
    (hget : getPath stored path = some value) (hne : value ≠ .str REDACTED) :
    keepStored stored (redactLeaf value) path = .ok value := by
  cases value with
  | str s =>
    by_cases hs : s = ""
    · subst hs
      simp [keepStored, redactLeaf, isRedacted, REDACTED]
    · have hs' : isRedacted (.str s) = false := by
        simpa [isRedacted] using fun h => hne (congrArg Json.str h)
      simp [keepStored, redactLeaf, hs, isRedacted, hget] at hs' ⊢
      exact fun h => absurd h hs'
  | _ => simp [keepStored, redactLeaf, isRedacted]

/-- The value at a place. -/
def placeAt : Json → Place → Option Json
  | doc, [] => some doc
  | .dict fields, .key key :: rest =>
    match fields.lookup key with
    | none => none
    | some value => placeAt value rest
  | .list items, .item i :: rest =>
    match items[i]? with
    | none => none
    | some value => placeAt value rest
  | _, _ :: _ => none

theorem placeAt_keys (doc : Json) (path : Path) :
    placeAt doc (path.map .key) = getPath doc path := by
  induction path generalizing doc with
  | nil => cases doc <;> rfl
  | cons key rest ih =>
    cases doc with
    | dict fields =>
      simp only [List.map_cons, placeAt, getPath]
      cases fields.lookup key with
      | none => rfl
      | some value => exact ih value
    | _ => rfl

theorem mem_secrets_of_exposed {n : Node} {doc : Json} {place : Place} {x : Place × Json}
    (hx : x ∈ exposed n doc place) : x ∈ secrets n doc place := by
  induction n using Node.byLookup generalizing doc place with
  | fixed keys ih =>
    cases doc with
    | dict fields =>
      obtain ⟨e, he, hx⟩ := List.mem_flatMap.mp hx
      apply List.mem_flatMap.mpr ⟨e, he, _⟩
      rw [exposedKey_eq] at hx
      rw [secretsKey_eq]
      cases hlook : keys.lookup e.1 with
      | none => simp [hlook] at hx
      | some node =>
        rw [hlook] at hx
        by_cases hsecret : node.isSecret = true
        · simp [hsecret] at hx
        · simp only [if_neg hsecret] at hx
          exact ih e.1 node hlook hx
    | _ => simp [exposed] at hx
  | keyed _ _ value ih =>
    cases doc with
    | dict fields =>
      obtain ⟨e, he, hx⟩ := List.mem_flatMap.mp hx
      exact List.mem_flatMap.mpr ⟨e, he, ih hx⟩
    | _ => simp [exposed] at hx
  | list item ih =>
    cases doc with
    | list items => exact hx
    | _ => simp [exposed] at hx
  | secret rule => exact hx
  | _ => simp [exposed] at hx

/-- A secret is visited by the walk or exposed. -/
theorem covered_or_exposed {n : Node} {doc : Json} {place : Place} {x : Place × Json}
    (hx : x ∈ secrets n doc place) (path : Path) :
    x ∈ exposed n doc place ∨ n.isSecret = false ∧
      ∃ rest, x.1 = place ++ rest.map .key ∧ (path ++ rest, x.2) ∈ covered n doc path := by
  induction n using Node.byLookup generalizing doc place path with
  | fixed keys ih =>
    cases doc with
    | dict fields =>
      obtain ⟨e, he, hx⟩ := List.mem_flatMap.mp hx
      rw [secretsKey_eq] at hx
      cases hlook : keys.lookup e.1 with
      | none => simp [hlook] at hx
      | some node =>
        rw [hlook] at hx
        by_cases hsecret : node.isSecret = true
        · cases node with
          | secret rule =>
            simp only [secrets, List.mem_singleton] at hx
            subst hx
            refine .inr ⟨rfl, [e.1], rfl, List.mem_flatMap.mpr ⟨e, he, ?_⟩⟩
            simp [coveredKey_eq, hlook, Node.isSecret]
          | _ => simp [Node.isSecret] at hsecret
        · rcases ih e.1 node hlook hx (path ++ [e.1]) with hexposed | ⟨-, rest, hplace, hmem⟩
          · refine .inl (List.mem_flatMap.mpr ⟨e, he, ?_⟩)
            simpa [exposedKey_eq, hlook, hsecret] using hexposed
          · refine .inr ⟨rfl, e.1 :: rest, by simpa using hplace, List.mem_flatMap.mpr ⟨e, he, ?_⟩⟩
            simpa [coveredKey_eq, hlook, hsecret] using hmem
    | _ => simp [secrets] at hx
  | keyed _ _ value ih =>
    cases doc with
    | dict fields =>
      obtain ⟨e, he, hx⟩ := List.mem_flatMap.mp hx
      rcases ih hx (path ++ [e.1]) with hexposed | ⟨-, rest, hplace, hmem⟩
      · exact .inl (List.mem_flatMap.mpr ⟨e, he, hexposed⟩)
      · refine .inr ⟨rfl, e.1 :: rest, by simpa using hplace, List.mem_flatMap.mpr ⟨e, he, ?_⟩⟩
        simpa using hmem
    | _ => simp [secrets] at hx
  | list item ih =>
    cases doc with
    | list items => exact .inl hx
    | _ => simp [secrets] at hx
  | secret rule => exact .inl hx
  | _ => simp [secrets] at hx

namespace ConfigStore

variable (store : ConfigStore)

/-- The fields a client reads. -/
def shownFields : List (String × Json) :=
  fillFields (fun value _ => redactLeaf value) store.schema.root [] store.fields

theorem document_true : store.document true = .dict store.shownFields := by
  rw [document, if_pos rfl, redactedCopy_eq, redactNode, stored, fillNode_dict, shownFields]

theorem proposeReplace_dict (fields : List (String × Json)) :
    store.proposeReplace (.dict fields) = store.accept (.dict fields) := by
  rw [proposeReplace]
  cases fields <;> rfl

theorem getPath_of_mem {x : Path × Json} (hx : x ∈ covered store.schema.root store.stored []) :
    ∃ rest, x.1 = [] ++ rest ∧ getPath store.stored rest = some x.2 :=
  getPath_of_covered store.wellKeyed hx

/-- Read the document redacted, edit it beside the secrets and write it back: the
stored document with the same edits is what results. -/
def RoundTrips : Prop :=
  ∀ edits : List Edit, (∀ edit ∈ edits, Beside store.schema.root edit.path) →
    ∀ fields, applyEdits edits store.fields = some fields →
      Node.validate store.schema.root (.dict fields) [] = .ok () →
      ∃ shown edited, store.document true = .dict shown ∧ applyEdits edits shown = some edited ∧
        store.proposeReplace (.dict edited) = .ok (.dict fields)

theorem roundTrips_iff : store.RoundTrips ↔
    ∀ x ∈ covered store.schema.root store.stored [], x.2 ≠ .str REDACTED := by
  constructor
  · intro h x hx hsentinel
    obtain ⟨shown, edited, hshown, hedited, hok⟩ := h [] (by simp) store.fields rfl store.valid
    cases hedited
    rw [document_true, Json.dict.injEq] at hshown
    subst hshown
    rw [proposeReplace_dict, accept] at hok
    -- The placeholder that is itself stored resolves to nothing.
    have hmem : (x.1, redactLeaf x.2) ∈ covered store.schema.root (.dict store.shownFields) [] := by
      rw [shownFields, ← fillNode_dict, covered_fillNode]
      exact List.mem_map.mpr ⟨x, hx, rfl⟩
    obtain ⟨rest, hpath, hget⟩ := store.getPath_of_mem hx
    have hleaf : redactLeaf x.2 = .str REDACTED := by
      rw [hsentinel]
      rfl
    obtain ⟨e, he⟩ := resolveSecrets_error hmem
      ((keepStored_error_iff _ _ _).mpr ⟨hleaf, fun existing hexisting => by
        rw [hpath, List.nil_append, hget, Option.some.injEq] at hexisting
        rw [← hexisting, hsentinel]⟩)
    rw [he] at hok
    cases hok
  · intro h edits hbeside fields happly hvalid
    obtain ⟨hcovered, hedited⟩ :=
      applyEdits_beside (fun value _ => redactLeaf value) hbeside happly []
    refine ⟨store.shownFields, _, store.document_true, hedited, ?_⟩
    have hkept : ∀ x ∈ covered store.schema.root (.dict fields) [],
        keepStored store.stored (redactLeaf x.2) x.1 = .ok x.2 := by
      intro x hx
      rw [hcovered] at hx
      obtain ⟨rest, hpath, hget⟩ := store.getPath_of_mem hx
      apply keepStored_redactLeaf _ (h x hx)
      rw [hpath]
      exact hget
    rw [proposeReplace_dict, accept, ← fillNode_dict, resolveSecrets_ok]
    · rw [fillNode_fillNode, fillNode_eq_self]
      · change (Node.validate _ _ _ >>= fun _ => pure _) = _
        rw [hvalid]
        rfl
      · intro x hx
        rw [kept, hkept x hx]
    · intro x hx
      rw [covered_fillNode] at hx
      obtain ⟨y, hy, rfl⟩ := List.mem_map.mp hx
      exact ⟨y.2, hkept y hy⟩

/-- A placeholder where the store holds nothing. -/
def Unstored (x : Place × Json) : Prop := x.2 = .str REDACTED ∧ placeAt store.stored x.1 = none

/-- A placeholder the walk cannot resolve. -/
def Unresolvable (x : Path × Json) : Prop :=
  x.2 = .str REDACTED ∧
    ∀ existing, getPath store.stored x.1 = some existing → existing = .str REDACTED

theorem proposeReplace_error_iff (fields : List (String × Json)) :
    (∃ e, store.proposeReplace (.dict fields) = .error e) ↔
      (∃ x ∈ covered store.schema.root (.dict fields) [], store.Unresolvable x) ∨
        ∃ e, Node.validate store.schema.root
          (fillNode (kept store.stored) store.schema.root (.dict fields) []) [] = .error e := by
  rw [proposeReplace_dict, accept]
  by_cases hbad : ∃ x ∈ covered store.schema.root (.dict fields) [], store.Unresolvable x
  · obtain ⟨x, hx, hunresolvable⟩ := hbad
    obtain ⟨e, he⟩ := resolveSecrets_error hx ((keepStored_error_iff _ _ _).mpr hunresolvable)
    constructor
    · intro _
      exact .inl ⟨x, hx, hunresolvable⟩
    · intro _
      exact ⟨e, by rw [he]; rfl⟩
  · rw [resolveSecrets_ok (by
      intro x hx
      cases hkeep : keepStored store.stored x.2 x.1 with
      | ok value => exact ⟨value, rfl⟩
      | error e => exact absurd ⟨x, hx, (keepStored_error_iff _ _ _).mp ⟨e, hkeep⟩⟩ hbad)]
    simp only [hbad, false_or]
    change (∃ e, (Node.validate _ _ _ >>= fun _ => pure _) = _) ↔ _
    cases hvalid : Node.validate store.schema.root
        (fillNode (kept store.stored) store.schema.root (.dict fields) []) [] with
    | ok _ => simp [bind, Except.bind, pure, Except.pure]
    | error e => simp [bind, Except.bind]

/-- A placeholder written where nothing is stored is refused: exactly unless every
such placeholder is exposed and the proposal is otherwise acceptable. -/
theorem refuses_unstored_iff (fields : List (String × Json)) :
    ((∃ x ∈ secrets store.schema.root (.dict fields) [], store.Unstored x) →
        ∃ e, store.proposeReplace (.dict fields) = .error e) ↔
      ((∃ x ∈ exposed store.schema.root (.dict fields) [], store.Unstored x) →
        (∃ x ∈ covered store.schema.root (.dict fields) [], store.Unresolvable x) ∨
          ∃ e, Node.validate store.schema.root
            (fillNode (kept store.stored) store.schema.root (.dict fields) []) [] = .error e) := by
  rw [proposeReplace_error_iff]
  constructor
  · rintro h ⟨x, hx, hunstored⟩
    exact h ⟨x, mem_secrets_of_exposed hx, hunstored⟩
  · rintro h ⟨x, hx, hunstored⟩
    rcases covered_or_exposed hx [] with hexposed | ⟨-, rest, hplace, hmem⟩
    · exact h ⟨x, hexposed, hunstored⟩
    · refine .inl ⟨_, hmem, hunstored.1, fun existing hexisting => ?_⟩
      have hnone := hunstored.2
      rw [hplace, List.nil_append, placeAt_keys] at hnone
      rw [List.nil_append, hnone] at hexisting
      cases hexisting

end ConfigStore

end Packets
