/-
Secret places by the schema's own structure.

`walkNode` follows a document and its schema together and visits the secrets under a fixed key,
below objects only, as the walk over wildcard paths does.
-/
import Packets.Config.ConfigStore
import Packets.Lib.Commuting
import Packets.Lib.Mapped

namespace Packets

def Node.isSecret : Node → Bool
  | .secret _ => true
  | _ => false

/-- The node of a fixed key. -/
def Keys.lookup : Keys → String → Option Node
  | .nil, _ => none
  | .cons key _ node rest, k => if key = k then some node else rest.lookup k

theorem Keys.mem_names_of_lookup {keys : Keys} {k : String} {n : Node}
    (h : keys.lookup k = some n) : k ∈ keys.names := by
  match keys with
  | .nil => simp [Keys.lookup] at h
  | .cons key _ node rest =>
    rw [Keys.lookup] at h
    rw [Keys.names, List.mem_cons]
    by_cases hk : key = k
    · exact .inl hk.symm
    · rw [if_neg hk] at h
      exact .inr (mem_names_of_lookup h)

section Walk

variable {m : Type → Type} [Monad m]

mutual

/-- Visit the secrets under fixed keys, below objects only. -/
def walkNode (visit : Json → Path → m Json) : Node → Json → Path → m Json
  | .fixed keys, .dict fields, sofar =>
    Json.dict <$> fields.mapM fun e => (e.1, ·) <$> walkKey visit keys e.1 e.2 (sofar ++ [e.1])
  -- A wildcard does not ask whether it stands for a key or an index.
  | .keyed _ _ value, .dict fields, sofar | .list value, .dict fields, sofar =>
    Json.dict <$> fields.mapM fun e => (e.1, ·) <$> walkNode visit value e.2 (sofar ++ [e.1])
  | _, doc, _ => pure doc

def walkKey (visit : Json → Path → m Json) : Keys → String → Json → Path → m Json
  | .nil, _, doc, _ => pure doc
  | .cons key _ node rest, k, doc, path =>
    if key = k then
      if node.isSecret then visit doc path else walkNode visit node doc path
    else walkKey visit rest k doc path

end

/-- A step of the walk at the entries of one key. -/
def atKey (key : String) (step : Json → Path → m Json) (sofar : Path)
    (e : String × Json) : m (String × Json) :=
  if e.1 = key then (e.1, ·) <$> step e.2 (sofar ++ [e.1]) else pure e

theorem walkKey_of_not_mem (visit : Json → Path → m Json) {keys : Keys} {k : String}
    (h : k ∉ keys.names) (doc : Json) (path : Path) : walkKey visit keys k doc path = pure doc := by
  match keys with
  | .nil => simp [walkKey]
  | .cons key _ node rest =>
    rw [Keys.names, List.mem_cons, not_or] at h
    rw [walkKey, if_neg (Ne.symm h.1)]
    exact walkKey_of_not_mem visit h.2 doc path

end Walk

theorem nil_not_mem_secretPathsKeys (keys : Keys) : [] ∉ secretPathsKeys keys [] := by
  cases keys with
  | nil => simp [secretPathsKeys]
  | cons key _ node rest =>
    rw [secretPathsKeys, secretPaths_append, List.mem_append]
    rintro (h | h)
    · simp at h
    · exact nil_not_mem_secretPathsKeys rest h

/-- Only a secret has the empty pattern. -/
theorem nil_mem_secretPaths_iff (n : Node) : [] ∈ secretPaths n [] ↔ n.isSecret = true := by
  cases n with
  | secret rule => simp [secretPaths, Node.isSecret]
  | fixed keys => simpa [secretPaths, Node.isSecret] using nil_not_mem_secretPathsKeys keys
  | keyed keyType maxKeys value =>
    rw [secretPaths, secretPaths_append]
    simp [Node.isSecret]
  | list item =>
    rw [secretPaths, secretPaths_append]
    simp [Node.isSecret]
  | any | bool | int min max | str rule | pfx | addr => simp [secretPaths, Node.isSecret]

section Walk

variable {m : Type → Type} [Monad m] [CommutingMonad m]

omit [CommutingMonad m] in
theorem walkOne_atKey (visit : Json → Path → m Json) (key : String) {spath : Pattern}
    (hne : spath ≠ []) (fields : List (String × Json)) (sofar : Path) :
    walkOne visit (some key :: spath) (.dict fields) sofar =
      Json.dict <$> fields.mapM (atKey key (walkOne visit spath) sofar) := by
  rw [walkOne]
  congr 1
  congr 1
  funext e
  simp only [atKey, if_neg hne]

omit [CommutingMonad m] in
theorem walkOne_last (visit : Json → Path → m Json) (key : String)
    (fields : List (String × Json)) (sofar : Path) :
    walkOne visit [some key] (.dict fields) sofar =
      Json.dict <$> fields.mapM (atKey key visit sofar) := by
  rw [walkOne]
  congr 1

theorem foldlM_at_entry (visit : Json → Path → m Json) (key : String)
    (patterns : List Pattern) (sofar : Path) (e : String × Json) :
    patterns.foldlM (fun e spath => atKey key (walkOne visit spath) sofar e) e =
      atKey key (fun doc path =>
        patterns.foldlM (fun doc spath => walkOne visit spath doc path) doc) sofar e := by
  by_cases hkey : e.1 = key
  · have hinside := CommutingMonad.foldlM_inside (m := m) (fun doc : Json => (e.1, doc))
      (fun e spath => atKey key (walkOne visit spath) sofar e)
      (fun doc spath => walkOne visit spath doc (sofar ++ [e.1]))
      patterns (fun spath _ doc => by simp only [atKey, if_pos hkey]) e.2
    simpa only [atKey, if_pos hkey] using hinside
  · have hskip : ∀ patterns : List Pattern,
        patterns.foldlM (fun e spath => atKey key (walkOne visit spath) sofar e) e = pure e := by
      intro patterns
      induction patterns with
      | nil => simp
      | cons spath rest ih =>
        simp only [List.foldlM_cons]
        rw [atKey, if_neg hkey, pure_bind]
        exact ih
    rw [hskip, atKey, if_neg hkey]

/-- The passes of the patterns below a key are one step at that key. -/
theorem foldlM_atKey (visit : Json → Path → m Json) (key : String) {patterns : List Pattern}
    (hne : [] ∉ patterns) (fields : List (String × Json)) (sofar : Path) :
    (patterns.map (some key :: ·)).foldlM (fun doc spath => walkOne visit spath doc sofar)
        (.dict fields) =
      Json.dict <$> fields.mapM (atKey key (fun doc path =>
        patterns.foldlM (fun doc spath => walkOne visit spath doc path) doc) sofar) := by
  have hinside := CommutingMonad.foldlM_inside (m := m) Json.dict
    (fun doc spath => walkOne visit (some key :: spath) doc sofar)
    (fun fields spath => fields.mapM (atKey key (walkOne visit spath) sofar))
    patterns
    (fun spath hmem fields => walkOne_atKey visit key
      (fun hnil => hne (hnil ▸ hmem)) fields sofar) fields
  rw [List.foldlM_map, hinside, CommutingMonad.foldlM_mapM]
  congr 2
  funext e
  exact foldlM_at_entry visit key patterns sofar e

/-- The passes of the patterns below any key are one step at every key. -/
theorem foldlM_anyKey (visit : Json → Path → m Json) (patterns : List Pattern)
    (fields : List (String × Json)) (sofar : Path) :
    (patterns.map (none :: ·)).foldlM (fun doc spath => walkOne visit spath doc sofar)
        (.dict fields) =
      Json.dict <$> fields.mapM fun e => (e.1, ·) <$>
        patterns.foldlM (fun doc spath => walkOne visit spath doc (sofar ++ [e.1])) e.2 := by
  have hinside := CommutingMonad.foldlM_inside (m := m) Json.dict
    (fun doc spath => walkOne visit (none :: spath) doc sofar)
    (fun fields spath => fields.mapM fun e => (e.1, ·) <$> walkOne visit spath e.2 (sofar ++ [e.1]))
    patterns (fun spath _ fields => by rw [walkOne]) fields
  rw [List.foldlM_map, hinside, CommutingMonad.foldlM_mapM]
  congr 2
  funext e
  exact CommutingMonad.foldlM_inside (m := m) (fun doc : Json => (e.1, doc))
    (fun e spath => (e.1, ·) <$> walkOne visit spath e.2 (sofar ++ [e.1]))
    (fun doc spath => walkOne visit spath doc (sofar ++ [e.1])) patterns
    (fun spath _ doc => rfl) e.2

omit [CommutingMonad m] in
/-- A pattern leads nowhere in a value that is no object. -/
theorem foldlM_notDict [LawfulMonad m] (visit : Json → Path → m Json) {doc : Json}
    (hdoc : ∀ fields, doc ≠ .dict fields) (patterns : List Pattern) (sofar : Path) :
    patterns.foldlM (fun doc spath => walkOne visit spath doc sofar) doc = pure doc := by
  have hone : ∀ spath, walkOne visit spath doc sofar = pure doc := by
    intro spath
    cases spath with
    | nil => rw [walkOne]
    | cons key rest =>
      cases key <;> cases doc <;> first | exact absurd rfl (hdoc _) | rw [walkOne]
      all_goals simp
  induction patterns with
  | nil => simp
  | cons spath rest ih =>
    simp only [List.foldlM_cons]
    rw [hone, pure_bind]
    exact ih

mutual

/-- The walk over the patterns of a node follows its structure. -/
theorem foldlM_secretPaths (visit : Json → Path → m Json) {n : Node} (hn : n.WellKeyed)
    (doc : Json) (sofar : Path) :
    (secretPaths n []).foldlM (fun doc spath => walkOne visit spath doc sofar) doc =
      walkNode visit n doc sofar := by
  match n with
  | .fixed keys =>
    rw [secretPaths]
    by_cases hdoc : ∃ fields, doc = .dict fields
    · obtain ⟨fields, rfl⟩ := hdoc
      rw [walkNode]
      exact foldlM_secretPathsKeys visit hn fields sofar
    · push Not at hdoc
      rw [foldlM_notDict visit hdoc]
      cases doc <;> first | rfl | exact absurd rfl (hdoc _)
  | .keyed _ _ value | .list value =>
    have hvalue : value.WellKeyed := hn
    rw [secretPaths, secretPaths_append]
    by_cases hdoc : ∃ fields, doc = .dict fields
    · obtain ⟨fields, rfl⟩ := hdoc
      rw [walkNode]
      exact (foldlM_anyKey visit _ fields sofar).trans (by
        congr 2
        funext e
        rw [foldlM_secretPaths visit hvalue])
    · push Not at hdoc
      rw [foldlM_notDict visit hdoc]
      cases doc <;> first | rfl | exact absurd rfl (hdoc _)
  | .secret rule => simp [secretPaths, walkNode, walkOne]
  | .any | .bool | .int _ _ | .str _ | .pfx | .addr => simp [secretPaths, walkNode]

theorem foldlM_secretPathsKeys (visit : Json → Path → m Json) {keys : Keys}
    (hkeys : keys.WellKeyed) (fields : List (String × Json)) (sofar : Path) :
    (secretPathsKeys keys []).foldlM (fun doc spath => walkOne visit spath doc sofar)
        (.dict fields) =
      Json.dict <$> fields.mapM fun e =>
        (e.1, ·) <$> walkKey visit keys e.1 e.2 (sofar ++ [e.1]) := by
  match keys with
  | .nil =>
    have hpass : fields.mapM (fun e : String × Json => (pure e : m _)) = pure fields := by
      simpa using List.mapM_pure (m := m) (l := fields) (f := id)
    simp [secretPathsKeys, walkKey, hpass]
  | .cons key required node rest =>
    obtain ⟨hfresh, hnode, hrest⟩ := hkeys
    -- The patterns of the first key are one step at its entries.
    have hfirst : ∀ fields : List (String × Json),
        ((secretPaths node []).map ([some key] ++ ·)).foldlM
            (fun doc spath => walkOne visit spath doc sofar) (.dict fields) =
          Json.dict <$> fields.mapM (atKey key (fun doc path =>
            if node.isSecret then visit doc path else walkNode visit node doc path)
            sofar) := by
      intro fields
      by_cases hsecret : node.isSecret = true
      · cases node with
        | secret rule => simp [secretPaths, Node.isSecret, walkOne_last]
        | _ => simp [Node.isSecret] at hsecret
      · have hne : [] ∉ secretPaths node [] :=
          fun h => hsecret ((nil_mem_secretPaths_iff node).mp h)
        have hstep := foldlM_atKey visit key hne fields sofar
        simp only [foldlM_secretPaths visit hnode] at hstep
        simpa only [if_neg hsecret, List.cons_append, List.nil_append] using hstep
    rw [secretPathsKeys, secretPaths_append, List.foldlM_append]
    simp only [List.nil_append]
    rw [hfirst, bind_map_left]
    simp only [foldlM_secretPathsKeys visit hrest]
    rw [← map_bind, CommutingMonad.mapM_bind_mapM]
    congr 2
    funext e
    rw [walkKey]
    by_cases hkey : e.1 = key
    · have hnone : ∀ doc path, walkKey visit rest e.1 doc path = pure doc :=
        walkKey_of_not_mem visit (hkey ▸ hfresh)
      simp only [atKey, if_pos hkey, if_pos hkey.symm, bind_map_left, hnone, map_pure,
        bind_pure_comp]
    · simp only [atKey, if_neg hkey, if_neg (Ne.symm hkey), pure_bind]

end

theorem walkSecrets_eq (schema : Schema) (doc : Json) (visit : Json → Path → m Json) :
    walkSecrets schema doc visit = walkNode visit schema.root doc [] :=
  foldlM_secretPaths visit schema.wellKeyed doc []

end Walk

theorem toOption_walkOne (visit : Json → Path → Except ConfigError Json) (spath : Pattern)
    (doc : Json) (sofar : Path) :
    (walkOne visit spath doc sofar).toOption =
      walkOne (fun value path => (visit value path).toOption) spath doc sofar := by
  induction spath generalizing doc sofar with
  | nil => rfl
  | cons key rest ih =>
    cases doc with
    | dict fields =>
      cases key with
      | none => simp only [walkOne, Except.toOption_map, Except.toOption_mapM, ih]
      | some key =>
        simp only [walkOne, Except.toOption_map, Except.toOption_mapM]
        congr 2
        funext e
        by_cases hkey : e.1 = key
        · by_cases hrest : rest = []
          · simp only [if_pos hkey, if_pos hrest, Except.toOption_map]
          · simp only [if_pos hkey, if_neg hrest, Except.toOption_map, ih]
        · simp only [if_neg hkey]
          rfl
    | null | bool b | int i | float x | str s | list items => cases key <;> rfl

theorem toOption_walkSecrets (schema : Schema) (doc : Json)
    (visit : Json → Path → Except ConfigError Json) :
    (walkSecrets schema doc visit).toOption =
      walkNode (fun value path => (visit value path).toOption) schema.root doc [] := by
  rw [walkSecrets, Except.toOption_foldlM]
  simp only [toOption_walkOne]
  exact foldlM_secretPaths _ schema.wellKeyed doc []

mutual

/-- The values a walk visits, each with its path. -/
def covered : Node → Json → Path → List (Path × Json)
  | .fixed keys, .dict fields, path =>
    fields.flatMap fun e => coveredKey keys e.1 e.2 (path ++ [e.1])
  | .keyed _ _ value, .dict fields, path | .list value, .dict fields, path =>
    fields.flatMap fun e => covered value e.2 (path ++ [e.1])
  | _, _, _ => []

def coveredKey : Keys → String → Json → Path → List (Path × Json)
  | .nil, _, _, _ => []
  | .cons key _ node rest, k, doc, path =>
    if key = k then
      if node.isSecret then [(path, doc)] else covered node doc path
    else coveredKey rest k doc path

end

mutual

/-- The document with something else at the visited places. -/
def fillNode (g : Json → Path → Json) : Node → Json → Path → Json
  | .fixed keys, .dict fields, path =>
    .dict (fields.map fun e => (e.1, fillKey g keys e.1 e.2 (path ++ [e.1])))
  | .keyed _ _ value, .dict fields, path | .list value, .dict fields, path =>
    .dict (fields.map fun e => (e.1, fillNode g value e.2 (path ++ [e.1])))
  | _, doc, _ => doc

def fillKey (g : Json → Path → Json) : Keys → String → Json → Path → Json
  | .nil, _, doc, _ => doc
  | .cons key _ node rest, k, doc, path =>
    if key = k then
      if node.isSecret then g doc path else fillNode g node doc path
    else fillKey g rest k doc path

end

mutual

/-- Induction along a schema, with the nodes of a fixed-key object by lookup. -/
theorem Node.byLookup {C : Node → Prop}
    (fixed : ∀ keys, (∀ k n, keys.lookup k = some n → C n) → C (.fixed keys))
    (keyed : ∀ keyType maxKeys value, C value → C (.keyed keyType maxKeys value))
    (list : ∀ item, C item → C (.list item)) (secret : ∀ rule, C (.secret rule))
    (any : C .any) (bool : C .bool) (int : ∀ low high, C (.int low high))
    (str : ∀ rule, C (.str rule)) (pfx : C .pfx) (addr : C .addr) (n : Node) : C n := by
  match n with
  | .fixed keys =>
    exact fixed keys (Keys.byLookup fixed keyed list secret any bool int str pfx addr keys)
  | .keyed keyType maxKeys value =>
    exact keyed keyType maxKeys value
      (Node.byLookup fixed keyed list secret any bool int str pfx addr value)
  | .list item =>
    exact list item (Node.byLookup fixed keyed list secret any bool int str pfx addr item)
  | .secret rule => exact secret rule
  | .any => exact any
  | .bool => exact bool
  | .int low high => exact int low high
  | .str rule => exact str rule
  | .pfx => exact pfx
  | .addr => exact addr

theorem Keys.byLookup {C : Node → Prop}
    (fixed : ∀ keys, (∀ k n, keys.lookup k = some n → C n) → C (.fixed keys))
    (keyed : ∀ keyType maxKeys value, C value → C (.keyed keyType maxKeys value))
    (list : ∀ item, C item → C (.list item)) (secret : ∀ rule, C (.secret rule))
    (any : C .any) (bool : C .bool) (int : ∀ low high, C (.int low high))
    (str : ∀ rule, C (.str rule)) (pfx : C .pfx) (addr : C .addr) (keys : Keys)
    (k : String) (n : Node) (h : keys.lookup k = some n) : C n := by
  match keys with
  | .nil => simp [Keys.lookup] at h
  | .cons key _ node rest =>
    rw [Keys.lookup] at h
    by_cases hkey : key = k
    · rw [if_pos hkey] at h
      rw [← Option.some.inj h]
      exact Node.byLookup fixed keyed list secret any bool int str pfx addr node
    · rw [if_neg hkey] at h
      exact Keys.byLookup fixed keyed list secret any bool int str pfx addr rest k n h

end

theorem coveredKey_eq (keys : Keys) (k : String) (doc : Json) (path : Path) :
    coveredKey keys k doc path = match keys.lookup k with
      | none => []
      | some node => if node.isSecret then [(path, doc)] else covered node doc path := by
  cases keys with
  | nil => rfl
  | cons key _ node rest =>
    rw [coveredKey, Keys.lookup, coveredKey_eq rest k doc path]
    split <;> rfl

theorem fillKey_eq (g : Json → Path → Json) (keys : Keys) (k : String) (doc : Json) (path : Path) :
    fillKey g keys k doc path = match keys.lookup k with
      | none => doc
      | some node => if node.isSecret then g doc path else fillNode g node doc path := by
  cases keys with
  | nil => rfl
  | cons key _ node rest =>
    rw [fillKey, Keys.lookup, fillKey_eq g rest k doc path]
    split <;> rfl

theorem walkKey_eq {m : Type → Type} [Monad m] (visit : Json → Path → m Json) (keys : Keys)
    (k : String) (doc : Json) (path : Path) :
    walkKey visit keys k doc path = match keys.lookup k with
      | none => pure doc
      | some node => if node.isSecret then visit doc path else walkNode visit node doc path := by
  cases keys with
  | nil => rfl
  | cons key _ node rest =>
    rw [walkKey, Keys.lookup, walkKey_eq visit rest k doc path]
    split <;> rfl

/-- A walk whose visits have no effect only fills in. -/
theorem walkNode_pure {m : Type → Type} [Monad m] [LawfulMonad m]
    {visit : Json → Path → m Json} {g : Json → Path → Json} {n : Node} {doc : Json}
    {path : Path} (h : ∀ x ∈ covered n doc path, visit x.2 x.1 = pure (g x.2 x.1)) :
    walkNode visit n doc path = pure (fillNode g n doc path) := by
  induction n using Node.byLookup generalizing doc path with
  | fixed keys ih =>
    cases doc with
    | dict fields =>
      rw [walkNode, fillNode, CommutingMonad.mapM_of_pure
        (g := fun e => (e.1, fillKey g keys e.1 e.2 (path ++ [e.1]))), map_pure]
      intro e he
      have hkey : ∀ x ∈ coveredKey keys e.1 e.2 (path ++ [e.1]), visit x.2 x.1 = pure (g x.2 x.1) :=
        fun x hx => h x (List.mem_flatMap.mpr ⟨e, he, hx⟩)
      rw [coveredKey_eq] at hkey
      rw [walkKey_eq, fillKey_eq]
      cases hlook : keys.lookup e.1 with
      | none => exact map_pure _ _
      | some node =>
        rw [hlook] at hkey
        by_cases hsecret : node.isSecret = true
        · simp only [if_pos hsecret] at hkey ⊢
          rw [hkey _ List.mem_cons_self, map_pure]
        · simp only [if_neg hsecret] at hkey ⊢
          rw [ih e.1 node hlook hkey, map_pure]
    | _ => simp [walkNode, fillNode]
  | keyed _ _ value ih | list value ih =>
    cases doc with
    | dict fields =>
      rw [walkNode, fillNode, CommutingMonad.mapM_of_pure
        (g := fun e => (e.1, fillNode g value e.2 (path ++ [e.1]))), map_pure]
      intro e he
      rw [ih fun x hx => h x (List.mem_flatMap.mpr ⟨e, he, hx⟩), map_pure]
    | _ => simp [walkNode, fillNode]
  | _ => simp [walkNode, fillNode]

/-- One visit that fails fails the walk. -/
theorem walkNode_none {visit : Json → Path → Option Json} {n : Node} {doc : Json}
    {path : Path} {x : Path × Json} (hx : x ∈ covered n doc path)
    (h : visit x.2 x.1 = none) : walkNode visit n doc path = none := by
  induction n using Node.byLookup generalizing doc path with
  | fixed keys ih =>
    cases doc with
    | dict fields =>
      obtain ⟨e, he, hx⟩ := List.mem_flatMap.mp hx
      have hkey : walkKey visit keys e.1 e.2 (path ++ [e.1]) = none := by
        rw [coveredKey_eq] at hx
        rw [walkKey_eq]
        cases hlook : keys.lookup e.1 with
        | none => simp [hlook] at hx
        | some node =>
          rw [hlook] at hx
          by_cases hsecret : node.isSecret = true
          · simp only [if_pos hsecret, List.mem_singleton] at hx ⊢
            subst hx
            exact h
          · simp only [if_neg hsecret] at hx ⊢
            exact ih e.1 node hlook hx
      rw [walkNode, Mapped.mapM_eq_none he (by rw [hkey]; rfl)]
      rfl
    | _ => simp [covered] at hx
  | keyed _ _ value ih | list value ih =>
    cases doc with
    | dict fields =>
      obtain ⟨e, he, hx⟩ := List.mem_flatMap.mp hx
      rw [walkNode, Mapped.mapM_eq_none he (by rw [ih hx]; rfl)]
      rfl
    | _ => simp [covered] at hx
  | _ => simp [covered] at hx

end Packets
