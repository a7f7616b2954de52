/-
What redaction hides.

`mask` is what it is for: every non-empty secret reads as the placeholder.  `exposed` are the
secrets the walk does not visit: those below a list, and entries of a keyed collection.
-/
import Packets.Config.Secrets

namespace Packets

def redactNode (n : Node) (doc : Json) (path : Path) : Json :=
  fillNode (fun value _ => redactLeaf value) n doc path

theorem redactedCopy_eq (schema : Schema) (doc : Json) :
    redactedCopy schema doc = redactNode schema.root doc [] := by
  rw [redactedCopy, walkSecrets_eq]
  exact walkNode_pure (m := Id) fun _ _ => rfl

mutual

/-- Every secret of a document, wherever it stands, with the placeholder for a
non-empty value. -/
def mask : Node → Json → Json
  | .secret _, doc => redactLeaf doc
  | .fixed keys, .dict fields => .dict (fields.map fun e => (e.1, maskKey keys e.1 e.2))
  | .keyed _ _ value, .dict fields => .dict (fields.map fun e => (e.1, mask value e.2))
  | .list item, .list items => .list (items.map (mask item))
  | _, doc => doc

def maskKey : Keys → String → Json → Json
  | .nil, _, doc => doc
  | .cons key _ node rest, k, doc => if key = k then mask node doc else maskKey rest k doc

end

inductive PlaceStep where
  | key (k : String)
  | item (i : Nat)
deriving DecidableEq

/-- A place in a document, below objects and lists. -/
abbrev Place := List PlaceStep

mutual

/-- Every secret of a document with its place. -/
def secrets : Node → Json → Place → List (Place × Json)
  | .secret _, doc, place => [(place, doc)]
  | .fixed keys, .dict fields, place =>
    fields.flatMap fun e => secretsKey keys e.1 e.2 (place ++ [.key e.1])
  | .keyed _ _ value, .dict fields, place =>
    fields.flatMap fun e => secrets value e.2 (place ++ [.key e.1])
  | .list item, .list items, place =>
    items.zipIdx.flatMap fun x => secrets item x.1 (place ++ [.item x.2])
  | _, _, _ => []

def secretsKey : Keys → String → Json → Place → List (Place × Json)
  | .nil, _, _, _ => []
  | .cons key _ node rest, k, doc, place =>
    if key = k then secrets node doc place else secretsKey rest k doc place

end

mutual

/-- The secrets no walk visits. -/
def exposed : Node → Json → Place → List (Place × Json)
  | .secret _, doc, place => [(place, doc)]
  | .fixed keys, .dict fields, place =>
    fields.flatMap fun e => exposedKey keys e.1 e.2 (place ++ [.key e.1])
  | .keyed _ _ value, .dict fields, place =>
    fields.flatMap fun e => exposed value e.2 (place ++ [.key e.1])
  | .list item, .list items, place =>
    items.zipIdx.flatMap fun x => secrets item x.1 (place ++ [.item x.2])
  | _, _, _ => []

/-- A secret directly under a fixed key is visited. -/
def exposedKey : Keys → String → Json → Place → List (Place × Json)
  | .nil, _, _, _ => []
  | .cons key _ node rest, k, doc, place =>
    if key = k then
      if node.isSecret then [] else exposed node doc place
    else exposedKey rest k doc place

end

theorem maskKey_eq (keys : Keys) (k : String) (doc : Json) :
    maskKey keys k doc = match keys.lookup k with
      | none => doc
      | some node => mask node doc := by
  cases keys with
  | nil => rfl
  | cons key _ node rest =>
    rw [maskKey, Keys.lookup, maskKey_eq rest k doc]
    split <;> rfl

theorem secretsKey_eq (keys : Keys) (k : String) (doc : Json) (place : Place) :
    secretsKey keys k doc place = match keys.lookup k with
      | none => []
      | some node => secrets node doc place := by
  cases keys with
  | nil => rfl
  | cons key _ node rest =>
    rw [secretsKey, Keys.lookup, secretsKey_eq rest k doc place]
    split <;> rfl

theorem exposedKey_eq (keys : Keys) (k : String) (doc : Json) (place : Place) :
    exposedKey keys k doc place = match keys.lookup k with
      | none => []
      | some node => if node.isSecret then [] else exposed node doc place := by
  cases keys with
  | nil => rfl
  | cons key _ node rest =>
    rw [exposedKey, Keys.lookup, exposedKey_eq rest k doc place]
    split <;> rfl

/-- Lists alike under `m` differ under `r` where they differ in what `e` collects. -/
theorem map_eq_iff_flatMap_eq {α β γ δ : Type} {m : α → β} {r : α → γ} {e : α → List δ}
    (h : ∀ x y, m x = m y → (e x).length = (e y).length ∧ (r x = r y ↔ e x = e y))
    {xs ys : List α} (hm : xs.map m = ys.map m) :
    (xs.flatMap e).length = (ys.flatMap e).length ∧
      (xs.map r = ys.map r ↔ xs.flatMap e = ys.flatMap e) := by
  induction xs generalizing ys with
  | nil =>
    rw [List.map_nil, eq_comm, List.map_eq_nil_iff] at hm
    subst hm
    simp
  | cons x xs ih =>
    cases ys with
    | nil => simp at hm
    | cons y ys =>
      simp only [List.map_cons, List.cons.injEq] at hm
      obtain ⟨hlen, hhead⟩ := h x y hm.1
      obtain ⟨hlens, htail⟩ := ih hm.2
      constructor
      · simp only [List.flatMap_cons, List.length_append, hlen, hlens]
      · simp only [List.map_cons, List.cons.injEq, List.flatMap_cons]
        rw [hhead, htail]
        constructor
        · rintro ⟨h₁, h₂⟩
          rw [h₁, h₂]
        · intro happ
          exact List.append_inj happ hlen

theorem zipIdx_map_eq_iff_flatMap_eq {α β δ : Type} {m : α → β} {e : α × Nat → List δ}
    (h : ∀ x y i, m x = m y → (e (x, i)).length = (e (y, i)).length ∧ (x = y ↔ e (x, i) = e (y, i)))
    {xs ys : List α} (hm : xs.map m = ys.map m) :
    (xs.zipIdx.flatMap e).length = (ys.zipIdx.flatMap e).length ∧
      (xs = ys ↔ xs.zipIdx.flatMap e = ys.zipIdx.flatMap e) := by
  have hzip : xs.zipIdx.map (Prod.map m id) = ys.zipIdx.map (Prod.map m id) := by
    rw [← List.zipIdx_map, ← List.zipIdx_map, hm]
  obtain ⟨hlen, hiff⟩ := map_eq_iff_flatMap_eq (r := id) (e := e)
    (m := Prod.map m id) (by
      rintro ⟨x, i⟩ ⟨y, j⟩ hxy
      simp only [Prod.map_apply, id_eq, Prod.mk.injEq] at hxy
      obtain ⟨hm, rfl⟩ := hxy
      simpa using h x y i hm) hzip
  refine ⟨hlen, ?_⟩
  rw [← hiff, List.map_id, List.map_id]
  constructor
  · intro heq
    rw [heq]
  · intro heq
    have hfst := congrArg (List.map Prod.fst) heq
    simpa using hfst

theorem dict_eq_iff_flatMap_eq {δ : Type} {m r : String → Json → Json} {e : String → Json → List δ}
    (h : ∀ k x y, m k x = m k y → (e k x).length = (e k y).length ∧ (r k x = r k y ↔ e k x = e k y))
    {f g : List (String × Json)}
    (hm : f.map (fun x => (x.1, m x.1 x.2)) = g.map fun x => (x.1, m x.1 x.2)) :
    (f.flatMap fun x => e x.1 x.2).length = (g.flatMap fun x => e x.1 x.2).length ∧
      (Json.dict (f.map fun x => (x.1, r x.1 x.2)) = .dict (g.map fun x => (x.1, r x.1 x.2)) ↔
        (f.flatMap fun x => e x.1 x.2) = g.flatMap fun x => e x.1 x.2) := by
  rw [Json.dict.injEq]
  apply map_eq_iff_flatMap_eq _ hm
  rintro ⟨k, x⟩ ⟨k', y⟩ hxy
  obtain ⟨rfl, hxy⟩ := Prod.mk.inj hxy
  simpa only [Prod.mk.injEq, true_and] using h k x y hxy

theorem mask_fixed_cases {keys : Keys} {v w : Json}
    (hm : mask (.fixed keys) v = mask (.fixed keys) w) :
    v = w ∨ ∃ f g, v = .dict f ∧ w = .dict g ∧
      f.map (fun x => (x.1, maskKey keys x.1 x.2)) =
        g.map fun x => (x.1, maskKey keys x.1 x.2) := by
  cases v <;> cases w <;> simp_all [mask]

theorem mask_keyed_cases {keyType : KeyType} {maxKeys : Option Nat} {value : Node} {v w : Json}
    (hm : mask (.keyed keyType maxKeys value) v = mask (.keyed keyType maxKeys value) w) :
    v = w ∨ ∃ f g, v = .dict f ∧ w = .dict g ∧
      f.map (fun x => (x.1, mask value x.2)) = g.map fun x => (x.1, mask value x.2) := by
  cases v <;> cases w <;> simp_all [mask]

theorem mask_list_cases {item : Node} {v w : Json}
    (hm : mask (.list item) v = mask (.list item) w) :
    v = w ∨ ∃ xs ys, v = .list xs ∧ w = .list ys ∧ xs.map (mask item) = ys.map (mask item) := by
  cases v <;> cases w <;> simp_all [mask]

/-- Documents with one mask are equal where their secrets are. -/
theorem secrets_spec {n : Node} {v w : Json} (hm : mask n v = mask n w) (place : Place) :
    (secrets n v place).length = (secrets n w place).length ∧
      (v = w ↔ secrets n v place = secrets n w place) := by
  induction n using Node.byLookup generalizing v w place with
  | fixed keys ih =>
    rcases mask_fixed_cases hm with rfl | ⟨f, g, rfl, rfl, hfields⟩
    · simp
    · have hspec := dict_eq_iff_flatMap_eq (r := fun _ x => x)
        (e := fun k x => secretsKey keys k x (place ++ [.key k])) (by
          intro k x y hxy
          simp only [maskKey_eq, secretsKey_eq] at hxy ⊢
          cases hlook : keys.lookup k with
          | none => simpa [hlook] using hxy
          | some node =>
            simp only [hlook] at hxy ⊢
            exact ih k node hlook hxy _) hfields
      simpa only [secrets, Prod.mk.eta, List.map_id'] using hspec
  | keyed _ _ value ih =>
    rcases mask_keyed_cases hm with rfl | ⟨f, g, rfl, rfl, hfields⟩
    · simp
    · have hspec := dict_eq_iff_flatMap_eq (r := fun _ x => x)
        (e := fun k x => secrets value x (place ++ [.key k]))
        (fun k x y hxy => ih hxy _) hfields
      simpa only [secrets, Prod.mk.eta, List.map_id'] using hspec
  | list item ih =>
    rcases mask_list_cases hm with rfl | ⟨xs, ys, rfl, rfl, hitems⟩
    · simp
    · have hspec := zipIdx_map_eq_iff_flatMap_eq
        (e := fun x => secrets item x.1 (place ++ [.item x.2]))
        (fun x y i hxy => ih hxy _) hitems
      simpa only [secrets, Json.list.injEq] using hspec
  | secret rule => simp [secrets]
  | _ => simpa [mask, secrets] using hm

/-- Documents with one mask are redacted alike where they expose the same. -/
theorem redactNode_spec {n : Node} {v w : Json} (hm : mask n v = mask n w) (path : Path)
    (place : Place) :
    (exposed n v place).length = (exposed n w place).length ∧
      (redactNode n v path = redactNode n w path ↔ exposed n v place = exposed n w place) := by
  simp only [redactNode]
  induction n using Node.byLookup generalizing v w path place with
  | fixed keys ih =>
    rcases mask_fixed_cases hm with rfl | ⟨f, g, rfl, rfl, hfields⟩
    · simp
    · rw [exposed, exposed, fillNode, fillNode]
      refine dict_eq_iff_flatMap_eq
        (r := fun k x => fillKey (fun value _ => redactLeaf value) keys k x (path ++ [k]))
        (e := fun k x => exposedKey keys k x (place ++ [PlaceStep.key k]))
        (fun k x y hxy => ?_) hfields
      simp only [maskKey_eq, exposedKey_eq, fillKey_eq] at hxy ⊢
      cases hlook : keys.lookup k with
      | none => simpa [hlook] using hxy
      | some node =>
        simp only [hlook] at hxy ⊢
        by_cases hsecret : node.isSecret = true
        · cases node with
          | secret rule => simpa [Node.isSecret, mask] using hxy
          | _ => simp [Node.isSecret] at hsecret
        · simp only [if_neg hsecret]
          exact ih k node hlook hxy _ _
  | keyed _ _ value ih =>
    rcases mask_keyed_cases hm with rfl | ⟨f, g, rfl, rfl, hfields⟩
    · simp
    · rw [exposed, exposed, fillNode, fillNode]
      exact dict_eq_iff_flatMap_eq
        (r := fun k x => fillNode (fun value _ => redactLeaf value) value x (path ++ [k]))
        (e := fun k x => exposed value x (place ++ [.key k]))
        (fun k x y hxy => ih hxy _ _) hfields
  | list item ih =>
    rcases mask_list_cases hm with rfl | ⟨xs, ys, rfl, rfl, hitems⟩
    · simp
    · have hspec := zipIdx_map_eq_iff_flatMap_eq
        (e := fun x => secrets item x.1 (place ++ [.item x.2]))
        (fun x y i hxy => secrets_spec hxy _) hitems
      simpa [exposed, fillNode] using hspec
  | secret rule => simp [exposed, fillNode]
  | _ => simpa [mask, exposed, fillNode] using hm

theorem redactedCopy_iff (schema : Schema) {v w : Json}
    (hm : mask schema.root v = mask schema.root w) :
    redactedCopy schema v = redactedCopy schema w ↔
      exposed schema.root v [] = exposed schema.root w [] := by
  rw [redactedCopy_eq, redactedCopy_eq]
  exact (redactNode_spec hm [] []).2

/-- The node at a path; what lies inside a secret is the secret's. -/
def nodeAt : Node → Path → Option Node
  | n, [] => some n
  | .fixed keys, key :: path =>
    match keys.lookup key with
    | none => none
    | some node => nodeAt node path
  | .keyed _ _ value, _ :: path | .list value, _ :: path => nodeAt value path
  | .secret rule, _ :: _ => some (.secret rule)
  | _, _ :: _ => none

/-- The patterns that go through a key, without it. -/
def through (key : String) (patterns : List Pattern) : List Pattern :=
  patterns.filterMap fun
    | [] => none
    | none :: rest => some rest
    | some k :: rest => if k = key then some rest else none

theorem belowPath_nil (patterns : List Pattern) :
    belowPath [] patterns = if [] ∈ patterns then none else some patterns := by
  induction patterns with
  | nil => rfl
  | cons spath rest ih =>
    cases spath with
    | nil => simp [belowPath, patternMatches]
    | cons key spath =>
      rw [belowPath, if_neg (by simp), if_pos (by simp [patternMatches]), ih]
      by_cases hnil : [] ∈ rest <;> simp [hnil]

/-- One key of the path taken off every pattern. -/
theorem belowPath_cons (key : String) (path : Path) {patterns : List Pattern}
    (hne : [] ∉ patterns) :
    belowPath (key :: path) patterns = belowPath path (through key patterns) := by
  induction patterns with
  | nil => rfl
  | cons spath rest ih =>
    rw [List.mem_cons, not_or] at hne
    have hrest := ih hne.2
    cases spath with
    | nil => exact absurd rfl hne.1
    | cons k spath =>
      -- Whether the pattern's first key is the path's.
      by_cases hk : k = none ∨ k = some key
      · have hthrough : through key ((k :: spath) :: rest) = spath :: through key rest := by
          rcases hk with rfl | rfl <;> simp [through]
        have hhead : (decide (k = none) || decide (k = some key)) = true := by simpa using hk
        rw [hthrough, belowPath, belowPath, hrest]
        simp only [List.length_cons, Nat.add_le_add_iff_right, List.take_succ_cons,
          List.drop_succ_cons, patternMatches, List.zip_cons_cons, List.all_cons,
          Nat.add_right_cancel_iff, hhead, Bool.true_and]
        rfl
      · have hthrough : through key ((k :: spath) :: rest) = through key rest := by
          cases k with
          | none => simp at hk
          | some k =>
            have hne : k ≠ key := fun h => hk (.inr (congrArg some h))
            simp [through, hne]
        have hhead : (decide (k = none) || decide (k = some key)) = false := by simpa using hk
        rw [hthrough, belowPath, hrest]
        simp only [List.take_succ_cons, List.length_cons, patternMatches,
          List.zip_cons_cons, List.all_cons, hhead, Bool.false_and, Bool.and_false]
        simp

theorem through_map_some (key k : String) (patterns : List Pattern) :
    through key (patterns.map ([some k] ++ ·)) = if k = key then patterns else [] := by
  by_cases hk : k = key
  · subst hk
    simp [through, List.filterMap_map]
  · simp [through, List.filterMap_map, hk]

theorem through_map_none (key : String) (patterns : List Pattern) :
    through key (patterns.map ([none] ++ ·)) = patterns := by
  simp [through, List.filterMap_map]

theorem through_secretPathsKeys (key : String) {keys : Keys} (h : keys.WellKeyed) :
    through key (secretPathsKeys keys []) = match keys.lookup key with
      | none => []
      | some node => secretPaths node [] := by
  cases keys with
  | nil => rfl
  | cons k _ node rest =>
    obtain ⟨hfresh, -, hrest⟩ := h
    rw [secretPathsKeys, secretPaths_append, Keys.lookup]
    have happ : ∀ a b, through key (a ++ b) = through key a ++ through key b :=
      fun a b => List.filterMap_append
    rw [happ, List.nil_append, through_map_some, through_secretPathsKeys key hrest]
    by_cases hk : k = key
    · subst hk
      have hnone : rest.lookup k = none := by
        cases hlook : rest.lookup k with
        | none => rfl
        | some n => exact absurd (Keys.mem_names_of_lookup hlook) hfresh
      simp [hnone]
    · simp [hk]

theorem Keys.wellKeyed_of_lookup {keys : Keys} (h : keys.WellKeyed) {k : String} {n : Node}
    (hlook : keys.lookup k = some n) : n.WellKeyed := by
  match keys with
  | .nil => simp [Keys.lookup] at hlook
  | .cons key _ node rest =>
    obtain ⟨-, hnode, hrest⟩ := h
    rw [Keys.lookup] at hlook
    by_cases hk : key = k
    · rw [if_pos hk, Option.some.injEq] at hlook
      exact hlook ▸ hnode
    · rw [if_neg hk] at hlook
      exact wellKeyed_of_lookup hrest hlook

/-- The patterns below a path are those of the node it leads to. -/
theorem belowPath_secretPaths {n : Node} (h : n.WellKeyed) (path : Path) :
    belowPath path (secretPaths n []) = match nodeAt n path with
      | none => some []
      | some node => if node.isSecret then none else some (secretPaths node []) := by
  induction path generalizing n with
  | nil =>
    rw [belowPath_nil, nodeAt]
    by_cases hsecret : n.isSecret = true
    · simp [(nil_mem_secretPaths_iff n).mpr hsecret, hsecret]
    · simp [mt (nil_mem_secretPaths_iff n).mp hsecret, hsecret]
  | cons key path ih =>
    have hne : n.isSecret = false → [] ∉ secretPaths n [] := by
      intro hsecret hmem
      rw [(nil_mem_secretPaths_iff n).mp hmem] at hsecret
      exact absurd hsecret (by decide)
    cases n with
    | fixed keys =>
      rw [belowPath_cons key path (hne rfl), secretPaths, through_secretPathsKeys key h, nodeAt]
      cases hlook : keys.lookup key with
      | none => rfl
      | some node => exact ih (Keys.wellKeyed_of_lookup h hlook)
    | keyed _ _ value | list value =>
      have hvalue : value.WellKeyed := h
      rw [belowPath_cons key path (hne rfl), secretPaths, secretPaths_append,
        List.nil_append, through_map_none, nodeAt]
      exact ih hvalue
    | secret rule => simp [secretPaths, belowPath, patternMatches, nodeAt, Node.isSecret]
    | _ => rfl

theorem wellKeyed_of_nodeAt {n node : Node} (h : n.WellKeyed) {path : Path}
    (hnode : nodeAt n path = some node) : node.WellKeyed := by
  induction path generalizing n with
  | nil =>
    rw [nodeAt, Option.some.injEq] at hnode
    exact hnode ▸ h
  | cons key path ih =>
    cases n with
    | fixed keys =>
      rw [nodeAt] at hnode
      cases hlook : keys.lookup key with
      | none => simp [hlook] at hnode
      | some sub =>
        rw [hlook] at hnode
        exact ih (Keys.wellKeyed_of_lookup h hlook) hnode
    | keyed _ _ value | list value =>
      have hvalue : value.WellKeyed := h
      exact ih hvalue hnode
    | secret rule =>
      rw [nodeAt, Option.some.injEq] at hnode
      exact hnode ▸ h
    | _ => simp [nodeAt] at hnode

/-- A value at a secret, or inside one, as a change shows it. -/
def shownSecret : Json → Json
  | .null => .null
  | .str s => .str (if s = "" then "" else REDACTED)
  | _ => .str REDACTED

theorem redactNode_null (n : Node) (path : Path) : redactNode n .null path = .null := by
  cases n <;> rfl

theorem redactValue_eq (schema : Schema) (path : Path) (value : Json) :
    redactValue path value (secretPaths schema.root []) = match nodeAt schema.root path with
      | none => value
      | some node => if node.isSecret then shownSecret value else redactNode node value path := by
  have hwalk : ∀ node : Node, node.WellKeyed → ∀ value : Json,
      Id.run ((secretPaths node []).foldlM
        (fun value rest => walkOne (fun value _ => pure (redactLeaf value)) rest value path)
        value) = redactNode node value path := by
    intro node hnode value
    rw [foldlM_secretPaths (m := Id) _ hnode]
    exact walkNode_pure (m := Id) fun _ _ => rfl
  have hbelow := belowPath_secretPaths schema.wellKeyed path
  cases hnode : nodeAt schema.root path with
  | none =>
    rw [hnode] at hbelow
    cases value <;> simp [redactValue, hbelow]
  | some node =>
    rw [hnode] at hbelow
    by_cases hsecret : node.isSecret = true
    · simp only [if_pos hsecret] at hbelow ⊢
      cases value <;> simp [redactValue, hbelow, shownSecret]
    · simp only [if_neg hsecret] at hbelow ⊢
      have hwell := wellKeyed_of_nodeAt schema.wellKeyed hnode
      cases value <;> simp only [redactValue, hbelow, hwalk node hwell, redactNode_null]

/-- What the mask makes of a value that stands at a path. -/
def maskAt (schema : Schema) (path : Path) (value : Json) : Json :=
  match nodeAt schema.root path with
  | none => value
  | some node => mask node value

/-- The secrets in a value at a path that its change shows as they are. -/
def exposedAt (schema : Schema) (path : Path) (value : Json) : List (Place × Json) :=
  match nodeAt schema.root path with
  | none => []
  | some node => if node.isSecret then [] else exposed node value (path.map .key)

theorem redactValue_iff (schema : Schema) (path : Path) {v w : Json}
    (hm : maskAt schema path v = maskAt schema path w) :
    redactValue path v (secretPaths schema.root []) =
        redactValue path w (secretPaths schema.root []) ↔
      exposedAt schema path v = exposedAt schema path w := by
  rw [redactValue_eq, redactValue_eq, exposedAt, exposedAt]
  rw [maskAt, maskAt] at hm
  cases hnode : nodeAt schema.root path with
  | none => simpa [hnode] using hm
  | some node =>
    simp only [hnode] at hm ⊢
    by_cases hsecret : node.isSecret = true
    · cases node with
      | secret rule =>
        simp only [mask] at hm
        simp only [Node.isSecret, if_true, iff_true]
        cases v <;> cases w <;> simp_all [redactLeaf, shownSecret]
      | _ => simp [Node.isSecret] at hsecret
    · simp only [if_neg hsecret]
      exact (redactNode_spec hm path _).2

/-- The change with its secrets masked. -/
def Change.mask (schema : Schema) (c : Change) : Change :=
  ⟨c.path, c.old.map (maskAt schema c.path), c.new.map (maskAt schema c.path)⟩

/-- The secrets that a rendered change shows, on either side. -/
def Change.exposed (schema : Schema) (c : Change) : List (Place × Json) × List (Place × Json) :=
  ((c.old.map (exposedAt schema c.path)).getD [], (c.new.map (exposedAt schema c.path)).getD [])

theorem redactSide_iff (schema : Schema) (path : Path) {v w : Option Json}
    (hm : v.map (maskAt schema path) = w.map (maskAt schema path)) :
    v.map (redactValue path · (secretPaths schema.root [])) =
        w.map (redactValue path · (secretPaths schema.root [])) ↔
      (v.map (exposedAt schema path)).getD [] = (w.map (exposedAt schema path)).getD [] := by
  cases v with
  | none =>
    cases w with
    | none => simp
    | some w => simp at hm
  | some v =>
    cases w with
    | none => simp at hm
    | some w =>
      simp only [Option.map_some, Option.some.injEq] at hm
      simpa using redactValue_iff schema path hm

/-- Two diffs that differ only in secrets' values are rendered alike where they expose
the same. -/
theorem redactedChanges_iff (schema : Schema) {c d : List Change}
    (hm : c.map (Change.mask schema) = d.map (Change.mask schema)) :
    redactedChanges schema c = redactedChanges schema d ↔
      c.map (Change.exposed schema) = d.map (Change.exposed schema) := by
  simp only [redactedChanges, asList, List.map_map, Function.comp_def]
  induction c generalizing d with
  | nil =>
    rw [List.map_nil, eq_comm, List.map_eq_nil_iff] at hm
    subst hm
    simp
  | cons x rest ih =>
    cases d with
    | nil => simp at hm
    | cons y ys =>
      simp only [List.map_cons, List.cons.injEq] at hm ⊢
      obtain ⟨path, old, new⟩ := x
      obtain ⟨path', old', new'⟩ := y
      obtain ⟨hhead, htail⟩ := hm
      simp only [Change.mask, Change.mk.injEq] at hhead
      obtain ⟨rfl, hold, hnew⟩ := hhead
      rw [ih htail]
      simp only [ChangeItem.mk.injEq, true_and, Change.exposed, Prod.mk.injEq]
      rw [redactSide_iff schema path hold, redactSide_iff schema path hnew]

end Packets
