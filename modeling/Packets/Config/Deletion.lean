/-
What a deletion leaves of the entries of keyed collections.

A section it empties is pruned, with every section above that held nothing else.  An entry
above the path stays exactly when it holds something besides what was deleted.
-/
import Packets.Config.Diffs

namespace Packets

/-- The value holds nothing but what leads to the path. -/
def OnlyHolds : Json → Path → Prop
  | .dict fields, [key] => ∀ e ∈ fields, e.1 = key
  | .dict fields, key :: next :: rest =>
    (∀ e ∈ fields, e.1 = key) ∧
      match fields.lookup key with
      | none => False
      | some sub => OnlyHolds sub (next :: rest)
  | _, _ => False

/-- An entry of a keyed collection stands under one of its keys. -/
def IsKeyedEntry (root : Node) (entry : Path) : Prop :=
  ∃ collection key keyType maxKeys value, entry = collection ++ [key] ∧
    nodeAt root collection = some (.keyed keyType maxKeys value)

/-- The entries a deletion may not touch: those beside the path as they were, those above
it still there. -/
structure KeepsEntries (root : Node) (path : Path) (doc doc' : Json) : Prop where
  beside : ∀ entry, IsKeyedEntry root entry → ¬entry <+: path → ¬path <+: entry →
    getPath doc' entry = getPath doc entry
  above : ∀ entry, IsKeyedEntry root entry → entry <+: path → entry ≠ path →
    (getPath doc' entry).isSome

theorem getPath_dict_nil {path : Path} (h : path ≠ []) : getPath (.dict []) path = none := by
  cases path with
  | nil => exact absurd rfl h
  | cons key rest => rfl

theorem getPath_dict_cons {fields : List (String × Json)} {key : String} {rest : Path}
    {value : Json} (h : fields.lookup key = some value) :
    getPath (.dict fields) (key :: rest) = getPath value rest := by
  rw [getPath, h]

/-- A pruned section reads as an empty one. -/
theorem getPath_pruned {fields sub' : List (String × Json)} {key k : String} {rest : Path}
    (hkeys : (fields.map Prod.fst).Nodup) (hrest : rest ≠ []) :
    getPath (.dict (if sub' = [] then eraseField key fields
        else Dict.setEntries key (.dict sub') fields)) (k :: rest) =
      if k = key then getPath (.dict sub') rest else getPath (.dict fields) (k :: rest) := by
  by_cases hempty : sub' = []
  · rw [if_pos hempty, getPath, lookup_eraseField hkeys]
    by_cases hk : k = key
    · rw [if_pos hk, if_pos hk, hempty, getPath_dict_nil hrest]
    · rw [if_neg hk, if_neg hk, getPath]
  · rw [if_neg hempty, getPath, lookup_setEntries]
    by_cases hk : k = key
    · rw [if_pos hk, if_pos hk]
    · rw [if_neg hk, if_neg hk, getPath]

/-- What stands beside the path is as it was. -/
theorem getPath_delPath_beside {fields fields' : List (String × Json)}
    (hkeyed : (Json.dict fields).WellKeyed) {path other : Path}
    (hdel : delPath fields path = some fields') (habove : ¬other <+: path)
    (hbelow : ¬path <+: other) : getPath (.dict fields') other = getPath (.dict fields) other := by
  induction path generalizing fields fields' other with
  | nil => exact absurd List.nil_prefix hbelow
  | cons key rest ih =>
    have hkeys := (wellKeyed_dict_iff.mp hkeyed).1
    cases other with
    | nil => exact absurd List.nil_prefix habove
    | cons k other =>
      cases rest with
      | nil =>
        have hk : k ≠ key := by
          rintro rfl
          exact hbelow ⟨other, rfl⟩
        rw [delPath] at hdel
        split at hdel
        · cases hdel
        · cases hdel
          rw [getPath, getPath, lookup_eraseField hkeys, if_neg hk]
      | cons next rest =>
        obtain ⟨sub, sub', hlook, hsub, rfl⟩ := delPath_cons_iff.mp hdel
        by_cases hk : k = key
        · subst hk
          rw [List.prefix_cons_inj] at habove hbelow
          have hother : other ≠ [] := by
            rintro rfl
            exact habove List.nil_prefix
          rw [getPath_pruned hkeys hother, if_pos rfl, getPath_dict_cons hlook]
          exact ih (wellKeyed_of_lookup hkeyed hlook) hsub habove hbelow
        · by_cases hempty : sub' = []
          · rw [if_pos hempty, getPath, getPath, lookup_eraseField hkeys, if_neg hk]
          · rw [if_neg hempty, getPath, getPath, lookup_setEntries, if_neg hk]

theorem eraseField_eq_nil_iff {fields : List (String × Json)}
    (hkeys : (fields.map Prod.fst).Nodup) (key : String) :
    eraseField key fields = [] ↔ ∀ e ∈ fields, e.1 = key := by
  constructor
  · intro h e he
    by_contra hne
    have hlook := @lookup_eraseField key fields hkeys e.1
    rw [h, if_neg hne, (lookup_eq_some_iff hkeys).mpr he] at hlook
    cases hlook
  · intro h
    rw [List.eq_nil_iff_forall_not_mem]
    intro e he
    have herase : ((eraseField key fields).map Prod.fst).Nodup :=
      hkeys.sublist (List.eraseP_sublist.map Prod.fst)
    have hlook := (lookup_eq_some_iff herase).mpr he
    have hin : e ∈ fields := List.mem_of_mem_eraseP he
    rw [lookup_eraseField hkeys, if_pos (h e hin)] at hlook
    cases hlook

/-- A section is emptied exactly when it holds nothing else. -/
theorem delPath_eq_nil_iff {fields fields' : List (String × Json)}
    (hkeyed : (Json.dict fields).WellKeyed) {path : Path}
    (hdel : delPath fields path = some fields') : fields' = [] ↔ OnlyHolds (.dict fields) path := by
  induction path generalizing fields fields' with
  | nil => cases hdel
  | cons key rest ih =>
    have hkeys := (wellKeyed_dict_iff.mp hkeyed).1
    cases rest with
    | nil =>
      rw [delPath] at hdel
      split at hdel
      · cases hdel
      · cases hdel
        exact eraseField_eq_nil_iff hkeys key
    | cons next rest =>
      obtain ⟨sub, sub', hlook, hsub, rfl⟩ := delPath_cons_iff.mp hdel
      have hiff := ih (wellKeyed_of_lookup hkeyed hlook) hsub
      rw [OnlyHolds, hlook]
      dsimp only
      rw [← hiff]
      by_cases hempty : sub' = []
      · rw [if_pos hempty, eraseField_eq_nil_iff hkeys]
        exact ⟨fun h => ⟨h, hempty⟩, fun h => h.1⟩
      · rw [if_neg hempty]
        have hset : Dict.setEntries key (.dict sub') fields ≠ [] := by
          intro hnil
          have hval := lookup_setEntries key (.dict sub') fields key
          rw [hnil, if_pos rfl] at hval
          cases hval
        exact ⟨fun h => absurd h hset, fun h => absurd h.2 hempty⟩

/-- What stands above the path is gone exactly when it holds nothing else. -/
theorem getPath_delPath_above {fields fields' : List (String × Json)}
    (hkeyed : (Json.dict fields).WellKeyed) {above rest : Path} (habove : above ≠ [])
    (hrest : rest ≠ []) (hdel : delPath fields (above ++ rest) = some fields') :
    ∃ value, getPath (.dict fields) above = some value ∧
      ((getPath (.dict fields') above).isSome ↔ ¬OnlyHolds value rest) := by
  induction above generalizing fields fields' with
  | nil => exact absurd rfl habove
  | cons key above ih =>
    have hkeys := (wellKeyed_dict_iff.mp hkeyed).1
    have hne : above ++ rest ≠ [] := by simp [hrest]
    obtain ⟨next, path, hpath⟩ := List.exists_cons_of_ne_nil hne
    rw [List.cons_append, hpath] at hdel
    obtain ⟨sub, sub', hlook, hsub, rfl⟩ := delPath_cons_iff.mp hdel
    have hsubkeyed := wellKeyed_of_lookup hkeyed hlook
    rw [← hpath] at hsub
    cases above with
    | nil =>
      refine ⟨.dict sub, by rw [getPath_dict_cons hlook, getPath_nil], ?_⟩
      rw [List.nil_append] at hsub
      rw [← delPath_eq_nil_iff hsubkeyed hsub]
      by_cases hempty : sub' = []
      · rw [if_pos hempty, getPath, lookup_eraseField hkeys, if_pos rfl]
        simp [hempty]
      · rw [if_neg hempty, getPath, lookup_setEntries, if_pos rfl]
        simp [hempty, getPath_nil]
    | cons k above =>
      obtain ⟨value, hvalue, hiff⟩ := ih hsubkeyed (List.cons_ne_nil k above) hsub
      refine ⟨value, by rw [getPath_dict_cons hlook, hvalue], ?_⟩
      rw [getPath_pruned hkeys (List.cons_ne_nil k above), if_pos rfl]
      exact hiff

theorem proposeDelete_eq_ok {store : ConfigStore} {path : Path} {doc : Json}
    (h : store.proposeDelete path = .ok doc) :
    ∃ fields, delPath store.fields path = some fields ∧ doc = .dict fields := by
  rw [ConfigStore.proposeDelete] at h
  split at h
  · cases h
  · cases hdel : delPath store.fields path with
    | none =>
      rw [hdel] at h
      cases h
    | some fields =>
      rw [hdel] at h
      dsimp only at h
      cases hvalid : Node.validate store.schema.root (.dict fields) [] with
      | error e =>
        rw [hvalid] at h
        cases h
      | ok u =>
        rw [hvalid] at h
        cases h
        exact ⟨fields, rfl, rfl⟩

/-- A deletion keeps the entries it is not about exactly when no entry above the path holds
nothing else. -/
theorem keepsEntries_iff {store : ConfigStore} {path : Path} {doc : Json}
    (h : store.proposeDelete path = .ok doc) :
    KeepsEntries store.schema.root path store.stored doc ↔
      ∀ entry rest value, IsKeyedEntry store.schema.root entry → rest ≠ [] → path = entry ++ rest →
        getPath store.stored entry = some value → ¬OnlyHolds value rest := by
  obtain ⟨fields, hdel, rfl⟩ := proposeDelete_eq_ok h
  have hne : ∀ entry, IsKeyedEntry store.schema.root entry → entry ≠ [] := by
    rintro entry ⟨collection, key, _, _, _, rfl, -⟩
    simp
  constructor
  · rintro hkeeps entry rest value hentry hrest rfl hvalue
    obtain ⟨held, hheld, hiff⟩ :=
      getPath_delPath_above store.wellKeyed (hne entry hentry) hrest hdel
    rw [ConfigStore.stored, hheld, Option.some.injEq] at hvalue
    subst hvalue
    rw [← hiff]
    exact hkeeps.above entry hentry (List.prefix_append entry rest) (by simpa using hrest)
  · intro hheld
    constructor
    · intro entry _ habove hbelow
      exact getPath_delPath_beside store.wellKeyed hdel habove hbelow
    · rintro entry hentry ⟨rest, rfl⟩ hproper
      have hrest : rest ≠ [] := by
        rintro rfl
        exact hproper (List.append_nil entry).symm
      obtain ⟨value, hvalue, hiff⟩ :=
        getPath_delPath_above store.wellKeyed (hne entry hentry) hrest hdel
      rw [hiff]
      exact hheld entry rest value hentry hrest rfl hvalue

/-- What the BGP plugin contributes under `router`, as far as `network` statements. -/
def networkKeys : Keys :=
  .cons "bgp" false (.keyed .asn (some 1) (.fixed <|
    .cons "router-id" false .addr <|
    .cons "address-family" false (.keyed .afi none (.keyed .safi none (.fixed <|
      .cons "network" false (.keyed .pfx none (.fixed <|
        .cons "import-check" false .bool <|
        .cons "route-map" false (.str {}) .nil)) .nil))) .nil)) .nil

def networkFields : List (String × Json) :=
  [("router", .dict [("bgp", .dict [("65000", .dict [ ("router-id", .str "192.0.2.1"),
    ("address-family", .dict [("ipv4", .dict [("unicast", .dict [
      ("network", .dict [("10.0.0.0/8", .dict [("import-check", .bool true)]),
        ("10.1.0.0/16", .dict [])])])])])])])])]

/-- An engine that originates two networks, the first with an option. -/
def networkStore : ConfigStore where
  schema := ⟨coreSchema networkKeys, by
    simp [coreSchema, networkKeys, Node.WellKeyed, Keys.WellKeyed, Keys.names,
      prefixListEntrySchema, routeMapClauseSchema, staticRouteSchema, routeInstallSchema,
      apiSchema, choice, uint32]⟩
  fields := networkFields
  wellKeyed := by simp [networkFields, Json.WellKeyed, Json.WellKeyedFields]
  valid := rfl

def networkPath : Path :=
  ["router", "bgp", "65000", "address-family", "ipv4", "unicast", "network", "10.0.0.0/8"]

theorem isKeyedEntry_networkPath : IsKeyedEntry networkStore.schema.root networkPath :=
  ⟨["router", "bgp", "65000", "address-family", "ipv4", "unicast", "network"], "10.0.0.0/8",
    _, _, _, rfl, rfl⟩

/-- What is left of the document when the option of the first network is deleted. -/
def prunedFields : List (String × Json) :=
  [("router", .dict [("bgp", .dict [("65000", .dict [ ("router-id", .str "192.0.2.1"),
    ("address-family", .dict [("ipv4", .dict [("unicast", .dict [
      ("network", .dict [("10.1.0.0/16", .dict [])])])])])])])])]

theorem keepsEntries_iff_networkStore :
    KeepsEntries networkStore.schema.root (networkPath ++ ["import-check"]) networkStore.stored
        (.dict prunedFields) ↔
      ∀ entry rest value, IsKeyedEntry networkStore.schema.root entry → rest ≠ [] →
        networkPath ++ ["import-check"] = entry ++ rest →
        getPath networkStore.stored entry = some value → ¬OnlyHolds value rest :=
  keepsEntries_iff rfl

theorem not_keepsEntries :
    ¬∀ (store : ConfigStore) (path : Path) (doc : Json), store.proposeDelete path = .ok doc →
      KeepsEntries store.schema.root path store.stored doc := by
  intro h
  have hdel : networkStore.proposeDelete (networkPath ++ ["import-check"]) =
      .ok (.dict prunedFields) := rfl
  have habove := (h _ _ _ hdel).above networkPath isKeyedEntry_networkPath
    (List.prefix_append _ _) (by decide)
  cases habove

end Packets
