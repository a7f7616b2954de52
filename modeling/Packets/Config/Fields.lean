/-
The fields of an object under assignment and removal, and objects that name no key twice.
-/
import Packets.Config.SecretsKept

namespace Packets

theorem lookup_setEntries (key : String) (value : Json) (fields : List (String × Json))
    (k : String) :
    (Dict.setEntries key value fields).lookup k =
      if k = key then some value else fields.lookup k := by
  induction fields with
  | nil =>
    by_cases hk : k = key
    · simp [Dict.setEntries, hk]
    · simp [Dict.setEntries, List.lookup_cons, beq_eq_false_iff_ne.mpr hk, hk]
  | cons e rest ih =>
    obtain ⟨k', old⟩ := e
    rw [Dict.setEntries]
    by_cases hkey : k' = key
    · subst hkey
      rw [if_pos rfl, List.lookup_cons, List.lookup_cons]
      by_cases hk : k = k'
      · simp [hk]
      · simp [beq_eq_false_iff_ne.mpr hk, hk]
    · rw [if_neg hkey, List.lookup_cons, List.lookup_cons]
      by_cases hk : k = k'
      · subst hk
        simp [hkey]
      · simp only [beq_eq_false_iff_ne.mpr hk, ih]

theorem lookup_eraseField {key : String} {fields : List (String × Json)}
    (hkeys : (fields.map Prod.fst).Nodup) (k : String) :
    (eraseField key fields).lookup k = if k = key then none else fields.lookup k := by
  induction fields with
  | nil => simp [eraseField]
  | cons e rest ih =>
    obtain ⟨k', old⟩ := e
    rw [List.map_cons, List.nodup_cons] at hkeys
    by_cases hkey : k' = key
    · subst hkey
      have herase : eraseField k' ((k', old) :: rest) = rest := by simp [eraseField]
      rw [herase, List.lookup_cons]
      by_cases hk : k = k'
      · subst hk
        rw [if_pos rfl, List.lookup_eq_none_iff]
        intro e he
        rw [bne_iff_ne]
        intro heq
        apply hkeys.1
        exact List.mem_map.mpr ⟨e, he, heq.symm⟩
      · simp [beq_eq_false_iff_ne.mpr hk, hk]
    · have herase : eraseField key ((k', old) :: rest) = (k', old) :: eraseField key rest := by
        simp [eraseField, hkey]
      rw [herase, List.lookup_cons, List.lookup_cons]
      by_cases hk : k = k'
      · subst hk
        simp [hkey]
      · simp only [beq_eq_false_iff_ne.mpr hk, ih hkeys.2]

theorem wellKeyed_dict_iff {fields : List (String × Json)} :
    (Json.dict fields).WellKeyed ↔ (fields.map Prod.fst).Nodup ∧ ∀ e ∈ fields, e.2.WellKeyed := by
  have hfields : Json.WellKeyedFields fields ↔ ∀ e ∈ fields, e.2.WellKeyed := by
    induction fields with
    | nil => simp [Json.WellKeyedFields]
    | cons e rest ih => rw [Json.WellKeyedFields, ih, List.forall_mem_cons]
  rw [Json.WellKeyed, hfields]

theorem wellKeyed_of_lookup {fields : List (String × Json)} (h : (Json.dict fields).WellKeyed)
    {key : String} {value : Json} (hlook : fields.lookup key = some value) : value.WellKeyed := by
  have hmem := lookup_mem hlook
  exact (wellKeyed_dict_iff.mp h).2 _ hmem

theorem wellKeyed_setEntries {fields : List (String × Json)}
    (h : (Json.dict fields).WellKeyed) (key : String) {value : Json}
    (hvalue : value.WellKeyed) : (Json.dict (Dict.setEntries key value fields)).WellKeyed := by
  rw [wellKeyed_dict_iff] at h ⊢
  refine ⟨Dict.nodup_setEntries key value fields h.1, ?_⟩
  have hmem : ∀ e ∈ Dict.setEntries key value fields, e.2 = value ∨ e ∈ fields := by
    clear h
    induction fields with
    | nil => simp [Dict.setEntries]
    | cons e rest ih =>
      intro x hx
      rw [Dict.setEntries] at hx
      split at hx
      · rcases List.mem_cons.mp hx with rfl | hrest
        · exact Or.inl rfl
        · exact Or.inr (List.mem_cons_of_mem _ hrest)
      · rcases List.mem_cons.mp hx with rfl | hrest
        · exact Or.inr List.mem_cons_self
        · exact (ih x hrest).imp id (List.mem_cons_of_mem _)
  intro e he
  rcases hmem e he with heq | hold
  · rwa [heq]
  · exact h.2 e hold

theorem wellKeyed_eraseField {fields : List (String × Json)} (h : (Json.dict fields).WellKeyed)
    (key : String) : (Json.dict (eraseField key fields)).WellKeyed := by
  rw [wellKeyed_dict_iff] at h ⊢
  have hsub : (eraseField key fields).Sublist fields := List.eraseP_sublist
  exact ⟨h.1.sublist (hsub.map Prod.fst), fun e he => h.2 e (hsub.subset he)⟩

theorem wellKeyed_getPath {doc value : Json} (h : doc.WellKeyed) {path : Path}
    (hget : getPath doc path = some value) : value.WellKeyed := by
  induction path generalizing doc with
  | nil =>
    cases hget
    exact h
  | cons key rest ih =>
    cases doc with
    | dict fields =>
      rw [getPath] at hget
      cases hlook : fields.lookup key with
      | none => simp [hlook] at hget
      | some sub =>
        rw [hlook] at hget
        exact ih (wellKeyed_of_lookup h hlook) hget
    | _ => simp [getPath] at hget

theorem wellKeyed_setPath {fields fields' : List (String × Json)}
    (h : (Json.dict fields).WellKeyed) {path : Path} {value : Json} (hvalue : value.WellKeyed)
    {sofar : Path} (hset : setPath fields path value sofar = .ok fields') :
    (Json.dict fields').WellKeyed := by
  induction path generalizing fields fields' sofar with
  | nil => simp [setPath, fail] at hset
  | cons key rest ih =>
    cases rest with
    | nil =>
      cases hset
      exact wellKeyed_setEntries h key hvalue
    | cons next rest =>
      obtain ⟨sub, sub', hsection, hsub, rfl⟩ := setPath_cons_iff.mp hset
      apply wellKeyed_setEntries h
      refine ih ?_ hsub
      have hempty : (Json.dict []).WellKeyed := by simp [wellKeyed_dict_iff]
      cases hlook : fields.lookup key with
      | none =>
        rw [hlook, sectionAt, Option.some.injEq] at hsection
        exact hsection ▸ hempty
      | some old =>
        rw [hlook] at hsection
        cases old with
        | null =>
          rw [sectionAt, Option.some.injEq] at hsection
          exact hsection ▸ hempty
        | dict fields =>
          rw [sectionAt, Option.some.injEq] at hsection
          exact hsection ▸ wellKeyed_of_lookup h hlook
        | _ => simp [sectionAt] at hsection

theorem wellKeyed_delPath {fields fields' : List (String × Json)}
    (h : (Json.dict fields).WellKeyed) {path : Path}
    (hdel : delPath fields path = some fields') : (Json.dict fields').WellKeyed := by
  induction path generalizing fields fields' with
  | nil => simp [delPath] at hdel
  | cons key rest ih =>
    cases rest with
    | nil =>
      rw [delPath] at hdel
      split at hdel
      · exact absurd hdel (by simp)
      · cases hdel
        exact wellKeyed_eraseField h key
    | cons next rest =>
      obtain ⟨sub, sub', hlook, hsub, rfl⟩ := delPath_cons_iff.mp hdel
      split
      · exact wellKeyed_eraseField h key
      · exact wellKeyed_setEntries h key (ih (wellKeyed_of_lookup h hlook) hsub)

theorem Json.byParts {P : Json → Prop}
    (h : ∀ j : Json, (∀ items, j = .list items → ∀ x ∈ items, P x) →
      (∀ fields, j = .dict fields → ∀ e ∈ fields, P e.2) → P j)
    (j : Json) : P j := by
  apply h
  · rintro items rfl x hx
    exact Json.byParts h x
  · rintro fields rfl e he
    exact Json.byParts h e.2
termination_by sizeOf j
decreasing_by
  · subst_vars
    have hsize := List.sizeOf_lt_of_mem hx
    simp only [Json.list.sizeOf_spec]
    omega
  · subst_vars
    have hsize := List.sizeOf_lt_of_mem he
    obtain ⟨key, value⟩ := e
    simp only [Prod.mk.sizeOf_spec, Json.dict.sizeOf_spec] at hsize ⊢
    omega

end Packets
