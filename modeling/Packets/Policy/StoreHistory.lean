/-
Histories of the policy store.

`Part` names what differs between the four kinds of object.  An object that stays defined
continues one version line, on which one version is one object.
-/
import Mathlib.Data.List.Induction
import Packets.Policy.Store

namespace Packets

namespace PolicyStore

variable (rx : RegexEngine)

/-- One load.  A document that is refused leaves the store as it was. -/
def step (s : PolicyStore) (document : Json) : PolicyStore := (s.load rx document).getD s

def run (s : PolicyStore) (documents : List Json) : PolicyStore := documents.foldl (step rx) s

variable {rx}

theorem run_snoc (s : PolicyStore) (before : List Json) (document : Json) :
    run rx s (before ++ [document]) = step rx (run rx s before) document := by
  simp [run]

/-- What a load that is not refused does to each kind. -/
theorem load_tables {s s' : PolicyStore} {document : Json} (h : s.load rx document = some s') :
    validate rx document = true ∧
      (∃ n, Catalog.load (prefixListKind AFI_IP) (sectionsOf (wantedV4 document)) s.v4 =
        some (s'.v4, n)) ∧
      (∃ n, Catalog.load (prefixListKind AFI_IP6) (sectionsOf (wantedV6 document)) s.v6 =
        some (s'.v6, n)) ∧
      (∃ n, Catalog.load (asPathKind rx) (sectionsOf (wantedAsPaths document)) s.asPaths =
        some (s'.asPaths, n)) ∧
      (∃ n, Catalog.load (routeMapKind rx) (sectionsOf (wantedMaps document)) s.maps =
        some (s'.maps, n)) := by
  unfold load at h
  split at h
  · exact absurd h (by simp)
  · rename_i hvalid
    simp only [Option.bind_eq_bind, Option.bind_eq_some_iff] at h
    obtain ⟨v4, hv4, v6, hv6, asPaths, has, maps, hmaps, hs⟩ := h
    cases hs
    exact ⟨by simpa using hvalid, ⟨v4.2, hv4⟩, ⟨v6.2, hv6⟩, ⟨asPaths.2, has⟩, ⟨maps.2, hmaps⟩⟩

theorem fillFrom_evolves {A B : Type} {read : Json → Nat → Option B}
    {add : A → B → Option A} {clear : A → A} {version : A → Nat}
    (hadd : ∀ a b a', add a b = some a' → version a' = version a + 1)
    (hle : ∀ a, version a ≤ version (clear a))
    (hsame : ∀ a, version (clear a) = version a → clear a = a) {sec : Json} {a a' : A}
    (h : fillFrom read add sec (clear a) = some a') : Catalog.Evolves version a a' := by
  unfold fillFrom at h
  simp only [Option.bind_eq_some_iff] at h
  obtain ⟨_, _, _, _, hfill⟩ := h
  exact Catalog.evolves_refill hadd hle hsame hfill

theorem prefixList_evolves (afi : Nat) {sec : Json} {l l' : PrefixList}
    (h : (prefixListKind afi).fill sec ((prefixListKind afi).clear l) = some l') :
    Catalog.Evolves PrefixList.version l l' := by
  refine fillFrom_evolves ?_ ?_ ?_ h
  · intro a b a' hadd
    unfold PrefixList.add at hadd
    split at hadd
    · exact absurd hadd (by simp)
    · cases hadd
      rfl
  · intro a
    change a.version ≤ a.clear.version
    unfold PrefixList.clear
    dsimp only
    split <;> omega
  · intro a heq
    have hnil : a.entries = [] := by
      by_contra hne
      change a.clear.version = a.version at heq
      simp [PrefixList.clear, hne] at heq
    refine @PrefixList.ext' a.clear a rfl heq hnil.symm ?_
    refine (Dict.eq_empty_of_forall fun p => ?_).symm
    rw [a.filed, hnil]
    rfl

theorem asPathList_evolves {sec : Json} {l l' : AsPathList}
    (h : (asPathKind rx).fill sec ((asPathKind rx).clear l) = some l') :
    Catalog.Evolves AsPathList.version l l' := by
  refine fillFrom_evolves ?_ ?_ ?_ h
  · intro a b a' hadd
    cases hadd
    rfl
  · intro a
    change a.version ≤ a.clear.version
    unfold AsPathList.clear
    dsimp only
    split <;> omega
  · intro a heq
    obtain ⟨version, entries⟩ := a
    cases entries with
    | nil => rfl
    | cons e rest =>
      change (AsPathList.clear ⟨version, e :: rest⟩).version = version at heq
      simp [AsPathList.clear] at heq

theorem routeMap_evolves {sec : Json} {m m' : RouteMap}
    (h : (routeMapKind rx).fill sec ((routeMapKind rx).clear m) = some m') :
    Catalog.Evolves RouteMap.version m m' := by
  refine fillFrom_evolves ?_ ?_ ?_ h
  · intro a b a' hadd
    cases hadd
    rfl
  · intro a
    change a.version ≤ a.clear.version
    unfold RouteMap.clear
    dsimp only
    split <;> omega
  · intro a heq
    obtain ⟨version, clauses⟩ := a
    cases clauses with
    | nil => rfl
    | cons c rest =>
      change (RouteMap.clear ⟨version, c :: rest⟩).version = version at heq
      simp [RouteMap.clear] at heq

/-- A map refilled under the version it had refers to nothing. -/
theorem references_refilled {sec : Json} {m m' : RouteMap}
    (h : (routeMapKind rx).fill sec ((routeMapKind rx).clear m) = some m')
    (hversion : m'.version = m.version) : m.references = [] := by
  change fillFrom _ _ sec m.clear = some m' at h
  unfold fillFrom at h
  simp only [Option.bind_eq_some_iff] at h
  obtain ⟨_, _, entries, _, hfill⟩ := h
  have hcount := Catalog.version_foldlM RouteMap.version (by
    intro a b a' hadd
    cases hadd
    rfl) hfill
  obtain ⟨version, clauses⟩ := m
  cases clauses with
  | nil => rfl
  | cons c rest =>
    simp only [RouteMap.clear, List.isEmpty_cons, Bool.false_eq_true, ↓reduceIte] at hcount
    simp only at hversion
    omega

/-- One kind of object of the store. -/
structure Part (rx : RegexEngine) (A : Type) where
  kind : Catalog.Kind Json Frozen A
  table : PolicyStore → Catalog.Table String Frozen A
  wanted : Json → Json
  version : A → Nat
  loads : ∀ {s s' document}, load rx s document = some s' →
    ∃ n, Catalog.load kind (sectionsOf (wanted document)) (table s) = some (table s', n)
  refills : ∀ {sec a a'}, kind.fill sec (kind.clear a) = some a' → Catalog.Evolves version a a'

def v4Part (rx : RegexEngine) : Part rx PrefixList where
  kind := prefixListKind AFI_IP
  table := PolicyStore.v4
  wanted := wantedV4
  version := PrefixList.version
  loads h := (load_tables h).2.1
  refills h := prefixList_evolves AFI_IP h

def v6Part (rx : RegexEngine) : Part rx PrefixList where
  kind := prefixListKind AFI_IP6
  table := PolicyStore.v6
  wanted := wantedV6
  version := PrefixList.version
  loads h := (load_tables h).2.2.1
  refills h := prefixList_evolves AFI_IP6 h

def asPathPart (rx : RegexEngine) : Part rx AsPathList where
  kind := asPathKind rx
  table := PolicyStore.asPaths
  wanted := wantedAsPaths
  version := AsPathList.version
  loads h := (load_tables h).2.2.2.1
  refills h := asPathList_evolves h

def routeMapPart (rx : RegexEngine) : Part rx RouteMap where
  kind := routeMapKind rx
  table := PolicyStore.maps
  wanted := wantedMaps
  version := RouteMap.version
  loads h := (load_tables h).2.2.2.2
  refills h := routeMap_evolves h

namespace Part

variable {A : Type} (p : Part rx A)

/-- The object of a name now. -/
def get? (s : PolicyStore) (name : String) : Option A := (p.table s).get? name

/-- Whether a document defines a name. -/
def Defines (document : Json) (name : String) : Prop :=
  ∃ sec, (sectionsOf (p.wanted document)).get? name = some sec

/-- The store holds an object and the document's section for it is the one the
object was built from. -/
def Unchanged (s : PolicyStore) (document : Json) (name : String) : Prop :=
  ∃ a sec, p.get? s name = some a ∧ (sectionsOf (p.wanted document)).get? name = some sec ∧
    (p.table s).snapshots.get? name = some (p.kind.freeze sec)

variable {p}

/-- An object that appears is one the document defines. -/
theorem defines_of_appears {s : PolicyStore} {document : Json} {name : String}
    (hnone : p.get? s name = none) (hsome : (p.get? (step rx s document) name).isSome) :
    p.Defines document name := by
  unfold step at hsome
  cases hload : s.load rx document with
  | none =>
    rw [hload, Option.getD_none, hnone] at hsome
    exact absurd hsome (by simp)
  | some s' =>
    rw [hload, Option.getD_some] at hsome
    obtain ⟨n, hn⟩ := p.loads hload
    cases hsec : (sectionsOf (p.wanted document)).get? name with
    | none =>
      rw [get?, (Catalog.load_spec hn).2 name hsec] at hsome
      exact absurd hsome (by simp)
    | some sec => exact ⟨sec, hsec⟩

theorem step_evolves {s : PolicyStore} {document : Json} {name : String} {a a' : A}
    (ha : p.get? s name = some a) (ha' : p.get? (step rx s document) name = some a') :
    Catalog.Evolves p.version a a' := by
  unfold step at ha'
  cases hload : s.load rx document with
  | none =>
    rw [hload, Option.getD_none, ha] at ha'
    cases ha'
    exact Catalog.Evolves.refl p.version a
  | some s' =>
    rw [hload, Option.getD_some] at ha'
    obtain ⟨n, hn⟩ := p.loads hload
    exact Catalog.load_evolves (fun _ _ _ => p.refills) hn ha ha'

/-- An unchanged section leaves its object alone. -/
theorem Unchanged.get?_step {s : PolicyStore} {document : Json} {name : String}
    (h : p.Unchanged s document name) : p.get? (step rx s document) name = p.get? s name := by
  obtain ⟨a, sec, ha, hsec, hsnap⟩ := h
  unfold step
  cases hload : s.load rx document with
  | none => rfl
  | some s' =>
    obtain ⟨n, hn⟩ := p.loads hload
    obtain ⟨⟨b, hb, hobj⟩, -⟩ := (Catalog.load_spec hn).1 name sec hsec
    rw [get?] at ha
    rw [ha, hsnap, Catalog.refreshed, if_pos rfl, Option.some.injEq] at hb
    rw [Option.getD_some, get?, get?, hobj, ha, hb]

variable (p)

/-- No document of a history defines a name again that an earlier one removed. -/
def Unrevived (documents : List Json) : Prop :=
  ∀ earlier later document after, documents = earlier ++ later ++ document :: after →
    ∀ name, (p.get? (run rx new earlier) name).isSome → p.Defines document name →
      (p.get? (run rx new (earlier ++ later)) name).isSome

variable {p}

/-- An object held at two moments is held at every moment between them. -/
theorem Unrevived.between {documents : List Json} (h : p.Unrevived documents) {name : String}
    (first between last after : List Json) (hdocs : documents = first ++ between ++ last ++ after)
    (hfirst : (p.get? (run rx new first) name).isSome)
    (hlast : (p.get? (run rx new (first ++ between ++ last)) name).isSome) :
    (p.get? (run rx new (first ++ between)) name).isSome := by
  induction last using List.reverseRecOn generalizing after with
  | nil => simpa using hlast
  | append_singleton last document ih =>
    have hsplit : documents = first ++ (between ++ last) ++ document :: after := by simp [hdocs]
    by_cases hheld : (p.get? (run rx new (first ++ between ++ last)) name).isSome
    · exact ih (document :: after) (by simp [hdocs]) hheld
    · rw [← List.append_assoc, run_snoc] at hlast
      have hnone := Option.not_isSome_iff_eq_none.mp hheld
      have hdef := defines_of_appears hnone hlast
      have hthere := h first (between ++ last) document after hsplit name hfirst hdef
      rw [← List.append_assoc] at hthere
      exact absurd hthere hheld

/-- Between two moments at which an object is held its version line continues. -/
theorem Unrevived.evolves {documents : List Json} (h : p.Unrevived documents) {name : String}
    {a a' : A} (first between after : List Json) (hdocs : documents = first ++ between ++ after)
    (ha : p.get? (run rx new first) name = some a)
    (ha' : p.get? (run rx new (first ++ between)) name = some a') :
    Catalog.Evolves p.version a a' := by
  induction between using List.reverseRecOn generalizing after a' with
  | nil =>
    rw [List.append_nil, ha, Option.some.injEq] at ha'
    rw [ha']
    exact Catalog.Evolves.refl p.version a'
  | append_singleton between document ih =>
    have hheld : (p.get? (run rx new (first ++ between)) name).isSome := by
      refine h.between first between [document] after (by simp [hdocs]) ?_ ?_
      · rw [ha]
        rfl
      · rw [List.append_assoc, ha']
        rfl
    obtain ⟨mid, hmid⟩ := Option.isSome_iff_exists.mp hheld
    have hline := ih (document :: after) (by simp [hdocs]) hmid
    rw [← List.append_assoc, run_snoc] at ha'
    exact hline.trans (step_evolves hmid ha')

/-- Two moments at which a name cites one version hold one object. -/
theorem Unrevived.eq_of_version_eq {documents : List Json} (h : p.Unrevived documents)
    {name : String} (first between after : List Json)
    (hdocs : documents = first ++ between ++ after)
    (hversion : (p.get? (run rx new first) name).map p.version =
      (p.get? (run rx new (first ++ between)) name).map p.version) :
    p.get? (run rx new (first ++ between)) name = p.get? (run rx new first) name := by
  cases ha : p.get? (run rx new first) name with
  | none =>
    rw [ha, Option.map_none] at hversion
    exact Option.map_eq_none_iff.mp hversion.symm
  | some a =>
    rw [ha, Option.map_some] at hversion
    obtain ⟨a', ha', heq⟩ := Option.map_eq_some_iff.mp hversion.symm
    rw [ha', (h.evolves first between after hdocs ha ha').2 heq.symm]

end Part

end PolicyStore

end Packets
