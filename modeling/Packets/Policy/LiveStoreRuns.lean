/-
Runs of the live policy store.

At every moment the store answers as one only given the last accepted document; what a load
does to an object is decided by its section alone.
-/
import Packets.Policy.LiveStore

namespace Packets

inductive PolicyObject where
  | prefixList (l : Live PrefixList)
  | asPath (l : Live AsPathList)
  | routeMap (m : Live RouteMap)

/-- What an object filters by: the entries or clauses it goes through in order. -/
inductive Rules where
  | prefixList (entries : List PrefixListEntry)
  | asPath (entries : List AsPathListEntry)
  | routeMap (clauses : List RouteMapClause)

namespace PolicyObject

def born : PolicyObject → Nat
  | .prefixList l => l.born
  | .asPath l => l.born
  | .routeMap m => m.born

def version : PolicyObject → Nat
  | .prefixList l => l.state.version
  | .asPath l => l.state.version
  | .routeMap m => m.state.version

def rules : PolicyObject → Rules
  | .prefixList l => .prefixList l.state.entries
  | .asPath l => .asPath l.state.entries
  | .routeMap m => .routeMap m.state.clauses

end PolicyObject

namespace PolicyStore

/-- `prefix_list` without a family: the IPv4 list of a name, else the IPv6 one. -/
def prefixListAny (s : PolicyStore) (name : String) : Option PrefixList :=
  match s.v4.get? name with
  | some l => some l
  | none => s.v6.get? name

theorem prefixListAny_eq (s : PolicyStore) (name : String) :
    s.prefixListAny name = (s.prefixList name AFI_IP).or (s.prefixList name AFI_IP6) := by
  change (match s.v4.get? name with | some l => some l | none => s.v6.get? name) =
    (s.v4.get? name).or (s.v6.get? name)
  cases s.v4.get? name <;> rfl

/-- Two stores that give every query the same answer. -/
structure AnswersAs (rx : RegexEngine) (s t : PolicyStore) : Prop where
  prefixList : ∀ name afi p, (s.prefixList name afi).map (·.evaluate p) =
    (t.prefixList name afi).map (·.evaluate p)
  prefixListAny : ∀ name p, (s.prefixListAny name).map (·.evaluate p) =
    (t.prefixListAny name).map (·.evaluate p)
  asPathList : ∀ name path, (s.asPathList name).map (·.evaluate rx path) =
    (t.asPathList name).map (·.evaluate rx path)
  routeMap : ∀ name pfx attrs,
    (s.routeMap name).map (fun m => m.apply rx s.resolver pfx attrs) =
      (t.routeMap name).map (fun m => m.apply rx t.resolver pfx attrs)

end PolicyStore

namespace LiveStore

open PolicyStore (wantedV4 wantedV6 wantedAsPaths wantedMaps validate AnswersAs)

def object (s : LiveStore) (kind : PolicyKind) (name : String) : Option PolicyObject :=
  match kind with
  | .prefixList => (s.v4.get? name).map .prefixList
  | .ipv6PrefixList => (s.v6.get? name).map .prefixList
  | .asPath => (s.asPaths.get? name).map .asPath
  | .routeMap => (s.maps.get? name).map .routeMap

/-- The section of an object in a document. -/
def sectionOf (document : Json) (kind : PolicyKind) (name : String) : Option Json :=
  match kind with
  | .prefixList => (sectionsOf (wantedV4 document)).get? name
  | .ipv6PrefixList => (sectionsOf (wantedV6 document)).get? name
  | .asPath => (sectionsOf (wantedAsPaths document)).get? name
  | .routeMap => (sectionsOf (wantedMaps document)).get? name

/-- Two documents give an object the same section, the order of keys apart. -/
def SectionUnchanged (document document' : Json) (kind : PolicyKind) (name : String) :
    Prop :=
  ∃ sec sec', sectionOf document kind name = some sec ∧
    sectionOf document' kind name = some sec' ∧ freeze sec = freeze sec'

inductive Event where
  | load (document : Json)
  | count (kind : PolicyKind) (name : String) (c : Count)

def count (s : LiveStore) (kind : PolicyKind) (name : String) (c : Count) : LiveStore :=
  match kind with
  | .prefixList => { s with v4 := countIn name c s.v4 }
  | .ipv6PrefixList => { s with v6 := countIn name c s.v6 }
  | .asPath => { s with asPaths := countIn name c s.asPaths }
  | .routeMap => { s with maps := countIn name c s.maps }

/-- One event.  What a torn load would leave is not told: no load of a run is torn. -/
def step (rx : RegexEngine) (s : LiveStore) : Event → LiveStore
  | .load document =>
    match s.load rx document with
    | .done s' _ => s'
    | .refused => s
    | .torn => s
  | .count kind name c => s.count kind name c

def run (rx : RegexEngine) (s : LiveStore) (events : List Event) : LiveStore :=
  events.foldl (step rx) s

/-- The document a history leaves in force: the last one that validates, `null` when
there is none. -/
def accepted (rx : RegexEngine) (document : Json) : Event → Json
  | .load document' => if validate rx document' then document' else document
  | .count .. => document

def lastAccepted (rx : RegexEngine) (events : List Event) : Json := events.foldl (accepted rx) .null

variable {rx : RegexEngine}

/-- The store holds what a document says. -/
structure Holding (rx : RegexEngine) (s : LiveStore) (document : Json) : Prop where
  v4 : (prefixListRules AFI_IP).Holds (sectionsOf (wantedV4 document)) s.v4
  v6 : (prefixListRules AFI_IP6).Holds (sectionsOf (wantedV6 document)) s.v6
  asPaths : (asPathRules rx).Holds (sectionsOf (wantedAsPaths document)) s.asPaths
  maps : (routeMapRules rx).Holds (sectionsOf (wantedMaps document)) s.maps

/-- `validate` accepts exactly what the mutating pass will read. -/
structure Accepting (rx : RegexEngine) (document : Json) : Prop where
  v4 : (prefixListRules AFI_IP).Accepts (sectionsOf (wantedV4 document))
  v6 : (prefixListRules AFI_IP6).Accepts (sectionsOf (wantedV6 document))
  asPaths : (asPathRules rx).Accepts (sectionsOf (wantedAsPaths document))
  maps : (routeMapRules rx).Accepts (sectionsOf (wantedMaps document))

theorem accepts_of_validateKind {A B : Type} {p : RuleKind A B} {sections : Json}
    (h : PolicyStore.validateKind p.kind sections = true) : p.Accepts (sectionsOf sections) := by
  simp only [PolicyStore.validateKind, Bool.and_eq_true, List.all_eq_true] at h
  intro name sec hsec
  have hentry := h.2 (name, sec) (Dict.mem_entries_iff.mpr hsec)
  exact hentry.2

theorem accepting_of_validate {document : Json} (h : validate rx document = true) :
    Accepting rx document := by
  simp only [validate, Bool.and_eq_true] at h
  obtain ⟨⟨⟨⟨⟨-, h4⟩, h6⟩, ha⟩, hm⟩, -⟩ := h
  exact ⟨accepts_of_validateKind h4, accepts_of_validateKind h6, accepts_of_validateKind ha,
    accepts_of_validateKind hm⟩

theorem validate_null : validate rx .null = true := rfl

theorem holding_new : Holding rx new .null where
  v4 := RuleKind.Holds.empty
  v6 := RuleKind.Holds.empty
  asPaths := RuleKind.Holds.empty
  maps := RuleKind.Holds.empty

theorem load_refused {s : LiveStore} {document : Json}
    (h : validate rx document = false) : s.load rx document = .refused := by
  rw [load, h]
  rfl

namespace Holding

variable {s s' : LiveStore} {document document' : Json}

/-- A load of an accepted document is done. -/
theorem load_done (h : Holding rx s document) (hvalid : validate rx document' = true) :
    ∃ s' changed, s.load rx document' = .done s' changed := by
  have haccept := accepting_of_validate hvalid
  obtain ⟨⟨v4, n4⟩, h4⟩ := Option.isSome_iff_exists.mp (h.v4.load_isSome s.loads haccept.v4)
  obtain ⟨⟨v6, n6⟩, h6⟩ := Option.isSome_iff_exists.mp (h.v6.load_isSome s.loads haccept.v6)
  obtain ⟨⟨asPaths, na⟩, ha⟩ := Option.isSome_iff_exists.mp
    (h.asPaths.load_isSome s.loads haccept.asPaths)
  obtain ⟨⟨maps, nm⟩, hm⟩ := Option.isSome_iff_exists.mp (h.maps.load_isSome s.loads haccept.maps)
  rw [load, hvalid, commit, h4, h6, ha, hm]
  exact ⟨_, _, rfl⟩

theorem load (h : Holding rx s document) {changed : Nat}
    (hload : s.load rx document' = .done s' changed) : Holding rx s' document' := by
  obtain ⟨hvalid, hcommit⟩ := load_eq_done hload
  obtain ⟨n4, n6, na, nm, h4, h6, ha, hm, -⟩ := commit_spec hcommit
  have haccept := accepting_of_validate hvalid
  exact ⟨h.v4.load haccept.v4 h4, h.v6.load haccept.v6 h6,
    h.asPaths.load haccept.asPaths ha, h.maps.load haccept.maps hm⟩

theorem count (h : Holding rx s document) (kind : PolicyKind) (name : String) (c : Count) :
    Holding rx (s.count kind name c) document := by
  cases kind with
  | prefixList => exact { h with v4 := h.v4.countIn name c }
  | ipv6PrefixList => exact { h with v6 := h.v6.countIn name c }
  | asPath => exact { h with asPaths := h.asPaths.countIn name c }
  | routeMap => exact { h with maps := h.maps.countIn name c }

theorem step (h : Holding rx s document) (e : Event) :
    Holding rx (s.step rx e) (accepted rx document e) := by
  cases e with
  | count kind name c => exact h.count kind name c
  | load document' =>
    rw [accepted]
    by_cases hvalid : validate rx document' = true
    · obtain ⟨s', changed, hload⟩ := h.load_done hvalid
      rw [if_pos hvalid, LiveStore.step, hload]
      exact h.load hload
    · rw [if_neg hvalid, LiveStore.step, load_refused (Bool.not_eq_true _ ▸ hvalid)]
      exact h

theorem run (h : Holding rx s document) (events : List Event) :
    Holding rx (s.run rx events) (events.foldl (accepted rx) document) := by
  induction events generalizing s document with
  | nil => exact h
  | cons e rest ih => exact ih (h.step e)

theorem prefixList_evaluate (h : Holding rx s document) (h' : Holding rx s' document)
    (name : String) (afi : Nat) :
    (s.policy.prefixList name afi).map PrefixList.evaluate =
      (s'.policy.prefixList name afi).map PrefixList.evaluate := by
  unfold PolicyStore.prefixList
  split_ifs
  · exact h.v4.view_eq h'.v4 _ (fun hown hown' =>
      PrefixList.evaluate_congr (hown.trans hown'.symm)) name
  · exact h.v6.view_eq h'.v6 _ (fun hown hown' =>
      PrefixList.evaluate_congr (hown.trans hown'.symm)) name
  · rfl

theorem routeMap_clauses (h : Holding rx s document) (h' : Holding rx s' document) (name : String) :
    (s.policy.routeMap name).map RouteMap.clauses =
      (s'.policy.routeMap name).map RouteMap.clauses :=
  h.maps.view_eq h'.maps _ (fun _ _ hrules => hrules) name

/-- What a store holds of a document decides its answers. -/
theorem answersAs (h : Holding rx s document) (h' : Holding rx s' document) :
    AnswersAs rx s.policy s'.policy := by
  have hpfx := h.prefixList_evaluate h'
  have hpath : ∀ name path, (s.policy.asPathList name).map (·.evaluate rx path) =
      (s'.policy.asPathList name).map (·.evaluate rx path) := fun name path =>
    h.asPaths.view_eq h'.asPaths _
      (fun _ _ (hrules : AsPathList.entries _ = AsPathList.entries _) => by
        rw [AsPathList.evaluate, AsPathList.evaluate, hrules]) name
  have hpermits : ∀ name afi p, (s.policy.prefixList name afi).any (·.permits p) =
      (s'.policy.prefixList name afi).any (·.permits p) := by
    intro name afi p
    have hany := congrArg (Option.any fun evaluate => evaluate p == some .permit) (hpfx name afi)
    rwa [Option.any_map, Option.any_map] at hany
  have hpathPermits : ∀ name path, (s.policy.asPathList name).any (·.permits rx path) =
      (s'.policy.asPathList name).any (·.permits rx path) := by
    intro name path
    have hany := congrArg (Option.any fun action => action == some .permit) (hpath name path)
    rwa [Option.any_map, Option.any_map] at hany
  refine ⟨?_, ?_, hpath, ?_⟩
  · intro name afi p
    have happly := congrArg (Option.map fun evaluate => evaluate p) (hpfx name afi)
    rwa [Option.map_map, Option.map_map] at happly
  · intro name p
    have hany : (s.policy.prefixListAny name).map PrefixList.evaluate =
        (s'.policy.prefixListAny name).map PrefixList.evaluate := by
      simp only [PolicyStore.prefixListAny_eq, Option.map_or, hpfx]
    have happly := congrArg (Option.map fun evaluate => evaluate p) hany
    rwa [Option.map_map, Option.map_map] at happly
  · intro name pfx attrs
    have hclauses := h.routeMap_clauses h' name
    cases hm : s.policy.routeMap name with
    | none =>
      rw [hm, Option.map_none] at hclauses
      rw [Option.map_eq_none_iff.mp hclauses.symm]
      rfl
    | some m =>
      rw [hm, Option.map_some] at hclauses
      obtain ⟨m', hm', heq⟩ := Option.map_eq_some_iff.mp hclauses.symm
      rw [hm', Option.map_some, Option.map_some,
        RouteMap.apply_congr rx s.policy.resolver s'.policy.resolver hpermits hpathPermits heq.symm]

/-- Where an object that a load leaves behind comes from. -/
theorem load_continues (h : Holding rx s document) {changed : Nat}
    (hload : s.load rx document' = .done s' changed) {kind : PolicyKind} {name : String}
    {o' : PolicyObject} (ho' : s'.object kind name = some o') :
    (s.object kind name = none ∧ o'.born = s.loads) ∨
      ∃ o, s.object kind name = some o ∧
        (o' = o ∨ (o'.born = o.born ∧ o.version < o'.version)) := by
  obtain ⟨n4, n6, na, nm, h4, h6, ha, hm, -⟩ := commit_spec (load_eq_done hload).2
  cases kind with
  | prefixList =>
    obtain ⟨l', hl', rfl⟩ := Option.map_eq_some_iff.mp ho'
    rcases h.v4.continues h4 hl' with ⟨hnone, hborn⟩ | ⟨l, hl, hcases⟩
    · exact Or.inl ⟨by rw [object, hnone]; rfl, hborn⟩
    · exact Or.inr ⟨.prefixList l, by rw [object, hl]; rfl,
        hcases.imp_left (congrArg PolicyObject.prefixList)⟩
  | ipv6PrefixList =>
    obtain ⟨l', hl', rfl⟩ := Option.map_eq_some_iff.mp ho'
    rcases h.v6.continues h6 hl' with ⟨hnone, hborn⟩ | ⟨l, hl, hcases⟩
    · exact Or.inl ⟨by rw [object, hnone]; rfl, hborn⟩
    · exact Or.inr ⟨.prefixList l, by rw [object, hl]; rfl,
        hcases.imp_left (congrArg PolicyObject.prefixList)⟩
  | asPath =>
    obtain ⟨l', hl', rfl⟩ := Option.map_eq_some_iff.mp ho'
    rcases h.asPaths.continues ha hl' with ⟨hnone, hborn⟩ | ⟨l, hl, hcases⟩
    · exact Or.inl ⟨by rw [object, hnone]; rfl, hborn⟩
    · exact Or.inr ⟨.asPath l, by rw [object, hl]; rfl,
        hcases.imp_left (congrArg PolicyObject.asPath)⟩
  | routeMap =>
    obtain ⟨m', hm', rfl⟩ := Option.map_eq_some_iff.mp ho'
    rcases h.maps.continues hm hm' with ⟨hnone, hborn⟩ | ⟨m, hm, hcases⟩
    · exact Or.inl ⟨by rw [object, hnone]; rfl, hborn⟩
    · exact Or.inr ⟨.routeMap m, by rw [object, hm]; rfl,
        hcases.imp_left (congrArg PolicyObject.routeMap)⟩

theorem load_unchanged (h : Holding rx s document) {changed : Nat}
    (hload : s.load rx document' = .done s' changed) {kind : PolicyKind} {name : String}
    (hsame : SectionUnchanged document document' kind name) :
    s'.object kind name = s.object kind name := by
  obtain ⟨n4, n6, na, nm, h4, h6, ha, hm, -⟩ := commit_spec (load_eq_done hload).2
  obtain ⟨sec, sec', hsec, hsec', hfreeze⟩ := hsame
  cases kind with
  | prefixList => exact congrArg (Option.map _) (h.v4.unchanged h4 hsec hsec' hfreeze)
  | ipv6PrefixList => exact congrArg (Option.map _) (h.v6.unchanged h6 hsec hsec' hfreeze)
  | asPath => exact congrArg (Option.map _) (h.asPaths.unchanged ha hsec hsec' hfreeze)
  | routeMap => exact congrArg (Option.map _) (h.maps.unchanged hm hsec hsec' hfreeze)

/-- A load counts a change exactly when some object differs. -/
theorem load_counts_iff (h : Holding rx s document) {changed : Nat}
    (hload : s.load rx document' = .done s' changed) :
    changed ≠ 0 ↔ ∃ kind name, s'.object kind name ≠ s.object kind name := by
  obtain ⟨n4, n6, na, nm, h4, h6, ha, hm, hchanged, -⟩ := commit_spec (load_eq_done hload).2
  have c4 := h.v4.load_counts_iff h4
  have c6 := h.v6.load_counts_iff h6
  have ca := h.asPaths.load_counts_iff ha
  have cm := h.maps.load_counts_iff hm
  have hwrap : ∀ {A : Type} {wrap : A → PolicyObject} (_ : Function.Injective wrap)
      {x y : Option A}, x.map wrap ≠ y.map wrap ↔ x ≠ y := fun hinj =>
    not_congr (Option.map_injective hinj).eq_iff
  have w4 : Function.Injective PolicyObject.prefixList := fun _ _ h => by simpa using h
  have wa : Function.Injective PolicyObject.asPath := fun _ _ h => by simpa using h
  have wm : Function.Injective PolicyObject.routeMap := fun _ _ h => by simpa using h
  have hsum : changed ≠ 0 ↔ n4 ≠ 0 ∨ n6 ≠ 0 ∨ na ≠ 0 ∨ nm ≠ 0 := by omega
  rw [hsum, c4, c6, ca, cm]
  constructor
  · rintro (⟨name, hne⟩ | ⟨name, hne⟩ | ⟨name, hne⟩ | ⟨name, hne⟩)
    · exact ⟨.prefixList, name, (hwrap w4).mpr hne⟩
    · exact ⟨.ipv6PrefixList, name, (hwrap w4).mpr hne⟩
    · exact ⟨.asPath, name, (hwrap wa).mpr hne⟩
    · exact ⟨.routeMap, name, (hwrap wm).mpr hne⟩
  · rintro ⟨kind, name, hne⟩
    cases kind with
    | prefixList => exact Or.inl ⟨name, (hwrap w4).mp hne⟩
    | ipv6PrefixList => exact Or.inr (Or.inl ⟨name, (hwrap w4).mp hne⟩)
    | asPath => exact Or.inr (Or.inr (Or.inl ⟨name, (hwrap wa).mp hne⟩))
    | routeMap => exact Or.inr (Or.inr (Or.inr ⟨name, (hwrap wm).mp hne⟩))

/-- Counting leaves every object with its identity and its version. -/
theorem count_continues {kind kind' : PolicyKind} {name name' : String} {c : Count}
    {o' : PolicyObject} (ho' : (s.count kind' name' c).object kind name = some o') :
    ∃ o, s.object kind name = some o ∧ o'.born = o.born ∧ o.version = o'.version := by
  have hline : ∀ {A : Type} {t t' : Catalog.Table String Frozen (Live A)},
      (t' = t ∨ t' = Packets.countIn name' c t) → ∀ {o' : Live A}, t'.get? name = some o' →
        ∃ o, t.get? name = some o ∧ o'.state = o.state ∧ o'.born = o.born := by
    rintro A t t' (rfl | rfl) o' h
    · exact ⟨o', h, rfl, rfl⟩
    · exact countIn_spec h
  cases kind with
  | prefixList =>
    obtain ⟨l', hl', rfl⟩ := Option.map_eq_some_iff.mp ho'
    obtain ⟨l, hl, hstate, hborn⟩ := hline (t := s.v4) (by
      cases kind' <;> first | exact Or.inl rfl | exact Or.inr rfl) hl'
    exact ⟨.prefixList l, by rw [object, hl]; rfl, hborn, (congrArg PrefixList.version hstate).symm⟩
  | ipv6PrefixList =>
    obtain ⟨l', hl', rfl⟩ := Option.map_eq_some_iff.mp ho'
    obtain ⟨l, hl, hstate, hborn⟩ := hline (t := s.v6) (by
      cases kind' <;> first | exact Or.inl rfl | exact Or.inr rfl) hl'
    exact ⟨.prefixList l, by rw [object, hl]; rfl, hborn, (congrArg PrefixList.version hstate).symm⟩
  | asPath =>
    obtain ⟨l', hl', rfl⟩ := Option.map_eq_some_iff.mp ho'
    obtain ⟨l, hl, hstate, hborn⟩ := hline (t := s.asPaths) (by
      cases kind' <;> first | exact Or.inl rfl | exact Or.inr rfl) hl'
    exact ⟨.asPath l, by rw [object, hl]; rfl, hborn, (congrArg AsPathList.version hstate).symm⟩
  | routeMap =>
    obtain ⟨m', hm', rfl⟩ := Option.map_eq_some_iff.mp ho'
    obtain ⟨m, hm, hstate, hborn⟩ := hline (t := s.maps) (by
      cases kind' <;> first | exact Or.inl rfl | exact Or.inr rfl) hm'
    exact ⟨.routeMap m, by rw [object, hm]; rfl, hborn, (congrArg RouteMap.version hstate).symm⟩

/-- Where an object that a step leaves behind comes from. -/
theorem step_continues (h : Holding rx s document) (e : Event) {kind : PolicyKind}
    {name : String} {o' : PolicyObject} (ho' : (s.step rx e).object kind name = some o') :
    (o'.born = s.loads ∧ (s.step rx e).loads = s.loads + 1) ∨
      ∃ o, s.object kind name = some o ∧ o'.born = o.born ∧ o.version ≤ o'.version := by
  cases e with
  | load document' =>
    cases hload : s.load rx document' with
    | refused =>
      rw [LiveStore.step, hload] at ho'
      exact Or.inr ⟨o', ho', rfl, Nat.le_refl _⟩
    | torn =>
      rw [LiveStore.step, hload] at ho'
      exact Or.inr ⟨o', ho', rfl, Nat.le_refl _⟩
    | done s' changed =>
      obtain ⟨-, -, -, -, -, -, -, -, -, -, hloads, -⟩ := commit_spec (load_eq_done hload).2
      simp only [LiveStore.step, hload] at ho' ⊢
      rcases h.load_continues hload ho' with ⟨-, hborn⟩ | ⟨o, ho, rfl | ⟨hborn, hlt⟩⟩
      · exact Or.inl ⟨hborn, hloads⟩
      · exact Or.inr ⟨o', ho, rfl, Nat.le_refl _⟩
      · exact Or.inr ⟨o, ho, hborn, Nat.le_of_lt hlt⟩
  | count kind' name' c =>
    obtain ⟨o, ho, hborn, hversion⟩ := count_continues ho'
    exact Or.inr ⟨o, ho, hborn, Nat.le_of_eq hversion⟩

theorem loads_le_step (s : LiveStore) (rx : RegexEngine) (e : Event) :
    s.loads ≤ (s.step rx e).loads := by
  cases e with
  | load document' =>
    rw [LiveStore.step]
    cases hload : s.load rx document' with
    | refused => exact Nat.le_refl _
    | torn => exact Nat.le_refl _
    | done s' changed =>
      obtain ⟨-, -, -, -, -, -, -, -, -, -, hloads, -⟩ := commit_spec (load_eq_done hload).2
      simp only [hloads]
      omega
  | count kind name c => cases kind <;> exact Nat.le_refl _

/-- Every object was born in a load that is over. -/
def BornBefore (s : LiveStore) : Prop :=
  ∀ kind name o, s.object kind name = some o → o.born < s.loads

theorem BornBefore.run (h : Holding rx s document) (hborn : BornBefore s)
    (events : List Event) : BornBefore (s.run rx events) := by
  induction events generalizing s document with
  | nil => exact hborn
  | cons e rest ih =>
    apply ih (h.step e)
    intro kind name o' ho'
    rcases h.step_continues e ho' with ⟨heq, hloads⟩ | ⟨o, ho, heq, -⟩
    · omega
    · have hlt := hborn kind name o ho
      have hle := loads_le_step s rx e
      omega

/-- An object found after a run was born in it, or is one that was there before, at no
smaller a version. -/
theorem run_continues (h : Holding rx s document) (events : List Event) {kind : PolicyKind}
    {name : String} {o' : PolicyObject} (ho' : (s.run rx events).object kind name = some o') :
    s.loads ≤ o'.born ∨
      ∃ o, s.object kind name = some o ∧ o'.born = o.born ∧ o.version ≤ o'.version := by
  induction events generalizing s document with
  | nil => exact Or.inr ⟨o', ho', rfl, Nat.le_refl _⟩
  | cons e rest ih =>
    rcases ih (h.step e) ho' with hborn | ⟨mid, hmid, hborn, hversion⟩
    · exact Or.inl (Nat.le_trans (loads_le_step s rx e) hborn)
    · rcases h.step_continues e hmid with ⟨heq, -⟩ | ⟨o, ho, heq, hle⟩
      · exact Or.inl (by omega)
      · exact Or.inr ⟨o, ho, hborn.trans heq, Nat.le_trans hle hversion⟩

end Holding

theorem run_append (rx : RegexEngine) (s : LiveStore) (before after : List Event) :
    s.run rx (before ++ after) = (s.run rx before).run rx after :=
  List.foldl_append

theorem holding_run (rx : RegexEngine) (events : List Event) :
    Holding rx (new.run rx events) (lastAccepted rx events) :=
  holding_new.run events

theorem bornBefore_run (rx : RegexEngine) (events : List Event) :
    Holding.BornBefore (new.run rx events) :=
  Holding.BornBefore.run holding_new (fun kind _ _ ho => by cases kind <;> cases ho) events

/-- An object whose rules changed has a version that it never had before. -/
theorem version_fresh {events : List Event} {document : Json} {s' : LiveStore} {changed : Nat}
    (hload : (new.run rx events).load rx document = .done s' changed) {kind : PolicyKind}
    {name : String} {o o' : PolicyObject} (ho : (new.run rx events).object kind name = some o)
    (ho' : s'.object kind name = some o') (hrules : o'.rules ≠ o.rules)
    {earlier later : List Event} (hevents : events = earlier ++ later) {x : PolicyObject}
    (hx : (new.run rx earlier).object kind name = some x) (hborn : x.born = o.born) :
    x.version < o'.version := by
  have hlt : o.version < o'.version := by
    rcases (holding_run rx events).load_continues hload ho' with ⟨hnone, -⟩ |
      ⟨old, hold, rfl | ⟨-, hlt⟩⟩
    · rw [ho] at hnone
      exact absurd hnone (by simp)
    · rw [ho, Option.some.injEq] at hold
      exact absurd (congrArg PolicyObject.rules hold.symm) hrules
    · rw [ho, Option.some.injEq] at hold
      rwa [hold]
  rw [hevents, run_append] at ho
  rcases (holding_run rx earlier).run_continues later ho with hnew | ⟨old, hold, -, hle⟩
  · have hxborn := bornBefore_run rx earlier kind name x hx
    omega
  · rw [hx, Option.some.injEq] at hold
    rw [hold]
    exact Nat.lt_of_le_of_lt hle hlt

/-- Loads, with evaluations between, answer as a fresh load of the last accepted document.  The
next load raises exactly when `validate` refuses, and then leaves the store as it was; otherwise
what did not change is left whole, what did is the same object at a version it never had, and
the revision moves exactly when some object differs. -/
theorem run_load (rx : RegexEngine) (events : List Event) :
    (∃ fresh changed, new.load rx (lastAccepted rx events) = .done fresh changed ∧
      AnswersAs rx (new.run rx events).policy fresh.policy) ∧
    ∀ document,
      (validate rx document = false → (new.run rx events).load rx document = .refused ∧
        new.run rx (events ++ [.load document]) = new.run rx events) ∧
      (validate rx document = true → ∃ s' changed,
        (new.run rx events).load rx document = .done s' changed ∧
        (∀ kind name, SectionUnchanged (lastAccepted rx events) document kind name →
          s'.object kind name = (new.run rx events).object kind name) ∧
        (∀ kind name o o', (new.run rx events).object kind name = some o →
          s'.object kind name = some o' → o'.born = o.born ∧
            (o'.rules ≠ o.rules → ∀ earlier later x, events = earlier ++ later →
              (new.run rx earlier).object kind name = some x → x.born = o.born →
                x.version < o'.version)) ∧
        s'.revision = (new.run rx events).revision + (if changed = 0 then 0 else 1) ∧
        (changed ≠ 0 ↔
          ∃ kind name, s'.object kind name ≠ (new.run rx events).object kind name)) := by
  have hholding := holding_run rx events
  constructor
  · have hlast : validate rx (lastAccepted rx events) = true := by
      have hkeep : ∀ (events : List Event) {document : Json}, validate rx document = true →
          validate rx (events.foldl (accepted rx) document) = true := by
        intro events
        induction events with
        | nil => exact fun h => h
        | cons e rest ih =>
          intro document h
          apply ih
          cases e with
          | load document' =>
            rw [accepted]
            split
            · assumption
            · exact h
          | count kind name c => exact h
      exact hkeep events validate_null
    obtain ⟨fresh, changed, hfresh⟩ := holding_new.load_done hlast
    exact ⟨fresh, changed, hfresh, hholding.answersAs (holding_new.load hfresh)⟩
  · intro document
    constructor
    · intro hinvalid
      refine ⟨load_refused hinvalid, ?_⟩
      rw [run_append]
      change (new.run rx events).step rx (.load document) = _
      rw [step, load_refused hinvalid]
    · intro hvalid
      obtain ⟨s', changed, hload⟩ := hholding.load_done hvalid
      refine ⟨s', changed, hload, fun kind name => hholding.load_unchanged hload, ?_, ?_,
        hholding.load_counts_iff hload⟩
      · intro kind name o o' ho ho'
        constructor
        · rcases hholding.load_continues hload ho' with ⟨hnone, -⟩ |
            ⟨old, hold, rfl | ⟨hborn, -⟩⟩
          · rw [ho] at hnone
            exact absurd hnone (by simp)
          · rw [ho, Option.some.injEq] at hold
            rw [hold]
          · rw [ho, Option.some.injEq] at hold
            rw [hold, hborn]
        · intro hrules earlier later x hevents hx hborn
          exact version_fresh hload ho ho' hrules hevents hx hborn
      · obtain ⟨-, -, -, -, -, -, -, -, -, hrevision, -, -⟩ :=
          commit_spec (load_eq_done hload).2
        rw [hrevision]
        split <;> rfl

end LiveStore

end Packets
