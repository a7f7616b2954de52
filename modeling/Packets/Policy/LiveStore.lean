/-
The policy store as the holders of its objects see it.

Each object carries its identity and its counters, and a load tells whether it raised before it
touched the store or half-way.
-/
import Packets.Policy.Readers
import Packets.Policy.StoreHistory

namespace Packets

/-- What the objects of the store count: a list its evaluations and those that found an
entry, a map the routes offered and what became of them. -/
inductive Counter where
  | hits
  | matches
  | applied
  | permitted
  | denied
  | unmatched
deriving DecidableEq

/-- One counter of an object, or the hits of the entry of a seq. -/
inductive Count where
  | object (counter : Counter)
  | entry (seq : Nat)

structure Live (A : Type) where
  /-- The load that created the object, which tells it from every other of its name. -/
  born : Nat
  state : A
  counters : Counter → Nat
  entryHits : Nat → Nat

namespace Live

variable {A : Type}

def new (born : Nat) (a : A) : Live A := ⟨born, a, fun _ => 0, fun _ => 0⟩

/-- Clearing drops the entries with their hits and keeps the counters of the object. -/
def cleared (o : Live A) (a : A) : Live A := { o with state := a, entryHits := fun _ => 0 }

/-- An entry added starts counting anew. -/
def added (o : Live A) (seq : Nat) (a : A) : Live A :=
  { o with state := a, entryHits := Function.update o.entryHits seq 0 }

/-- An evaluation moves some counters, one by one. -/
def count (o : Live A) : Count → Live A
  | .object counter =>
    { o with counters := Function.update o.counters counter (o.counters counter + 1) }
  | .entry seq =>
    { o with entryHits := Function.update o.entryHits seq (o.entryHits seq + 1) }

end Live

/-- A kind of object made of rules in the order of their numbers, perhaps bound to a family,
which decides what they admit. -/
structure RuleKind (A B : Type) where
  kind : Catalog.Kind Json Frozen A
  read : Json → Nat → Option B
  add : A → B → Option A
  seq : B → Nat
  rules : A → List B
  version : A → Nat
  own : A → Prop
  admits : B → Prop
  freeze_eq : kind.freeze = freeze
  fill_eq : kind.fill = fillFrom read add
  faithful : ∀ index, Faithful fun item => read item index
  own_new : own kind.new
  rules_new : rules kind.new = []
  own_clear : ∀ {a}, own a → own (kind.clear a)
  rules_clear : ∀ a, rules (kind.clear a) = []
  version_clear : ∀ a, version (kind.clear a) =
    if (rules a).isEmpty then version a else version a + 1
  add_isSome : ∀ {a b}, own a → ((add a b).isSome ↔ admits b)
  add_some : ∀ {a b a'}, own a → add a b = some a' →
    own a' ∧ rules a' = Sequenced.insert seq b (rules a) ∧ version a' = version a + 1

def prefixListRules (afi : Nat) : RuleKind PrefixList PrefixListEntry where
  kind := prefixListKind afi
  read := prefixListEntryOf
  add := PrefixList.add
  seq := PrefixListEntry.seq
  rules := PrefixList.entries
  version := PrefixList.version
  own l := l.afi = afi
  admits e := e.pfx.afi = afi
  freeze_eq := rfl
  fill_eq := rfl
  faithful := faithful_prefixListEntryOf
  own_new := rfl
  rules_new := rfl
  own_clear h := h
  rules_clear _ := rfl
  version_clear _ := rfl
  add_isSome := by
    rintro a b rfl
    unfold PrefixList.add
    by_cases hafi : b.pfx.afi = a.afi <;> simp [hafi]
  add_some := by
    rintro a b a' rfl h
    simp only [PrefixList.add, Option.ite_none_left_eq_some, Option.some.injEq] at h
    obtain ⟨-, rfl⟩ := h
    exact ⟨rfl, rfl, rfl⟩

def asPathRules (rx : RegexEngine) : RuleKind AsPathList AsPathListEntry where
  kind := asPathKind rx
  read := asPathListEntryOf rx
  add l entry := some (l.add entry)
  seq := AsPathListEntry.seq
  rules := AsPathList.entries
  version := AsPathList.version
  own _ := True
  admits _ := True
  freeze_eq := rfl
  fill_eq := rfl
  faithful := faithful_asPathListEntryOf rx
  own_new := trivial
  rules_new := rfl
  own_clear _ := trivial
  rules_clear _ := rfl
  version_clear _ := rfl
  add_isSome _ := by simp
  add_some _ h := by
    cases h
    exact ⟨trivial, rfl, rfl⟩

def routeMapRules (rx : RegexEngine) : RuleKind RouteMap RouteMapClause where
  kind := routeMapKind rx
  read := routeMapClauseOf rx
  add m clause := some (m.addClause clause)
  seq := RouteMapClause.seq
  rules := RouteMap.clauses
  version := RouteMap.version
  own _ := True
  admits _ := True
  freeze_eq := rfl
  fill_eq := rfl
  faithful := faithful_routeMapClauseOf rx
  own_new := trivial
  rules_new := rfl
  own_clear _ := trivial
  rules_clear _ := rfl
  version_clear _ := rfl
  add_isSome _ := by simp
  add_some _ h := by
    cases h
    exact ⟨trivial, rfl, rfl⟩

namespace RuleKind

variable {A B : Type} (p : RuleKind A B)

/-- The kind of live objects, the new ones born in a given load. -/
def live (born : Nat) : Catalog.Kind Json Frozen (Live A) where
  freeze := freeze
  new := Live.new born p.kind.new
  clear o := o.cleared (p.kind.clear o.state)
  fill := fillFrom p.read fun o b => (p.add o.state b).map (o.added (p.seq b))

/-- The objects without identity and counters are the objects of the plain store. -/
theorem live_shows (born : Nat) : (p.live born).Shows p.kind Live.state where
  freeze := p.freeze_eq.symm
  new := rfl
  clear _ := rfl
  fill sec o := by
    rw [p.fill_eq]
    have hfold : ∀ (entries : List B) (o : Live A),
        (entries.foldlM (fun o b => (p.add o.state b).map (o.added (p.seq b))) o).map
          Live.state = entries.foldlM p.add o.state := by
      intro entries
      induction entries with
      | nil => exact fun o => rfl
      | cons b rest ih =>
        intro o
        rw [List.foldlM_cons, List.foldlM_cons]
        cases hadd : p.add o.state b with
        | none => rfl
        | some a => exact ih (o.added (p.seq b) a)
    change (fillFrom p.read _ sec o).map Live.state = fillFrom p.read p.add sec o.state
    simp only [fillFrom, Option.map_bind, Function.comp_def, hfold]

end RuleKind

structure LiveStore where
  v4 : Catalog.Table String Frozen (Live PrefixList)
  v6 : Catalog.Table String Frozen (Live PrefixList)
  maps : Catalog.Table String Frozen (Live RouteMap)
  asPaths : Catalog.Table String Frozen (Live AsPathList)
  revision : Nat
  loads : Nat
  changes : Nat

namespace LiveStore

open PolicyStore (wantedV4 wantedV6 wantedAsPaths wantedMaps validate)

def new : LiveStore := ⟨Catalog.empty, Catalog.empty, Catalog.empty, Catalog.empty, 0, 0, 0⟩

/-- What is left of the store without identities and counters. -/
def policy (s : LiveStore) : PolicyStore where
  v4 := s.v4.view Live.state
  v6 := s.v6.view Live.state
  maps := s.maps.view Live.state
  asPaths := s.asPaths.view Live.state
  revision := s.revision
  loads := s.loads
  changes := s.changes

/-- How a load ends. -/
inductive Outcome where
  /-- `validate` raised: the store was not touched. -/
  | refused
  /-- The mutating pass raised, and the store is left half refilled. -/
  | torn
  | done (s : LiveStore) (changed : Nat)

/-- The mutating pass of `load`; `none` when it raises. -/
def commit (rx : RegexEngine) (s : LiveStore) (document : Json) : Option (LiveStore × Nat) := do
  let (v4, n4) ← Catalog.load ((prefixListRules AFI_IP).live s.loads)
    (sectionsOf (wantedV4 document)) s.v4
  let (v6, n6) ← Catalog.load ((prefixListRules AFI_IP6).live s.loads)
    (sectionsOf (wantedV6 document)) s.v6
  let (asPaths, na) ← Catalog.load ((asPathRules rx).live s.loads)
    (sectionsOf (wantedAsPaths document)) s.asPaths
  let (maps, nm) ← Catalog.load ((routeMapRules rx).live s.loads)
    (sectionsOf (wantedMaps document)) s.maps
  let changed := n4 + n6 + na + nm
  some ({
    v4 := v4
    v6 := v6
    maps := maps
    asPaths := asPaths
    revision := if changed = 0 then s.revision else s.revision + 1
    loads := s.loads + 1
    changes := s.changes + changed }, changed)

/-- `load`: validate the document, then make the store match it. -/
def load (rx : RegexEngine) (s : LiveStore) (document : Json) : Outcome :=
  if !validate rx document then .refused
  else
    match s.commit rx document with
    | none => .torn
    | some (s', changed) => .done s' changed

/-- What a mutating pass that does not raise does. -/
theorem commit_spec {rx : RegexEngine} {s s' : LiveStore} {document : Json} {changed : Nat}
    (h : s.commit rx document = some (s', changed)) :
    ∃ n4 n6 na nm,
      Catalog.load ((prefixListRules AFI_IP).live s.loads) (sectionsOf (wantedV4 document))
          s.v4 = some (s'.v4, n4) ∧
        Catalog.load ((prefixListRules AFI_IP6).live s.loads) (sectionsOf (wantedV6 document))
          s.v6 = some (s'.v6, n6) ∧
        Catalog.load ((asPathRules rx).live s.loads) (sectionsOf (wantedAsPaths document))
          s.asPaths = some (s'.asPaths, na) ∧
        Catalog.load ((routeMapRules rx).live s.loads) (sectionsOf (wantedMaps document))
          s.maps = some (s'.maps, nm) ∧
        changed = n4 + n6 + na + nm ∧
        s'.revision = (if changed = 0 then s.revision else s.revision + 1) ∧
        s'.loads = s.loads + 1 ∧ s'.changes = s.changes + changed := by
  simp only [commit, Option.bind_eq_bind, Option.bind_eq_some_iff, Option.some.injEq,
    Prod.mk.injEq] at h
  obtain ⟨⟨v4, n4⟩, h4, ⟨v6, n6⟩, h6, ⟨asPaths, na⟩, ha, ⟨maps, nm⟩, hm, hs, hn⟩ := h
  subst hs hn
  exact ⟨n4, n6, na, nm, h4, h6, ha, hm, rfl, rfl, rfl, rfl⟩

theorem load_eq_done {rx : RegexEngine} {s s' : LiveStore} {document : Json} {changed : Nat}
    (h : s.load rx document = .done s' changed) :
    validate rx document = true ∧ s.commit rx document = some (s', changed) := by
  unfold load at h
  split at h
  · exact absurd h (by simp)
  · rename_i hvalid
    split at h
    · exact absurd h (by simp)
    · rename_i hcommit
      cases h
      exact ⟨by simpa using hvalid, hcommit⟩

end LiveStore

namespace RuleKind

variable {A B : Type} (p : RuleKind A B)

/-- The entries a section lists. -/
def entriesOf (sec : Json) : Option (List B) :=
  sec.items?.bind fun items => items.zipIdx.mapM fun e => p.read e.1 e.2

/-- Entries in the order of their numbers, a later one in the place of an earlier one of
its number. -/
def filed (entries : List B) : List B :=
  entries.foldl (fun rules b => Sequenced.insert p.seq b rules) []

theorem faithful_entriesOf : Faithful p.entriesOf := by
  intro a b x y hfreeze hx hy
  obtain ⟨xs, hxs, hx⟩ := Option.bind_eq_some_iff.mp hx
  obtain ⟨ys, hys, hy⟩ := Option.bind_eq_some_iff.mp hy
  have hitems := Json.items?_of_freeze hxs hys hfreeze
  have hzip : ∀ start, List.Forall₂ (fun (u v : Json × Nat) => freeze u.1 = freeze v.1 ∧ u.2 = v.2)
      (xs.zipIdx start) (ys.zipIdx start) := by
    clear hxs hys hx hy
    induction hitems with
    | nil => exact fun _ => List.Forall₂.nil
    | cons hhead _ ih =>
      intro start
      rw [List.zipIdx_cons, List.zipIdx_cons]
      exact List.Forall₂.cons ⟨hhead, rfl⟩ (ih (start + 1))
  refine Mapped.eq_of_forall₂ ?_ (hzip 0) hx hy
  rintro ⟨u, i⟩ ⟨v, j⟩ r r' ⟨hfreeze', rfl⟩ hr hr'
  exact p.faithful i hfreeze' hr hr'

variable {p}

theorem filed_ne_nil {entries : List B} (h : entries ≠ []) : p.filed entries ≠ [] := by
  have hgrow : ∀ (entries : List B) {rules : List B}, rules ≠ [] →
      entries.foldl (fun rules b => Sequenced.insert p.seq b rules) rules ≠ [] := by
    intro entries
    induction entries with
    | nil => exact fun h => h
    | cons b rest ih => exact fun _ => ih (Sequenced.insert_ne_nil b _)
  cases entries with
  | nil => exact absurd rfl h
  | cons b rest => exact hgrow rest (Sequenced.insert_ne_nil b [])

theorem eq_nil_of_entriesOf {sec : Json} (h : p.entriesOf sec = some []) : sec = .list [] := by
  obtain ⟨items, hitems, h⟩ := Option.bind_eq_some_iff.mp h
  have hnil : items = [] := by
    cases items with
    | nil => rfl
    | cons j rest => simp [List.zipIdx_cons, List.mapM_cons, Option.bind_eq_some_iff] at h
  cases sec <;> simp_all [Json.items?]

/-- Entries are added one by one, each into its place. -/
theorem foldlM_added {entries : List B} {o o' : Live A} (hown : p.own o.state)
    (h : entries.foldlM (fun o b => (p.add o.state b).map (o.added (p.seq b))) o = some o') :
    p.own o'.state ∧
      p.rules o'.state =
        entries.foldl (fun rules b => Sequenced.insert p.seq b rules) (p.rules o.state) ∧
      p.version o'.state = p.version o.state + entries.length ∧
      o'.born = o.born ∧ o'.counters = o.counters := by
  induction entries generalizing o with
  | nil =>
    cases h
    exact ⟨hown, rfl, rfl, rfl, rfl⟩
  | cons b rest ih =>
    simp only [List.foldlM_cons, Option.bind_eq_bind, Option.bind_eq_some_iff,
      Option.map_eq_some_iff] at h
    obtain ⟨mid, ⟨a, ha, rfl⟩, hrest⟩ := h
    obtain ⟨hownMid, hrules, hversion⟩ := p.add_some hown ha
    have hmid := ih (o := o.added (p.seq b) a) hownMid hrest
    simp only [Live.added, hrules, hversion] at hmid
    refine ⟨hmid.1, hmid.2.1, ?_, hmid.2.2.2.1, hmid.2.2.2.2⟩
    rw [hmid.2.2.1, List.length_cons]
    omega

theorem foldlM_added_isSome {entries : List B} {o : Live A} (hown : p.own o.state) :
    (entries.foldlM (fun o b => (p.add o.state b).map (o.added (p.seq b))) o).isSome ↔
      ∀ b ∈ entries, p.admits b := by
  induction entries generalizing o with
  | nil => simp
  | cons b rest ih =>
    rw [List.foldlM_cons, List.forall_mem_cons, ← p.add_isSome hown]
    cases ha : p.add o.state b with
    | none => simp
    | some a =>
      have hrest := ih (o := o.added (p.seq b) a) (p.add_some hown ha).1
      simpa using hrest

theorem fill_some {born : Nat} {sec : Json} {o o' : Live A} (hown : p.own o.state)
    (h : (p.live born).fill sec o = some o') :
    ∃ entries, p.entriesOf sec = some entries ∧ p.own o'.state ∧
      p.rules o'.state =
        entries.foldl (fun rules b => Sequenced.insert p.seq b rules) (p.rules o.state) ∧
      p.version o'.state = p.version o.state + entries.length ∧
      o'.born = o.born ∧ o'.counters = o.counters := by
  obtain ⟨items, hitems, h⟩ := Option.bind_eq_some_iff.mp h
  obtain ⟨entries, hentries, hfold⟩ := Option.bind_eq_some_iff.mp h
  exact ⟨entries, Option.bind_eq_some_iff.mpr ⟨items, hitems, hentries⟩, foldlM_added hown hfold⟩

/-- Whether a section is accepted does not depend on the object that takes it. -/
theorem fill_isSome_iff {born : Nat} {sec : Json} {o : Live A} (hown : p.own o.state) :
    ((p.live born).fill sec o).isSome ↔
      ∃ entries, p.entriesOf sec = some entries ∧ ∀ b ∈ entries, p.admits b := by
  have hfill : (p.live born).fill sec o = (p.entriesOf sec).bind fun entries =>
      entries.foldlM (fun o b => (p.add o.state b).map (o.added (p.seq b))) o := by
    change fillFrom _ _ sec o = _
    simp only [fillFrom, entriesOf, Option.bind_assoc]
  rw [hfill]
  cases hentries : p.entriesOf sec with
  | none => simp
  | some entries =>
    rw [Option.bind_some, foldlM_added_isSome hown]
    simp

theorem fill_isSome_of_new {born : Nat} {sec : Json} {o : Live A} (hown : p.own o.state)
    (h : (p.kind.fill sec p.kind.new).isSome) : ((p.live born).fill sec o).isSome := by
  have hshown := (p.live_shows born).fill sec (Live.new born p.kind.new)
  have hnew : ((p.live born).fill sec (Live.new born p.kind.new)).isSome := by
    rw [← Option.isSome_map (f := Live.state), hshown]
    exact h
  rw [fill_isSome_iff p.own_new] at hnew
  exact (fill_isSome_iff hown).mpr hnew

variable (p) in
/-- Every section is one that a new object takes. -/
def Accepts (wanted : Dict String Json) : Prop :=
  ∀ name sec, wanted.get? name = some sec → (p.kind.fill sec p.kind.new).isSome

theorem Accepts.entriesOf {wanted : Dict String Json} (h : p.Accepts wanted) {name : String}
    {sec : Json} (hsec : wanted.get? name = some sec) :
    ∃ entries, p.entriesOf sec = some entries := by
  have hfill : ((p.live 0).fill sec (Live.new 0 p.kind.new)).isSome :=
    fill_isSome_of_new p.own_new (h name sec hsec)
  obtain ⟨entries, hentries, -⟩ := (fill_isSome_iff p.own_new).mp hfill
  exact ⟨entries, hentries⟩

variable (p) in
/-- A table holds exactly the objects a document wants, each with the rules of its
section. -/
structure Holds (wanted : Dict String Json)
    (t : Catalog.Table String Frozen (Live A)) : Prop where
  defined : ∀ name, t.get? name = none ↔ wanted.get? name = none
  built : ∀ name o, t.get? name = some o → p.own o.state ∧ ∃ sec entries,
    wanted.get? name = some sec ∧ t.snapshots.get? name = some (freeze sec) ∧
      p.entriesOf sec = some entries ∧ p.rules o.state = p.filed entries

variable {wanted wanted' : Dict String Json} {t t' : Catalog.Table String Frozen (Live A)}

theorem Holds.empty : p.Holds Dict.empty Catalog.empty where
  defined _ := ⟨fun _ => rfl, fun _ => rfl⟩
  built _ _ h := absurd h (by simp [Catalog.empty, Catalog.Table.get?])

/-- What a load makes of the object of a wanted name. -/
theorem refreshed_of_load {born changed : Nat}
    (hload : Catalog.load (p.live born) wanted' t = some (t', changed)) {name : String}
    {sec : Json} (hsec : wanted'.get? name = some sec) :
    ∃ o', t'.get? name = some o' ∧ t'.snapshots.get? name = some (freeze sec) ∧
      ((t.get? name = some o' ∧ t.snapshots.get? name = some (freeze sec)) ∨
        (t.get? name = none ∧ (p.live born).fill sec (Live.new born p.kind.new) = some o') ∨
        ∃ o, t.get? name = some o ∧ t.snapshots.get? name ≠ some (freeze sec) ∧
          (p.live born).fill sec (o.cleared (p.kind.clear o.state)) = some o') := by
  obtain ⟨⟨o', ho', hobj⟩, hsnap⟩ := (Catalog.load_spec hload).1 name sec hsec
  refine ⟨o', hobj, hsnap, ?_⟩
  unfold Catalog.refreshed at ho'
  cases hheld : t.get? name with
  | none =>
    rw [hheld] at ho'
    exact Or.inr (Or.inl ⟨rfl, ho'⟩)
  | some o =>
    simp only [hheld] at ho'
    split at ho'
    · rename_i hsame
      cases ho'
      exact Or.inl ⟨rfl, hsame⟩
    · rename_i hmoved
      exact Or.inr (Or.inr ⟨o, rfl, hmoved, ho'⟩)

theorem Holds.load {born changed : Nat} (h : p.Holds wanted t) (hvalid : p.Accepts wanted')
    (hload : Catalog.load (p.live born) wanted' t = some (t', changed)) : p.Holds wanted' t' where
  defined name := by
    constructor
    · intro hnone
      by_contra hsec
      obtain ⟨sec, hsec⟩ := Option.ne_none_iff_exists'.mp hsec
      obtain ⟨o', hobj, -⟩ := refreshed_of_load hload hsec
      rw [hnone] at hobj
      exact absurd hobj (by simp)
    · exact (Catalog.load_spec hload).2 name
  built name o hobj := by
    cases hsec : wanted'.get? name with
    | none =>
      rw [(Catalog.load_spec hload).2 name hsec] at hobj
      exact absurd hobj (by simp)
    | some sec =>
      obtain ⟨o', hobj', hsnap, hcases⟩ := refreshed_of_load hload hsec
      rw [hobj, Option.some.injEq] at hobj'
      subst hobj'
      rcases hcases with ⟨hheld, hsame⟩ | ⟨-, hfill⟩ | ⟨old, hheld, -, hfill⟩
      · -- kept: the section it was built from freezes like the one wanted now
        obtain ⟨hown, sec₀, entries, -, hsnap₀, hentries, hrules⟩ := h.built name o hheld
        obtain ⟨entries', hentries'⟩ := hvalid.entriesOf hsec
        rw [hsnap₀, Option.some.injEq] at hsame
        rw [p.faithful_entriesOf hsame hentries hentries'] at hrules
        exact ⟨hown, sec, entries', rfl, hsnap, hentries', hrules⟩
      · obtain ⟨entries, hentries, hown, hrules, -⟩ := fill_some p.own_new hfill
        refine ⟨hown, sec, entries, rfl, hsnap, hentries, ?_⟩
        rw [hrules]
        change entries.foldl _ (p.rules p.kind.new) = _
        rw [p.rules_new]
        rfl
      · have hownOld := p.own_clear (h.built name old hheld).1
        obtain ⟨entries, hentries, hown, hrules, -⟩ := fill_some hownOld hfill
        refine ⟨hown, sec, entries, rfl, hsnap, hentries, ?_⟩
        rw [hrules]
        change entries.foldl _ (p.rules (p.kind.clear old.state)) = _
        rw [p.rules_clear]
        rfl

/-- A load of accepted sections does not raise. -/
theorem Holds.load_isSome (born : Nat) (h : p.Holds wanted t) (hvalid : p.Accepts wanted') :
    (Catalog.load (p.live born) wanted' t).isSome := by
  apply Catalog.load_isSome
  intro name sec hsec
  have hnew := hvalid name sec hsec
  unfold Catalog.refreshed
  cases hheld : t.get? name with
  | none => exact fill_isSome_of_new p.own_new hnew
  | some o =>
    dsimp only
    split
    · rfl
    · exact fill_isSome_of_new (p.own_clear (h.built name o hheld).1) hnew

/-- Refilling an object from another section moves its version. -/
theorem Holds.version_lt {born : Nat} (h : p.Holds wanted t) {name : String} {sec : Json}
    {o o' : Live A} (ho : t.get? name = some o)
    (hmoved : t.snapshots.get? name ≠ some (freeze sec))
    (hfill : (p.live born).fill sec (o.cleared (p.kind.clear o.state)) = some o') :
    p.version o.state < p.version o'.state := by
  obtain ⟨hown, sec₀, entries₀, -, hsnap₀, hentries₀, hrules₀⟩ := h.built name o ho
  obtain ⟨entries, hentries, -, -, hversion, -⟩ := fill_some (p.own_clear hown) hfill
  have hcleared : p.version (p.kind.clear o.state) =
      if (p.rules o.state).isEmpty then p.version o.state else p.version o.state + 1 :=
    p.version_clear o.state
  change p.version o'.state = p.version (p.kind.clear o.state) + entries.length at hversion
  by_contra hle
  split at hcleared
  · rename_i hempty
    -- both sections are empty lists, and these freeze alike
    have hnew : entries = [] := List.length_eq_zero_iff.mp (by omega)
    have hold : entries₀ = [] := by
      by_contra hne
      rw [hrules₀, List.isEmpty_iff] at hempty
      exact filed_ne_nil hne hempty
    subst hnew hold
    apply hmoved
    rw [hsnap₀, eq_nil_of_entriesOf hentries₀, eq_nil_of_entriesOf hentries]
  · omega

/-- An object that stays defined is untouched, or is the same object at a later version. -/
theorem Holds.moved {born changed : Nat} (h : p.Holds wanted t)
    (hload : Catalog.load (p.live born) wanted' t = some (t', changed)) {name : String}
    {o o' : Live A} (ho : t.get? name = some o) (ho' : t'.get? name = some o') :
    o' = o ∨ (o'.born = o.born ∧ o'.counters = o.counters ∧
      p.version o.state < p.version o'.state) := by
  cases hsec : wanted'.get? name with
  | none =>
    rw [(Catalog.load_spec hload).2 name hsec] at ho'
    exact absurd ho' (by simp)
  | some sec =>
    obtain ⟨found, hfound, -, hcases⟩ := refreshed_of_load hload hsec
    rw [ho', Option.some.injEq] at hfound
    subst hfound
    rcases hcases with ⟨hheld, -⟩ | ⟨hnone, -⟩ | ⟨old, hheld, hmoved, hfill⟩
    · rw [ho, Option.some.injEq] at hheld
      exact Or.inl hheld.symm
    · rw [ho] at hnone
      exact absurd hnone (by simp)
    · rw [ho, Option.some.injEq] at hheld
      subst hheld
      obtain ⟨-, -, -, -, -, hborn, hcounters⟩ :=
        fill_some (p.own_clear (h.built name o ho).1) hfill
      exact Or.inr ⟨hborn, hcounters, h.version_lt ho hmoved hfill⟩

/-- An object that appears is born in the load that made it appear. -/
theorem born_of_appears {born changed : Nat}
    (hload : Catalog.load (p.live born) wanted' t = some (t', changed)) {name : String}
    {o' : Live A} (ho : t.get? name = none) (ho' : t'.get? name = some o') : o'.born = born := by
  cases hsec : wanted'.get? name with
  | none =>
    rw [(Catalog.load_spec hload).2 name hsec] at ho'
    exact absurd ho' (by simp)
  | some sec =>
    obtain ⟨found, hfound, -, hcases⟩ := refreshed_of_load hload hsec
    rw [ho', Option.some.injEq] at hfound
    subst hfound
    rcases hcases with ⟨hheld, -⟩ | ⟨-, hfill⟩ | ⟨old, hheld, -, -⟩
    · rw [ho] at hheld
      exact absurd hheld (by simp)
    · obtain ⟨-, -, -, -, -, hborn, -⟩ := fill_some p.own_new hfill
      exact hborn
    · rw [ho] at hheld
      exact absurd hheld (by simp)

/-- Where an object that a load leaves behind comes from. -/
theorem Holds.continues {born changed : Nat} (h : p.Holds wanted t)
    (hload : Catalog.load (p.live born) wanted' t = some (t', changed)) {name : String}
    {o' : Live A} (ho' : t'.get? name = some o') :
    (t.get? name = none ∧ o'.born = born) ∨
      ∃ o, t.get? name = some o ∧ (o' = o ∨ (o'.born = o.born ∧
        p.version o.state < p.version o'.state)) := by
  cases ho : t.get? name with
  | none => exact Or.inl ⟨rfl, born_of_appears hload ho ho'⟩
  | some o =>
    rcases h.moved hload ho ho' with hsame | ⟨hborn, -, hversion⟩
    · exact Or.inr ⟨o, rfl, Or.inl hsame⟩
    · exact Or.inr ⟨o, rfl, Or.inr ⟨hborn, hversion⟩⟩

/-- A section that freezes as before leaves its object alone. -/
theorem Holds.unchanged {born changed : Nat} (h : p.Holds wanted t)
    (hload : Catalog.load (p.live born) wanted' t = some (t', changed)) {name : String}
    {sec sec' : Json} (hsec : wanted.get? name = some sec) (hsec' : wanted'.get? name = some sec')
    (hfreeze : freeze sec = freeze sec') : t'.get? name = t.get? name := by
  obtain ⟨o', ho', -, hcases⟩ := refreshed_of_load hload hsec'
  rcases hcases with ⟨hheld, -⟩ | ⟨hnone, -⟩ | ⟨old, hheld, hmoved, -⟩
  · rw [ho', hheld]
  · rw [(h.defined name).mp hnone] at hsec
    exact absurd hsec (by simp)
  · obtain ⟨-, sec₀, -, hsec₀, hsnap₀, -⟩ := h.built name old hheld
    rw [hsec, Option.some.injEq] at hsec₀
    rw [hsnap₀, ← hsec₀, hfreeze] at hmoved
    exact absurd rfl hmoved

theorem Holds.load_counts_iff {born changed : Nat} (h : p.Holds wanted t)
    (hload : Catalog.load (p.live born) wanted' t = some (t', changed)) :
    changed ≠ 0 ↔ ∃ name, t'.get? name ≠ t.get? name := by
  apply Catalog.load_counts_iff hload
  rintro name sec o o' - ho hmoved hfill rfl
  exact Nat.lt_irrefl _ (h.version_lt ho hmoved hfill)

/-- Two tables that hold one document hold the same rules. -/
theorem Holds.rules_eq (h : p.Holds wanted t) (h' : p.Holds wanted t') (name : String) :
    (t.get? name = none ∧ t'.get? name = none) ∨
      ∃ o o', t.get? name = some o ∧ t'.get? name = some o' ∧ p.own o.state ∧
        p.own o'.state ∧ p.rules o.state = p.rules o'.state := by
  cases ho : t.get? name with
  | none => exact Or.inl ⟨rfl, (h'.defined name).mpr ((h.defined name).mp ho)⟩
  | some o =>
    obtain ⟨hown, sec, entries, hsec, -, hentries, hrules⟩ := h.built name o ho
    cases ho' : t'.get? name with
    | none =>
      rw [(h'.defined name).mp ho'] at hsec
      exact absurd hsec (by simp)
    | some o' =>
      obtain ⟨hown', sec', entries', hsec', -, hentries', hrules'⟩ := h'.built name o' ho'
      rw [hsec, Option.some.injEq] at hsec'
      subst hsec'
      rw [hentries, Option.some.injEq] at hentries'
      subst hentries'
      exact Or.inr ⟨o, o', rfl, rfl, hown, hown', hrules.trans hrules'.symm⟩

/-- Whatever an object owes to its rules alone is the same in two tables that hold one
document. -/
theorem Holds.view_eq {C : Type} (h : p.Holds wanted t) (h' : p.Holds wanted t') (f : A → C)
    (hf : ∀ {a a'}, p.own a → p.own a' → p.rules a = p.rules a' → f a = f a') (name : String) :
    ((t.view Live.state).get? name).map f = ((t'.view Live.state).get? name).map f := by
  rw [Catalog.Table.get?_view, Catalog.Table.get?_view]
  rcases h.rules_eq h' name with ⟨hnone, hnone'⟩ | ⟨o, o', ho, ho', hown, hown', hrules⟩
  · rw [hnone, hnone']
  · rw [ho, ho']
    exact congrArg some (hf hown hown' hrules)

end RuleKind

/-- Move a counter of the object of a name. -/
def countIn {A : Type} (name : String) (c : Count) (t : Catalog.Table String Frozen (Live A)) :
    Catalog.Table String Frozen (Live A) :=
  ⟨t.objects.mapValues fun other o => if other = name then o.count c else o, t.snapshots⟩

theorem get?_countIn {A : Type} (name : String) (c : Count)
    (t : Catalog.Table String Frozen (Live A)) (other : String) :
    (countIn name c t).get? other =
      (t.get? other).map fun o => if other = name then o.count c else o :=
  Dict.get?_mapValues _ _ _

@[simp] theorem Live.state_count {A : Type} (o : Live A) (c : Count) :
    (o.count c).state = o.state := by
  cases c <;> rfl

@[simp] theorem Live.born_count {A : Type} (o : Live A) (c : Count) :
    (o.count c).born = o.born := by
  cases c <;> rfl

theorem countIn_spec {A : Type} {name : String} {c : Count}
    {t : Catalog.Table String Frozen (Live A)} {other : String} {o' : Live A}
    (h : (countIn name c t).get? other = some o') :
    ∃ o, t.get? other = some o ∧ o'.state = o.state ∧ o'.born = o.born := by
  rw [get?_countIn] at h
  obtain ⟨o, ho, rfl⟩ := Option.map_eq_some_iff.mp h
  refine ⟨o, ho, ?_, ?_⟩ <;> split <;> simp

theorem RuleKind.Holds.countIn {A B : Type} {p : RuleKind A B} {wanted : Dict String Json}
    {t : Catalog.Table String Frozen (Live A)} (h : p.Holds wanted t) (name : String)
    (c : Count) : p.Holds wanted (countIn name c t) where
  defined other := by
    rw [get?_countIn, Option.map_eq_none_iff]
    exact h.defined other
  built other o' ho' := by
    obtain ⟨o, ho, hstate, -⟩ := countIn_spec ho'
    rw [hstate]
    exact h.built other o ho

theorem PrefixList.evaluate_congr {l l' : PrefixList} (hafi : l.afi = l'.afi)
    (hentries : l.entries = l'.entries) : l.evaluate = l'.evaluate := by
  have hindex : l.index.get? = l'.index.get? := by
    funext p
    rw [l.filed, l'.filed, hentries]
  funext p
  simp only [evaluate, lookup, hafi, hindex]

theorem Match.holds_congr (rx : RegexEngine) (lists lists' : Resolver)
    (hpfx : ∀ name afi p, (lists.prefixList name afi).any (·.permits p) =
      (lists'.prefixList name afi).any (·.permits p))
    (hpath : ∀ name path, (lists.asPathList name).any (·.permits rx path) =
      (lists'.asPathList name).any (·.permits rx path)) (pfx : Prefix)
    (attrs : Option AttrSet) (test : Match) :
    test.holds rx lists pfx attrs = test.holds rx lists' pfx attrs := by
  cases test <;> simp only [Match.holds, hpfx, hpath]

theorem RouteMap.apply_congr (rx : RegexEngine) (lists lists' : Resolver)
    (hpfx : ∀ name afi p, (lists.prefixList name afi).any (·.permits p) =
      (lists'.prefixList name afi).any (·.permits p))
    (hpath : ∀ name path, (lists.asPathList name).any (·.permits rx path) =
      (lists'.asPathList name).any (·.permits rx path)) {m m' : RouteMap}
    (hclauses : m.clauses = m'.clauses) (pfx : Prefix) (attrs : Option AttrSet) :
    m.apply rx lists pfx attrs = m'.apply rx lists' pfx attrs := by
  have hholds : ∀ c : RouteMapClause, c.holds rx lists pfx attrs = c.holds rx lists' pfx attrs := by
    intro c
    simp only [RouteMapClause.holds, Match.holds_congr rx lists lists' hpfx hpath]
  simp only [RouteMap.apply, hclauses, hholds]

end Packets
