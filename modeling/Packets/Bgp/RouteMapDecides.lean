/-
What a route-map decides (`policy/routemap.py`), on values that fit their records.

A map is what was filed last under each number, a condition is about the values a route
carries, and the lowest number whose conditions all hold decides.
-/
import Packets.Bgp.Policy
import Packets.Lib.Mapped

namespace Packets

theorem intIn?_le {low high : Int} {value : Json} {n : Nat} (h : value.intIn? low high = some n)
    (hlow : 0 ≤ low) : low ≤ n ∧ (n : Int) ≤ high := by
  rw [Json.intIn?] at h
  split at h
  · split at h
    · next hrange =>
        have hn := Option.some.inj h
        omega
    · simp at h
  · simp at h

theorem intIn?_uint32 {low : Int} {value : Json} {n : Nat}
    (h : value.intIn? low UINT32_MAX = some n) (hlow : 0 ≤ low) : n < 2 ^ 32 := by
  have hle := (intIn?_le h hlow).2
  rw [UINT32_MAX] at hle
  omega

theorem originId_le {value : Json} {n : Nat} (h : originId value = some n) : n ≤ 2 := by
  rw [originId.eq_def] at h
  split at h <;> simp only [Option.some.injEq, reduceCtorEq] at h <;> omega

theorem communityValue_lt {value : Json} {n : Nat} (h : communityValue value = some n) :
    n < 256 ^ 4 := by
  rw [communityValue.eq_def] at h
  split at h
  · exact intIn?_uint32 h (by decide)
  · split at h
    · next hknown =>
        rw [wellKnownCommunity.eq_def] at hknown
        split at hknown <;> simp only [Option.some.injEq, reduceCtorEq] at hknown h <;> omega
    · split at h
      · obtain ⟨-, hle⟩ := Option.filter_eq_some_iff.mp h
        simp only [decide_eq_true_eq] at hle
        omega
      · simp only [Option.bind_eq_bind, Option.bind_eq_some_iff, Option.ite_none_right_eq_some,
          Option.some.injEq] at h
        obtain ⟨high, -, low, -, hle, rfl⟩ := h
        omega
      · simp at h
  · simp at h

theorem largeCommunityValue_fits {value : Json} {t : LargeCommunity}
    (h : largeCommunityValue value = some t) : LargeFits t := by
  rw [largeCommunityValue.eq_def] at h
  split at h
  · simp only [Option.bind_eq_bind, Option.bind_eq_some_iff, Option.some.injEq] at h
    obtain ⟨a, ha, b, hb, c, hc, rfl⟩ := h
    exact ⟨intIn?_uint32 ha (by decide), intIn?_uint32 hb (by decide), intIn?_uint32 hc (by decide)⟩
  · split at h
    · simp only [Option.bind_eq_bind, Option.bind_eq_some_iff, Option.ite_none_right_eq_some,
        Option.some.injEq] at h
      obtain ⟨a, -, b, -, c, -, ⟨ha, hb, hc⟩, rfl⟩ := h
      exact ⟨Nat.lt_succ_of_le ha, Nat.lt_succ_of_le hb, Nat.lt_succ_of_le hc⟩
    · simp at h
  · simp at h

theorem communityValues_eq {items : Json} {values : List Nat}
    (h : communityValues items = some values) :
    (∀ v ∈ values, v < 256 ^ 4) ∧ values = Ascending.form (· ≤ ·) values := by
  rw [communityValues] at h
  split at h
  · obtain ⟨parsed, hparsed, rfl⟩ := Option.map_eq_some_iff.mp h
    have hall := Mapped.forall_mem_right (fun _ _ => communityValue_lt) hparsed
    exact ⟨fun v hv => hall v ((Ascending.mem_form _).mp hv), (Ascending.form_form _ _).symm⟩
  · simp at h

instance : Std.Antisymm fun x y : LargeCommunity => largeLe x y = true where
  antisymm x y := by
    obtain ⟨a, b, c⟩ := x
    obtain ⟨d, e, f⟩ := y
    simp only [largeLe, Bool.or_eq_true, Bool.and_eq_true, decide_eq_true_eq, beq_iff_eq,
      Prod.mk.injEq]
    omega

theorem largeCommunityValues_eq {items : Json} {values : List LargeCommunity}
    (h : largeCommunityValues items = some values) :
    (∀ t ∈ values, LargeFits t) ∧
      values = Ascending.form (fun x y => largeLe x y = true) values := by
  rw [largeCommunityValues] at h
  split at h
  · obtain ⟨parsed, hparsed, rfl⟩ := Option.map_eq_some_iff.mp h
    have hall := Mapped.forall_mem_right (fun _ _ => largeCommunityValue_fits) hparsed
    exact ⟨fun t ht => hall t ((Ascending.mem_form _).mp ht), (Ascending.form_form _ _).symm⟩
  · simp at h

/-- Every value of normalized edits fits the attribute it is for. -/
structure Edits.Fits (e : Edits) : Prop where
  localPref : ∀ n, e.localPref = some n → n < 2 ^ 32
  metric : ∀ n, e.metric = some n → n < 2 ^ 32
  origin : ∀ n, e.origin = some n → n ≤ 2
  community : ∀ mode values, e.community = some (mode, values) → ∀ v ∈ values, v < 256 ^ 4
  largeCommunity : ∀ mode values, e.largeCommunity = some (mode, values) → ∀ t ∈ values, LargeFits t
  asPathPrepend : ∀ asns, e.asPathPrepend = some asns → ∀ asn ∈ asns, 1 ≤ asn ∧ asn < 2 ^ 32

theorem parseCommunityEdit_forall {α : Type} {parseValues : Json → Option (List α)}
    {P : α → Prop} (hparse : ∀ items values, parseValues items = some values → ∀ v ∈ values, P v)
    {value : Json} {edit : CommunityMode × List α}
    (h : parseCommunityEdit parseValues value = some edit) : ∀ v ∈ edit.2, P v := by
  rw [parseCommunityEdit.eq_def] at h
  split at h
  · simp only [Option.ite_none_right_eq_some, Option.some.injEq] at h
    rw [← h.2]
    exact fun v hv => absurd hv List.not_mem_nil
  · simp only [Option.bind_eq_bind, Option.ite_none_left_eq_some, Option.bind_eq_some_iff,
      Option.some.injEq] at h
    obtain ⟨-, items, -, additive, -, values, hvalues, rfl⟩ := h
    exact hparse items values hvalues
  · obtain ⟨values, hvalues, rfl⟩ := Option.map_eq_some_iff.mp h
    exact hparse _ values hvalues

theorem parsePrepend_fits {value : Json} {asns : List Nat} (h : parsePrepend value = some asns) :
    ∀ asn ∈ asns, 1 ≤ asn ∧ asn < 2 ^ 32 := by
  rw [parsePrepend] at h
  split at h
  · simp at h
  · split at h
    · split at h
      · simp at h
      · apply Mapped.forall_mem_right (P := fun asn => 1 ≤ asn ∧ asn < 2 ^ 32) _ h
        intro item asn hasn
        obtain ⟨n, -, hn⟩ := Option.bind_eq_some_iff.mp hasn
        simp only [asNumber?, Option.ite_none_right_eq_some, Option.some.injEq] at hn
        omega
    · apply Mapped.forall_mem_right (P := fun asn => 1 ≤ asn ∧ asn < 2 ^ 32) _ h
      intro item asn hasn
      have hrange := intIn?_le hasn (by decide)
      have hword := intIn?_uint32 hasn (by decide)
      omega
    · simp at h

theorem parseSetKey_fits {key : String} {value : Json} {edits edits' : Edits × Option Nat}
    (hfits : edits.1.Fits) (h : parseSetKey key value edits = some edits') : edits'.1.Fits := by
  obtain ⟨e, weight⟩ := edits
  rw [parseSetKey.eq_def] at h
  dsimp only at h
  split at h
  · obtain ⟨n, hn, rfl⟩ := Option.map_eq_some_iff.mp h
    exact { hfits with
      localPref := fun m hm => Option.some.inj hm ▸ intIn?_uint32 hn (by decide) }
  · obtain ⟨n, hn, rfl⟩ := Option.map_eq_some_iff.mp h
    exact { hfits with metric := fun m hm => Option.some.inj hm ▸ intIn?_uint32 hn (by decide) }
  · obtain ⟨n, hn, rfl⟩ := Option.map_eq_some_iff.mp h
    exact { hfits with origin := fun m hm => Option.some.inj hm ▸ originId_le hn }
  · obtain ⟨addr, -, rfl⟩ := Option.map_eq_some_iff.mp h
    exact { hfits with }
  · obtain ⟨n, -, rfl⟩ := Option.map_eq_some_iff.mp h
    exact hfits
  · obtain ⟨edit, hedit, rfl⟩ := Option.map_eq_some_iff.mp h
    have hall := parseCommunityEdit_forall (fun _ _ hv => (communityValues_eq hv).1) hedit
    exact { hfits with
      community := by
        rintro mode values heq
        rw [Option.some.inj heq] at hall
        exact hall }
  · obtain ⟨edit, hedit, rfl⟩ := Option.map_eq_some_iff.mp h
    have hall := parseCommunityEdit_forall (fun _ _ hv => (largeCommunityValues_eq hv).1) hedit
    exact { hfits with
      largeCommunity := by
        rintro mode values heq
        rw [Option.some.inj heq] at hall
        exact hall }
  · obtain ⟨asns, hasns, rfl⟩ := Option.map_eq_some_iff.mp h
    exact { hfits with
      asPathPrepend := fun l hl => Option.some.inj hl ▸ parsePrepend_fits hasns }
  · simp at h

/-- What holds of no edits and is kept by each key that is read holds of a set clause. -/
theorem parseSet_rule {P : List String → Edits × Option Nat → Prop} {spec : Json}
    {out : Edits × Option Nat} (hstart : P [] ({}, none))
    (hstep : ∀ keys key value edits edits', P keys edits → spec.get? key = some value →
      parseSetKey key value edits = some edits' → P (keys ++ [key]) edits')
    (h : parseSet spec = some out) : P spec.sortedKeys out := by
  have hloop : ∀ (keys before : List String) (start out : Edits × Option Nat),
      P before start → keys.foldlM (fun edits key =>
        (spec.get? key).bind fun value => parseSetKey key value edits) start = some out →
      P (before ++ keys) out := by
    intro keys
    induction keys with
    | nil =>
      intro before start out hbefore hout
      rw [← Option.some.inj hout, List.append_nil]
      exact hbefore
    | cons key keys ih =>
      intro before start out hbefore hout
      rw [List.foldlM_cons] at hout
      obtain ⟨mid, hmid, hrest⟩ := Option.bind_eq_some_iff.mp hout
      obtain ⟨value, hvalue, hkey⟩ := Option.bind_eq_some_iff.mp hmid
      rw [List.append_cons]
      exact ih _ mid out (hstep before key value start mid hbefore hvalue hkey) hrest
  rw [parseSet.eq_def] at h
  split at h
  · rw [← Option.some.inj h]
    exact hstart
  · rw [Option.ite_none_left_eq_some] at h
    exact hloop _ [] _ _ hstart h.2

theorem parseSet_fits {spec : Json} {edits : Edits} {weight : Option Nat}
    (h : parseSet spec = some (edits, weight)) : edits.Fits := by
  have hnone : ({} : Edits).Fits := ⟨nofun, nofun, nofun, nofun, nofun, nofun⟩
  exact parseSet_rule (P := fun _ edits => edits.1.Fits) hnone
    (fun _ _ _ _ _ hbefore _ hread => parseSetKey_fits hbefore hread) h

/-- `remove_clause` with a number that is one. -/
def RouteMap.removeClause (m : RouteMap) (seq : Nat) : RouteMap :=
  if m.clauses.any fun c => c.seq = seq then
    ⟨m.version + 1, m.clauses.eraseP fun c => c.seq = seq⟩
  else m

/-- A call that changes a map. -/
inductive MapCall where
  | add (seq action matchSpec setSpec : Json)
  | remove (seq : Json)
  | clear

/-- The map a call leaves.  A call that raises leaves the map as it was. -/
def RouteMap.call (rx : RegexEngine) (m : RouteMap) : MapCall → RouteMap
  | .add seq action matchSpec setSpec =>
    match RouteMapClause.new rx seq action matchSpec setSpec with
    | some clause => m.addClause clause
    | none => m
  | .remove seq =>
    match seqNumber seq with
    | some n => m.removeClause n
    | none => m
  | .clear => m.clear

/-- The map after some calls, the first of them on an empty one. -/
def RouteMap.run (rx : RegexEngine) (calls : List MapCall) : RouteMap :=
  calls.foldl (RouteMap.call rx) RouteMap.new

/-- What a condition says of a route. -/
def Match.Means (rx : RegexEngine) (lists : Resolver) (pfx : Prefix) (attrs : Option AttrSet) :
    Match → Prop
  | .origin code => ∃ a, attrs = some a ∧ a.origin.toNat = code
  -- a route without the attribute has no value to match
  | .metric value => ∃ a med, attrs = some a ∧ a.med = some med ∧ med.toNat = value
  | .localPref value => ∃ a pref, attrs = some a ∧ a.localPref = some pref ∧ pref.toNat = value
  | .nextHop addr => ∃ a, attrs = some a ∧ a.nexthop = addr
  -- a list holds on an explicit permit, not on a deny and not on no match
  | .prefixList afi name =>
    pfx.afi = afi ∧ ∃ l, lists.prefixList name afi = some l ∧ l.evaluate pfx = some .permit
  | .asPathRegex patterns =>
    ∃ a, attrs = some a ∧ ∃ pattern ∈ patterns, rx.search pattern a.asPathStr = true
  | .asPathList name =>
    ∃ a l, attrs = some a ∧ lists.asPathList name = some l ∧
      l.evaluate rx a.asPathStr = some .permit
  | .community values exact =>
    ∃ a, attrs = some a ∧
      if exact = true then ∀ v, v ∈ communityInts a.communities ↔ v ∈ values
      else values ⊆ communityInts a.communities
  | .largeCommunity values exact =>
    ∃ a, attrs = some a ∧
      if exact = true then ∀ t, t ∈ largeTriples a.largeCommunities ↔ t ∈ values
      else values ⊆ largeTriples a.largeCommunities

/-- Every condition of a match document, in no order. -/
def ConditionsHold (rx : RegexEngine) (lists : Resolver) (pfx : Prefix)
    (attrs : Option AttrSet) (matchSpec : Json) : Prop :=
  ∀ key value test, matchSpec.get? key = some value → parseMatchKey rx key value = some test →
    test.Means rx lists pfx attrs

/-- The values of a condition are at least one, in the form the parser leaves them. -/
def Match.Parsed : Match → Prop
  | .community values _ =>
    values ≠ [] ∧ (∀ v ∈ values, v < 256 ^ 4) ∧ values = Ascending.form (· ≤ ·) values
  | .largeCommunity values _ =>
    values ≠ [] ∧ (∀ t ∈ values, LargeFits t) ∧
      values = Ascending.form (fun x y => largeLe x y = true) values
  | _ => True

theorem Json.mem_sortedKeys {j : Json} {key : String} :
    key ∈ j.sortedKeys ↔ ∃ value, j.get? key = some value := by
  rw [sortedKeys, List.mem_insertionSort]
  cases j with
  | dict fields =>
    rw [keys, get?, ← Option.isSome_iff_exists, List.lookup_isSome_iff, List.mem_map]
    constructor
    · rintro ⟨field, hmem, rfl⟩
      exact ⟨field, hmem, beq_self_eq_true field.1⟩
    · rintro ⟨field, hmem, heq⟩
      exact ⟨field, hmem, (beq_iff_eq.mp heq).symm⟩
  | null => simp [keys, get?]
  | bool b => simp [keys, get?]
  | int i => simp [keys, get?]
  | float x => simp [keys, get?]
  | str s => simp [keys, get?]
  | list items => simp [keys, get?]

theorem form_ne_nil {α : Type} [DecidableEq α] (r : α → α → Prop) [DecidableRel r] {l : List α}
    (h : l ≠ []) : Ascending.form r l ≠ [] := by
  obtain ⟨x, rest, rfl⟩ := List.exists_cons_of_ne_nil h
  intro hnil
  have hmem : x ∈ Ascending.form r (x :: rest) := (Ascending.mem_form r).mpr List.mem_cons_self
  rw [hnil] at hmem
  exact absurd hmem List.not_mem_nil

theorem communityValues_ne_nil {items : Json} {values : List Nat}
    (h : communityValues items = some values) : values ≠ [] := by
  rw [communityValues] at h
  split at h
  · obtain ⟨parsed, hparsed, rfl⟩ := Option.map_eq_some_iff.mp h
    exact form_ne_nil _ (Mapped.ne_nil hparsed)
  · simp at h

theorem largeCommunityValues_ne_nil {items : Json} {values : List LargeCommunity}
    (h : largeCommunityValues items = some values) : values ≠ [] := by
  rw [largeCommunityValues] at h
  split at h
  · obtain ⟨parsed, hparsed, rfl⟩ := Option.map_eq_some_iff.mp h
    exact form_ne_nil (fun x y => largeLe x y = true) (Mapped.ne_nil hparsed)
  · simp at h

theorem parseCommunityMatch_cases {α : Type} {parseValues : Json → Option (List α)}
    {factory : List α → Bool → Match} {value : Json} {test : Match}
    (h : parseCommunityMatch parseValues factory value = some test) :
    ∃ items values exact, parseValues items = some values ∧ test = factory values exact := by
  rw [parseCommunityMatch] at h
  split at h
  · simp only [Option.bind_eq_bind, Option.ite_none_left_eq_some, Option.bind_eq_some_iff,
      Option.some.injEq] at h
    obtain ⟨-, items, -, exact, -, values, hvalues, rfl⟩ := h
    exact ⟨items, values, exact, hvalues, rfl⟩
  · obtain ⟨values, hvalues, rfl⟩ := Option.map_eq_some_iff.mp h
    exact ⟨value, values, false, hvalues, rfl⟩

theorem parseMatchKey_parsed {rx : RegexEngine} {key : String} {value : Json} {test : Match}
    (h : parseMatchKey rx key value = some test) : test.Parsed := by
  rw [parseMatchKey.eq_def] at h
  split at h
  · simp only [parsePrefixListMatch, Option.bind_eq_bind, Option.ite_none_left_eq_some,
      Option.bind_eq_some_iff, Option.some.injEq] at h
    obtain ⟨-, _, -, -, _, -, _, -, rfl⟩ := h
    trivial
  · simp only [parsePrefixListMatch, Option.bind_eq_bind, Option.ite_none_left_eq_some,
      Option.bind_eq_some_iff, Option.some.injEq] at h
    obtain ⟨-, _, -, -, _, -, _, -, rfl⟩ := h
    trivial
  · rw [parseAsPathMatch.eq_def] at h
    split at h
    · simp only [Option.bind_eq_bind, Option.ite_none_left_eq_some, Option.bind_eq_some_iff,
        Option.some.injEq] at h
      obtain ⟨-, _, -, _, -, rfl⟩ := h
      trivial
    · obtain ⟨_, -, rfl⟩ := Option.map_eq_some_iff.mp h
      trivial
    · obtain ⟨_, -, rfl⟩ := Option.map_eq_some_iff.mp h
      trivial
    · simp at h
  · obtain ⟨items, values, exact, hvalues, rfl⟩ := parseCommunityMatch_cases h
    exact ⟨communityValues_ne_nil hvalues, communityValues_eq hvalues⟩
  · obtain ⟨items, values, exact, hvalues, rfl⟩ := parseCommunityMatch_cases h
    exact ⟨largeCommunityValues_ne_nil hvalues, largeCommunityValues_eq hvalues⟩
  · obtain ⟨_, -, rfl⟩ := Option.map_eq_some_iff.mp h
    trivial
  · obtain ⟨_, -, rfl⟩ := Option.map_eq_some_iff.mp h
    trivial
  · obtain ⟨_, -, rfl⟩ := Option.map_eq_some_iff.mp h
    trivial
  · obtain ⟨_, -, rfl⟩ := Option.map_eq_some_iff.mp h
    trivial
  · simp at h

/-- A search for packed targets is about the values that are packed. -/
theorem hasCommunities_iff {α : Type} {width : Nat} {values : Bytes → List α}
    {pack : α → Bytes} {packed : Bytes} {targets : List α} (htargets : targets ≠ [])
    (hmem : ∀ v ∈ targets, v ∈ values packed ↔ pack v ∈ groupsOf width packed)
    (hexact : packed = (targets.map pack).flatten ↔ ∀ v, v ∈ values packed ↔ v ∈ targets)
    (exact : Bool) :
    Match.hasCommunities packed (targets.map pack) width exact = true ↔
      if exact = true then ∀ v, v ∈ values packed ↔ v ∈ targets
      else targets ⊆ values packed := by
  cases exact with
  | true =>
    rw [Match.hasCommunities, if_pos rfl, if_pos rfl, beq_iff_eq]
    exact hexact
  | false =>
    rw [Match.hasCommunities, if_neg (by simp), if_neg (by simp), Bool.and_eq_true,
      decide_eq_true_eq, List.all_map, List.all_eq_true]
    constructor
    · rintro ⟨-, hall⟩ v hv
      exact (hmem v hv).mpr ((hasAligned_iff _ _ _).mp (hall v hv))
    · intro hsub
      constructor
      · rintro rfl
        obtain ⟨v, rest, rfl⟩ := List.exists_cons_of_ne_nil htargets
        have hnone := (hmem v List.mem_cons_self).mp (hsub List.mem_cons_self)
        simp [groupsOf, wholeGroups] at hnone
      · intro v hv
        exact (hasAligned_iff _ _ _).mpr ((hmem v hv).mp (hsub hv))

theorem hasCommunities_community {a : AttrSet} (ha : a.finalize = a) {values : List Nat}
    (hne : values ≠ []) (hfits : ∀ v ∈ values, v < 256 ^ 4)
    (hform : values = Ascending.form (· ≤ ·) values) (exact : Bool) :
    Match.hasCommunities a.communities (values.map packCommunity) 4 exact = true ↔
      if exact = true then ∀ v, v ∈ communityInts a.communities ↔ v ∈ values
      else values ⊆ communityInts a.communities := by
  have hcanon : sortGroups 4 a.communities = a.communities := congrArg AttrSet.communities ha
  have hpacked : (values.map packCommunity).flatten = makeCommunities values := by
    rw [makeCommunities]
    exact congrArg (fun l => (l.map packCommunity).flatten) hform
  have hinj : ∀ g g' : Bytes, g.length = 4 → g'.length = 4 →
      BigEndian.toNat g = BigEndian.toNat g' → g = g' :=
    fun g g' hg hg' heq => (BigEndian.toNat_inj (hg.trans hg'.symm)).mp heq
  apply hasCommunities_iff hne
  · exact fun v hv => mem_communityInts (hfits v hv)
  · rw [hpacked, canonical_ext_map hinj hcanon (sortGroups_makeCommunities hfits),
      ← communityInts_eq, ← communityInts_eq]
    exact forall_congr' fun v => by rw [mem_communityInts_makeCommunities hfits]

theorem hasCommunities_largeCommunity {a : AttrSet} (ha : a.finalize = a)
    {values : List LargeCommunity} (hne : values ≠ []) (hfits : ∀ t ∈ values, LargeFits t)
    (hform : values = Ascending.form (fun x y => largeLe x y = true) values) (exact : Bool) :
    Match.hasCommunities a.largeCommunities (values.map packLarge) 12 exact = true ↔
      if exact = true then ∀ t, t ∈ largeTriples a.largeCommunities ↔ t ∈ values
      else values ⊆ largeTriples a.largeCommunities := by
  have hcanon : sortGroups 12 a.largeCommunities = a.largeCommunities :=
    congrArg AttrSet.largeCommunities ha
  have hpacked : (values.map packLarge).flatten = packLargeSet values := by
    rw [packLargeSet, List.flatMap_def]
    exact congrArg (fun l => (l.map packLarge).flatten) hform
  have hinj : ∀ g g' : Bytes, g.length = 12 → g'.length = 12 → tripleOf g = tripleOf g' →
      g = g' := by
    intro g g' hg hg' heq
    rw [← packLarge_tripleOf hg, heq, packLarge_tripleOf hg']
  apply hasCommunities_iff hne
  · exact fun t ht => mem_largeTriples (hfits t ht)
  · rw [hpacked, canonical_ext_map hinj hcanon (sortGroups_packLargeSet hfits),
      ← largeTriples_eq, ← largeTriples_eq]
    exact forall_congr' fun t => by rw [mem_largeTriples_packLargeSet hfits]

section

variable (rx : RegexEngine) (lists : Resolver) (pfx : Prefix) {attrs : Option AttrSet}
  (hattrs : ∀ a, attrs = some a → a.finalize = a)
include hattrs

/-- A test answers what its condition means. -/
theorem Match.holds_iff {test : Match} (hparsed : test.Parsed) :
    test.holds rx lists pfx attrs = true ↔ test.Means rx lists pfx attrs := by
  have hany : ∀ (p : AttrSet → Bool) (P : AttrSet → Prop),
      (∀ a, attrs = some a → (p a = true ↔ P a)) →
        (attrs.any p = true ↔ ∃ a, attrs = some a ∧ P a) := by
    intro p P h
    rw [Option.any_eq_true]
    constructor
    · rintro ⟨a, ha, hp⟩
      exact ⟨a, ha, (h a ha).mp hp⟩
    · rintro ⟨a, ha, hp⟩
      exact ⟨a, ha, (h a ha).mpr hp⟩
  cases test with
  | origin code => exact hany _ _ fun a _ => beq_iff_eq
  | metric value =>
    rw [holds, Means, hany _ (fun a => ∃ med, a.med = some med ∧ med.toNat = value)]
    · simp only [exists_and_left]
    · intro a _
      simp
  | localPref value =>
    rw [holds, Means, hany _ (fun a => ∃ pref, a.localPref = some pref ∧ pref.toNat = value)]
    · simp only [exists_and_left]
    · intro a _
      simp
  | nextHop addr => exact hany _ _ fun a _ => beq_iff_eq
  | prefixList afi name =>
    rw [holds, Means, Bool.and_eq_true, beq_iff_eq, Option.any_eq_true]
    simp only [PrefixList.permits, beq_iff_eq]
  | asPathRegex patterns => exact hany _ _ fun a _ => List.any_eq_true
  | asPathList name =>
    rw [holds, Means, hany _ (fun a => ∃ l, lists.asPathList name = some l ∧
      l.evaluate rx a.asPathStr = some .permit)]
    · simp only [exists_and_left]
    · intro a _
      rw [Option.any_eq_true]
      simp only [AsPathList.permits, beq_iff_eq]
  | community values exact =>
    obtain ⟨hne, hfits, hform⟩ := hparsed
    exact hany _ _ fun a ha => hasCommunities_community (hattrs a ha) hne hfits hform exact
  | largeCommunity values exact =>
    obtain ⟨hne, hfits, hform⟩ := hparsed
    exact hany _ _ fun a ha => hasCommunities_largeCommunity (hattrs a ha) hne hfits hform exact

/-- The tests of a clause hold together when its conditions do, in whatever order they are
tried. -/
theorem tests_iff {matchSpec : Json} {tests : List Match}
    (hparse : parseMatch rx matchSpec = some tests) :
    (tests.all fun test => test.holds rx lists pfx attrs) = true ↔
      ConditionsHold rx lists pfx attrs matchSpec := by
  rw [List.all_eq_true, ConditionsHold]
  rw [parseMatch.eq_def] at hparse
  split at hparse
  · rw [← Option.some.inj hparse]
    simp [Json.get?]
  · simp only [Option.ite_none_left_eq_some] at hparse
    obtain ⟨parsed, hparsed, rfl⟩ := Option.map_eq_some_iff.mp hparse.2
    constructor
    · intro hall key value test hvalue htest
      obtain ⟨test', hmem, heq⟩ :=
        Mapped.exists_of_mem_left hparsed (Json.mem_sortedKeys.mpr ⟨value, hvalue⟩)
      rw [hvalue, Option.bind_some, htest] at heq
      obtain rfl := Option.some.inj heq
      apply (Match.holds_iff rx lists pfx hattrs (parseMatchKey_parsed htest)).mp
      exact hall test ((List.mem_insertionSort _).mpr hmem)
    · intro hall test hmem
      obtain ⟨key, -, heq⟩ :=
        Mapped.exists_of_mem_right hparsed ((List.mem_insertionSort _).mp hmem)
      obtain ⟨value, hvalue, htest⟩ := Option.bind_eq_some_iff.mp heq
      exact (Match.holds_iff rx lists pfx hattrs (parseMatchKey_parsed htest)).mpr
        (hall key value test hvalue htest)

end

/-- A clause as it was configured. -/
structure FiledClause where
  action : Action
  matchSpec : Json
  edits : Edits
  weight : Option Nat

/-- What a call does to the clauses filed under each number. -/
def fileCall (rx : RegexEngine) (filed : Nat → Option FiledClause) :
    MapCall → Nat → Option FiledClause
  | .add seq action matchSpec setSpec =>
    match RouteMapClause.new rx seq action matchSpec setSpec with
    | some c => Function.update filed c.seq (some ⟨c.action, matchSpec, c.edits, c.weight⟩)
    | none => filed
  | .remove seq =>
    match seqNumber seq with
    | some n => Function.update filed n none
    | none => filed
  | .clear => fun _ => none

/-- The last clause added under each number and neither removed nor cleared since. -/
def filedClauses (rx : RegexEngine) (calls : List MapCall) : Nat → Option FiledClause :=
  calls.foldl (fileCall rx) fun _ => none

/-- A map holds the clauses that are filed, in their order. -/
structure RouteMap.Files (rx : RegexEngine) (filed : Nat → Option FiledClause) (m : RouteMap) :
    Prop where
  ascending : Sequenced.Ascending RouteMapClause.seq m.clauses
  mem_iff : ∀ c, c ∈ m.clauses ↔ ∃ f, filed c.seq = some f ∧
    f.action = c.action ∧ f.edits = c.edits ∧ f.weight = c.weight ∧
      parseMatch rx f.matchSpec = some c.tests
  present : ∀ n f, filed n = some f → ∃ c ∈ m.clauses, c.seq = n

theorem RouteMapClause.new_tests {rx : RegexEngine} {seq action matchSpec setSpec : Json}
    {c : RouteMapClause} (h : RouteMapClause.new rx seq action matchSpec setSpec = some c) :
    parseMatch rx matchSpec = some c.tests := by
  simp only [RouteMapClause.new, Option.bind_eq_bind, Option.bind_eq_some_iff,
    Option.some.injEq] at h
  obtain ⟨_, -, _, -, tests, htests, _, -, rfl⟩ := h
  exact htests

/-- A clause is what was filed for it. -/
theorem RouteMap.Files.add {rx : RegexEngine} {filed : Nat → Option FiledClause} {m : RouteMap}
    (h : m.Files rx filed) {c : RouteMapClause} {matchSpec : Json}
    (htests : parseMatch rx matchSpec = some c.tests) :
    (m.addClause c).Files rx
      (Function.update filed c.seq (some ⟨c.action, matchSpec, c.edits, c.weight⟩)) where
  ascending := h.ascending.insert c
  mem_iff x := by
    rw [RouteMap.addClause, h.ascending.mem_insert_iff]
    by_cases hseq : x.seq = c.seq
    · rw [hseq, Function.update_self]
      constructor
      · rintro (rfl | ⟨-, hne⟩)
        · exact ⟨_, rfl, rfl, rfl, rfl, htests⟩
        · exact absurd rfl hne
      · rintro ⟨f, hf, haction, hedits, hweight, hparse⟩
        obtain rfl := Option.some.inj hf
        rw [htests, Option.some.injEq] at hparse
        obtain ⟨seq, action, tests, edits, weight⟩ := x
        obtain ⟨seq', action', tests', edits', weight'⟩ := c
        simp only at hseq haction hedits hweight hparse
        subst hseq haction hedits hweight hparse
        exact .inl rfl
    · rw [Function.update_of_ne hseq, ← h.mem_iff]
      constructor
      · rintro (rfl | ⟨hmem, -⟩)
        · exact absurd rfl hseq
        · exact hmem
      · exact fun hmem => .inr ⟨hmem, hseq⟩
  present n f hf := by
    by_cases hseq : n = c.seq
    · exact ⟨c, (h.ascending.mem_insert_iff).mpr (.inl rfl), hseq.symm⟩
    · rw [Function.update_of_ne hseq] at hf
      obtain ⟨x, hx, hxseq⟩ := h.present n f hf
      exact ⟨x, (h.ascending.mem_insert_iff).mpr (.inr ⟨hx, hxseq ▸ hseq⟩), hxseq⟩

theorem RouteMap.Files.remove {rx : RegexEngine} {filed : Nat → Option FiledClause}
    {m : RouteMap} (h : m.Files rx filed) (n : Nat) :
    (m.removeClause n).Files rx (Function.update filed n none) := by
  have hkept : (m.removeClause n).clauses = m.clauses.filter fun c => c.seq ≠ n := by
    rw [RouteMap.removeClause]
    split
    · exact h.ascending.eraseP_eq_filter
    · next hnone =>
        rw [List.any_eq_true] at hnone
        refine (List.filter_eq_self.mpr ?_).symm
        intro c hc
        exact decide_eq_true fun heq => hnone ⟨c, hc, decide_eq_true heq⟩
  constructor
  · rw [hkept]
    exact h.ascending.filter _
  · intro c
    rw [hkept, List.mem_filter, decide_eq_true_eq, h.mem_iff]
    by_cases hseq : c.seq = n
    · rw [hseq, Function.update_self]
      simp
    · rw [Function.update_of_ne hseq, and_iff_left hseq]
  · intro k f hf
    by_cases hseq : k = n
    · rw [hseq, Function.update_self] at hf
      simp at hf
    · rw [Function.update_of_ne hseq] at hf
      obtain ⟨x, hx, hxseq⟩ := h.present k f hf
      rw [hkept]
      exact ⟨x, List.mem_filter.mpr ⟨hx, decide_eq_true (hxseq ▸ hseq)⟩, hxseq⟩

theorem RouteMap.Files.call {rx : RegexEngine} {filed : Nat → Option FiledClause} {m : RouteMap}
    (h : m.Files rx filed) (c : MapCall) : (m.call rx c).Files rx (fileCall rx filed c) := by
  cases c with
  | add seq action matchSpec setSpec =>
    rw [RouteMap.call, fileCall]
    cases hnew : RouteMapClause.new rx seq action matchSpec setSpec with
    | none => exact h
    | some c => exact h.add (RouteMapClause.new_tests hnew)
  | remove seq =>
    rw [RouteMap.call, fileCall]
    cases seqNumber seq with
    | none => exact h
    | some n => exact h.remove n
  | clear =>
    exact ⟨List.Pairwise.nil, fun c => by simp [RouteMap.call, RouteMap.clear, fileCall],
      fun n f hf => by simp [fileCall] at hf⟩

theorem RouteMap.files_run (rx : RegexEngine) (calls : List MapCall) :
    (RouteMap.run rx calls).Files rx (filedClauses rx calls) := by
  have hrun : ∀ (calls : List MapCall) (m : RouteMap) (filed : Nat → Option FiledClause),
      m.Files rx filed →
        (calls.foldl (RouteMap.call rx) m).Files rx (calls.foldl (fileCall rx) filed) := by
    intro calls
    induction calls with
    | nil => exact fun m filed h => h
    | cons c calls ih => exact fun m filed h => ih _ _ (h.call c)
  apply hrun
  exact ⟨List.Pairwise.nil, fun c => by simp [RouteMap.new], fun n f hf => by simp at hf⟩

/-- A route-map decides like its specification. -/
theorem RouteMap.apply_run (rx : RegexEngine) (lists : Resolver) (calls : List MapCall)
    (pfx : Prefix) (attrs : Option AttrSet) (hattrs : ∀ a, attrs = some a → a.finalize = a) :
    (∃ seq clause, filedClauses rx calls seq = some clause ∧
      ConditionsHold rx lists pfx attrs clause.matchSpec ∧
      (∀ n < seq, ∀ other, filedClauses rx calls n = some other →
        ¬ConditionsHold rx lists pfx attrs other.matchSpec) ∧
      (RouteMap.run rx calls).apply rx lists pfx attrs =
        if clause.action = .permit then
          ⟨.permit, some seq, clause.edits, clause.weight, true⟩
        else ⟨.deny, some seq, {}, none, true⟩) ∨
    (∀ n other, filedClauses rx calls n = some other →
      ¬ConditionsHold rx lists pfx attrs other.matchSpec) ∧
      (RouteMap.run rx calls).apply rx lists pfx attrs = ⟨.deny, none, {}, none, false⟩ := by
  have hfiles := RouteMap.files_run rx calls
  generalize RouteMap.run rx calls = m at hfiles ⊢
  generalize filedClauses rx calls = filed at hfiles ⊢
  have hholds : ∀ c : RouteMapClause, ∀ spec, parseMatch rx spec = some c.tests →
      (c.holds rx lists pfx attrs = true ↔ ConditionsHold rx lists pfx attrs spec) :=
    fun c spec hparse => tests_iff rx lists pfx hattrs hparse
  -- what is filed under a number is a clause that holds when its conditions do
  have hclause : ∀ n f, filed n = some f → ∃ c ∈ m.clauses, c.seq = n ∧
      f.action = c.action ∧ f.edits = c.edits ∧ f.weight = c.weight ∧
        (c.holds rx lists pfx attrs = true ↔ ConditionsHold rx lists pfx attrs f.matchSpec) := by
    intro n f hf
    obtain ⟨c, hc, rfl⟩ := hfiles.present n f hf
    obtain ⟨f', hf', haction, hedits, hweight, hparse⟩ := (hfiles.mem_iff c).mp hc
    rw [hf, Option.some.injEq] at hf'
    subst hf'
    exact ⟨c, hc, rfl, haction, hedits, hweight, hholds c _ hparse⟩
  cases hfind : m.clauses.find? fun c => c.holds rx lists pfx attrs with
  | none =>
    right
    constructor
    · intro n other hother hcond
      obtain ⟨c, hc, -, -, -, -, hiff⟩ := hclause n other hother
      exact List.find?_eq_none.mp hfind c hc (hiff.mpr hcond)
    · rw [RouteMap.apply, hfind]
  | some c =>
    left
    obtain ⟨hmem, hc, hlow⟩ := (hfiles.ascending.find?_eq_some_iff).mp hfind
    obtain ⟨f, hf, haction, hedits, hweight, hparse⟩ := (hfiles.mem_iff c).mp hmem
    refine ⟨c.seq, f, hf, (hholds c _ hparse).mp hc, ?_, ?_⟩
    · intro n hn other hother hcond
      obtain ⟨c', hc', rfl, -, -, -, hiff⟩ := hclause n other hother
      have hfalse := hlow c' hc' hn
      rw [hiff.mpr hcond] at hfalse
      exact absurd hfalse (by simp)
    · rw [RouteMap.apply, hfind, haction, hedits, hweight]

/-- Two clauses under one number, and one before them that is removed again. -/
def tagCalls : List MapCall := [ .add (.int 20) (.str "deny") .null .null,
  .add (.int 10) (.str "deny") .null .null,
  .remove (.int 10),
  .add (.int 20) (.str "permit") (.dict [("metric", .int 7)]) (.dict [("weight", .int 5)])]

/-- Every pattern is found, and no list is defined. -/
def anyRegex : RegexEngine := ⟨fun _ => true, fun _ _ => true⟩

def noLists : Resolver := ⟨fun _ _ => none, fun _ => none⟩

def taggedNet : Prefix := .ipv4 203 0 113 0 24

theorem RouteMap.apply_run_tagged : ∃ clause, filedClauses anyRegex tagCalls 20 = some clause ∧
    ConditionsHold anyRegex noLists taggedNet (some { med := some 7 }) clause.matchSpec := by
  have hresult : (RouteMap.run anyRegex tagCalls).apply anyRegex noLists taggedNet
      (some { med := some 7 }) = ⟨.permit, some 20, {}, some 5, true⟩ := by decide +kernel
  have hcanonical : ∀ a : AttrSet, some { med := some 7 } = some a → a.finalize = a := by
    intro a ha
    rw [← Option.some.inj ha]
    rfl
  rcases RouteMap.apply_run anyRegex noLists tagCalls taggedNet (some { med := some 7 })
    hcanonical with ⟨seq, clause, hfiled, hcond, -, happly⟩ | ⟨-, happly⟩
  · rw [hresult] at happly
    split at happly
    · simp only [RouteMapResult.mk.injEq, Option.some.injEq] at happly
      obtain ⟨-, rfl, -⟩ := happly
      exact ⟨clause, hfiled, hcond⟩
    · simp at happly
  · rw [hresult] at happly
    simp at happly

end Packets
