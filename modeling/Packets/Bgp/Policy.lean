/-
Policy bound to BGP attribute sets (`plugins/bgp/policy.py`).

The canonical form of a community attribute is its records in ascending order, each once; what
a value means is its set of records.
-/
import Packets.Policy.Store
import Packets.Lib.Ascending

namespace Packets

/-- `_community_ints`: the whole communities of an attribute. -/
def communityInts (packed : Bytes) : List Nat := rdGroups 4 (packed.length / 4) packed

/-- `_large_triples`: the whole large communities of an attribute. -/
def largeTriples (packed : Bytes) : List LargeCommunity :=
  (wholeGroups 12 (packed.length / 12) packed).map fun group =>
    (BigEndian.toNat (group.take 4), BigEndian.toNat ((group.drop 4).take 4),
      BigEndian.toNat (group.drop 8))

/-- `_pack_large`: packed, sorted and without duplicates. -/
def packLargeSet (triples : List LargeCommunity) : Bytes :=
  (triples.dedup.insertionSort fun x y => largeLe x y).flatMap packLarge

/-- `_prepend_one`: put one AS at the front of a decoded AS_PATH. -/
def prependOne (segments : List Segment) (asn : Nat) : List Segment :=
  match segments with
  | head :: rest =>
    if head.1 = AS_SEQUENCE ∧ head.2.length < 255 then
      (head.1, asn :: head.2) :: rest
    else (AS_SEQUENCE, [asn]) :: head :: rest
  | [] => [(AS_SEQUENCE, [asn])]

/-- The new value of a community attribute. -/
def editCommunities {α : Type} (ints : Bytes → List α) (pack : List α → Bytes)
    (held : Bytes) : Option (CommunityMode × List α) → Bytes
  | none => held
  | some (.none, _) => []
  | some (.add, values) => pack (ints held ++ values)
  | some (.set, values) => pack values

/-- `apply_sets`: a new attribute set with the edits of a clause.  `none` is the
`ValueError` of a next hop of another width. -/
def applySets (a : AttrSet) (sets : Edits) : Option AttrSet :=
  if sets = {} then some a
  else if (sets.nexthop.any fun addr => a.nexthop ≠ [] && addr.length ≠ a.nexthop.length) then none
  else do
    let asPath ←
      match sets.asPathPrepend with
      | none => some a.asPath
      | some asns => makeAsPath (asns.reverse.foldl prependOne a.asPathList)
    let edited : AttrSet := { a with
      localPref := (sets.localPref.map UInt32.ofNat).or a.localPref
      med := (sets.metric.map UInt32.ofNat).or a.med
      origin := (sets.origin.map UInt8.ofNat).getD a.origin
      nexthop := sets.nexthop.getD a.nexthop
      nexthopLocal := if sets.nexthop.isSome then [] else a.nexthopLocal
      communities := editCommunities communityInts makeCommunities a.communities sets.community
      largeCommunities :=
        editCommunities largeTriples packLargeSet a.largeCommunities sets.largeCommunity
      asPath := asPath }
    some edited.finalize

/-- What a chain decided about one path. -/
structure PolicyOutcome where
  attrs : AttrSet
  weight : Option Nat
  /-- The route-map clause that decided. -/
  clause : Option Nat
deriving DecidableEq

/-- One link of a chain: not configured, configured but not defined, or the
object. -/
inductive ChainLink (α : Type) where
  | unset
  | missing
  | found (a : α)

/-- The link for a configured name. -/
def ChainLink.of {α : Type} (name : Option String) (lookup : String → Option α) : ChainLink α :=
  match name with
  | none => .unset
  | some name =>
    match lookup name with
    | none => .missing
    | some a => .found a

theorem ChainLink.of_eq_found {α : Type} {name : Option String} {lookup : String → Option α}
    {a : α} (h : ChainLink.of name lookup = .found a) : ∃ n, name = some n ∧ lookup n = some a := by
  unfold ChainLink.of at h
  split at h
  · exact absurd h (by simp)
  · rename_i n
    split at h
    · exact absurd h (by simp)
    · rename_i found hfound
      cases h
      exact ⟨n, rfl, hfound⟩

/-- One direction's filters and route-map for one peer and family. -/
structure PolicyChain where
  prefixList : ChainLink PrefixList
  asPathList : ChainLink AsPathList
  routeMap : ChainLink RouteMap

/-- `empty`: whether nothing is configured. -/
def PolicyChain.empty (chain : PolicyChain) : Bool :=
  match chain.prefixList, chain.asPathList, chain.routeMap with
  | .unset, .unset, .unset => true
  | _, _, _ => false

/-- `PERMIT_ALL_IN` and `PERMIT_ALL_OUT`. -/
def PERMIT_ALL : PolicyChain := ⟨.unset, .unset, .unset⟩

/-- Whether a filter lets a route on.  A missing list denies everything. -/
def ChainLink.permits {α : Type} (test : α → Bool) : ChainLink α → Bool
  | .unset => true
  | .missing => false
  | .found a => test a

/-- `apply`: run the chain over one path, `none` when it is filtered.  An edit that
cannot be applied leaves the path as it was. -/
def PolicyChain.apply (rx : RegexEngine) (lists : Resolver) (chain : PolicyChain)
    (pfx : Prefix) (attrs : AttrSet) : Option PolicyOutcome :=
  if !chain.prefixList.permits fun l => l.permits pfx then none
  else if !chain.asPathList.permits fun l => l.permits rx attrs.asPathStr then none
  else
    match chain.routeMap with
    | .unset => some ⟨attrs, none, none⟩
    | .missing => none
    | .found m =>
      let result := m.apply rx lists pfx (some attrs)
      if result.action ≠ .permit then none
      else some ⟨(applySets attrs result.sets).getD attrs, result.weight, result.clause⟩

/-- The policy names of one direction. -/
structure PolicyNames where
  prefixList : Option String := none
  filterList : Option String := none
  routeMap : Option String := none
deriving DecidableEq, Inhabited

/-- A name that is configured; an empty one is not. -/
def configured (name : Option String) : Option String := name.filter fun n => n ≠ ""

/-- `build_chain`: a chain from configured names against the store. -/
def buildChain (store : PolicyStore) (names : PolicyNames) (afi : Nat) : PolicyChain where
  prefixList := .of (configured names.prefixList) fun name => store.prefixList name afi
  asPathList := .of (configured names.filterList) store.asPathList
  routeMap := .of (configured names.routeMap) store.routeMap

/-- What the chain built from a neighbour's names does with a route now. -/
def chainOutcome (rx : RegexEngine) (store : PolicyStore) (names : PolicyNames)
    (afi : Nat) (pfx : Prefix) (attrs : AttrSet) : Option PolicyOutcome :=
  (buildChain store names afi).apply rx store.resolver pfx attrs

/-- The kind `version_of` is asked for a prefix-list of a family. -/
def prefixListLookup (afi : Nat) : PolicyKind :=
  if afi = AFI_IP6 then .ipv6PrefixList else .prefixList

/-- A configured name with the version of the object it names. -/
def citation (store : PolicyStore) (kind : PolicyKind) (name : Option String) :
    Option (String × Option Nat) :=
  (configured name).map fun n => (n, store.versionOf kind n)

/-- `_policy_id`: a `(kind, name, version)` triple for every configured name, in
order of kind. -/
def policyId (store : PolicyStore) (names : PolicyNames) (afi : Nat) :
    List (PolicyKind × String × Option Nat) :=
  ((citation store .asPath names.filterList).toList.map fun c => (.asPath, c)) ++
  ((citation store (prefixListLookup afi) names.prefixList).toList.map fun c => (.prefixList, c)) ++
  ((citation store .routeMap names.routeMap).toList.map fun c => (.routeMap, c))

/-- The whole records of a value. -/
def groupsOf (width : Nat) (v : Bytes) : List Bytes := wholeGroups width (v.length / width) v

theorem length_wholeGroups (width n : Nat) (v : Bytes) : (wholeGroups width n v).length = n := by
  induction n generalizing v with
  | zero => rfl
  | succ n ih => rw [wholeGroups, List.length_cons, ih]

theorem length_of_mem_wholeGroups {width n : Nat} {v g : Bytes} (h : n * width ≤ v.length)
    (hg : g ∈ wholeGroups width n v) : g.length = width := by
  induction n generalizing v with
  | zero => exact absurd hg List.not_mem_nil
  | succ n ih =>
    rw [Nat.succ_mul] at h
    rcases List.mem_cons.mp hg with rfl | htail
    · exact List.length_take_of_le (by omega)
    · exact ih (by rw [List.length_drop]; omega) htail

theorem length_of_mem_groupsOf {width : Nat} {v g : Bytes} (hg : g ∈ groupsOf width v) :
    g.length = width :=
  length_of_mem_wholeGroups (Nat.div_mul_le_self _ _) hg

theorem flatten_wholeGroups (width n : Nat) (v : Bytes) :
    (wholeGroups width n v).flatten = v.take (n * width) := by
  induction n generalizing v with
  | zero => simp [wholeGroups]
  | succ n ih => rw [wholeGroups, List.flatten_cons, ih, Nat.succ_mul, Nat.add_comm, List.take_add]

theorem length_flatten_groups {width : Nat} {gs : List Bytes} (h : ∀ g ∈ gs, g.length = width) :
    gs.flatten.length = gs.length * width := by
  induction gs with
  | nil => simp
  | cons g gs ih =>
    rw [List.flatten_cons, List.length_append, h g List.mem_cons_self,
      ih fun g' hg' => h g' (List.mem_cons_of_mem g hg'), List.length_cons, Nat.succ_mul,
      Nat.add_comm]

theorem wholeGroups_flatten {width : Nat} {gs : List Bytes}
    (h : ∀ g ∈ gs, g.length = width) : wholeGroups width gs.length gs.flatten = gs := by
  induction gs with
  | nil => rfl
  | cons g gs ih =>
    have hg := h g List.mem_cons_self
    rw [List.length_cons, wholeGroups, List.flatten_cons, List.take_left' hg,
      List.drop_left' hg, ih fun g' hg' => h g' (List.mem_cons_of_mem g hg')]

theorem groupsOf_flatten {width : Nat} (hwidth : 0 < width) {gs : List Bytes}
    (h : ∀ g ∈ gs, g.length = width) : groupsOf width gs.flatten = gs := by
  rw [groupsOf, length_flatten_groups h, Nat.mul_div_cancel _ hwidth, wholeGroups_flatten h]

theorem wholeGroups_getElem? (width n i : Nat) (v : Bytes) (h : i < n) :
    (wholeGroups width n v)[i]? = some ((v.drop (i * width)).take width) := by
  induction n generalizing i v with
  | zero => omega
  | succ n ih =>
    cases i with
    | zero => simp [wholeGroups]
    | succ i =>
      rw [wholeGroups, List.getElem?_cons_succ, ih i _ (by omega), List.drop_drop,
        Nat.succ_mul, Nat.add_comm]

/-- A value on a boundary is one of the records. -/
theorem hasAligned_iff (packed target : Bytes) (stride : Nat) :
    hasAligned packed target stride = true ↔ target ∈ groupsOf stride packed := by
  rw [hasAligned, List.any_eq_true, groupsOf]
  constructor
  · rintro ⟨i, hi, heq⟩
    have hlt := List.mem_range.mp hi
    apply List.mem_of_getElem? (i := i)
    rw [wholeGroups_getElem? stride _ i packed hlt, beq_iff_eq.mp heq]
  · intro hmem
    obtain ⟨i, hi, hget⟩ := List.mem_iff_getElem.mp hmem
    rw [length_wholeGroups] at hi
    refine ⟨i, List.mem_range.mpr hi, beq_iff_eq.mpr ?_⟩
    have hsome := List.getElem?_eq_getElem (l := wholeGroups stride (packed.length / stride) packed)
      (i := i) (by rw [length_wholeGroups]; exact hi)
    rw [wholeGroups_getElem? stride _ i packed hi, hget] at hsome
    exact Option.some.inj hsome

theorem sortGroups_eq_form (width : Nat) (v : Bytes) :
    sortGroups width v = (Ascending.form (· ≤ ·) (groupsOf width v)).flatten := rfl

theorem groupsOf_sortGroups {width : Nat} (hwidth : 0 < width) (v : Bytes) :
    groupsOf width (sortGroups width v) = Ascending.form (· ≤ ·) (groupsOf width v) := by
  rw [sortGroups_eq_form]
  apply groupsOf_flatten hwidth
  intro g hg
  exact length_of_mem_groupsOf ((Ascending.mem_form _).mp hg)

theorem sortGroups_congr {width : Nat} {v w : Bytes}
    (h : ∀ g, g ∈ groupsOf width v ↔ g ∈ groupsOf width w) :
    sortGroups width v = sortGroups width w := by
  rw [sortGroups_eq_form, sortGroups_eq_form, Ascending.form_congr (· ≤ ·) h]

theorem sortGroups_sortGroups {width : Nat} (hwidth : 0 < width) (v : Bytes) :
    sortGroups width (sortGroups width v) = sortGroups width v := by
  rw [sortGroups_eq_form width (sortGroups width v), groupsOf_sortGroups hwidth,
    Ascending.form_form, sortGroups_eq_form]

theorem canonical_ext {width : Nat} {v w : Bytes} (hv : sortGroups width v = v)
    (hw : sortGroups width w = w) : v = w ↔ ∀ g, g ∈ groupsOf width v ↔ g ∈ groupsOf width w := by
  constructor
  · intro h g
    rw [h]
  · intro h
    rw [← hv, ← hw, sortGroups_congr h]

/-- Canonical values are equal exactly when they hold the same values, however the records
are read. -/
theorem canonical_ext_map {α : Type} {width : Nat} {v w : Bytes} {f : Bytes → α}
    (hinj : ∀ g g' : Bytes, g.length = width → g'.length = width → f g = f g' → g = g')
    (hv : sortGroups width v = v) (hw : sortGroups width w = w) :
    v = w ↔ ∀ x, x ∈ (groupsOf width v).map f ↔ x ∈ (groupsOf width w).map f := by
  have hmem : ∀ (u g : Bytes), g.length = width →
      (f g ∈ (groupsOf width u).map f ↔ g ∈ groupsOf width u) := by
    intro u g hg
    constructor
    · intro h
      obtain ⟨g', hg', heq⟩ := List.mem_map.mp h
      rwa [hinj g g' hg (length_of_mem_groupsOf hg') heq.symm]
    · exact List.mem_map_of_mem
  constructor
  · intro h x
    rw [h]
  · intro h
    apply (canonical_ext hv hw).mpr
    intro g
    by_cases hlen : g.length = width
    · rw [← hmem v g hlen, ← hmem w g hlen]
      exact h (f g)
    · exact iff_of_false (fun hg => hlen (length_of_mem_groupsOf hg))
        fun hg => hlen (length_of_mem_groupsOf hg)

/-- `_sort_groups`: a strictly ascending value is returned as it is, and only another is
taken apart. -/
def sortGroupsOnce (width : Nat) (v : Bytes) : Bytes :=
  let count := v.length / width
  if count < 2 then v.take (count * width)
  else if v.length = count * width ∧ (groupsOf width v).IsChain (· < ·) then v
  else (sortedSet (groupsOf width v)).flatten

/-- The shortcut changes nothing. -/
theorem sortGroupsOnce_eq (width : Nat) (v : Bytes) :
    sortGroupsOnce width v = sortGroups width v := by
  have hflat : (groupsOf width v).flatten = v.take (v.length / width * width) :=
    flatten_wholeGroups _ _ _
  have hsorted : ∀ h : (groupsOf width v).Pairwise (· < ·),
      sortGroups width v = v.take (v.length / width * width) := by
    intro h
    rw [sortGroups_eq_form, Ascending.form_eq_self, hflat]
    · exact h.imp fun hlt => List.le_of_lt hlt
    · have hne : ∀ {g g' : Bytes}, g < g' → g ≠ g' := by
        rintro g _ hlt rfl
        exact List.lt_irrefl g hlt
      exact h.imp hne
  rw [sortGroupsOnce]
  split
  · next hfew =>
      rw [hsorted]
      have hlen : (groupsOf width v).length < 2 := by rwa [groupsOf, length_wholeGroups]
      match hgs : groupsOf width v, hlen with
      | [], _ => exact List.Pairwise.nil
      | [g], _ => exact List.pairwise_singleton _ g
  · split
    · next hrun => rw [hsorted (List.isChain_iff_pairwise.mp hrun.2), ← hrun.1, List.take_length]
    · rfl

theorem rdGroups_eq (width n : Nat) (v : Bytes) :
    rdGroups width n v = (wholeGroups width n v).map BigEndian.toNat := by
  induction n generalizing v with
  | zero => rfl
  | succ n ih => rw [rdGroups, wholeGroups, List.map_cons, ih]

theorem communityInts_eq (packed : Bytes) :
    communityInts packed = (groupsOf 4 packed).map BigEndian.toNat := rdGroups_eq _ _ _

theorem mem_communityInts {packed : Bytes} {value : Nat} (h : value < 256 ^ 4) :
    value ∈ communityInts packed ↔ packCommunity value ∈ groupsOf 4 packed := by
  rw [communityInts_eq, List.mem_map]
  constructor
  · rintro ⟨g, hg, rfl⟩
    rw [packCommunity, BigEndian.ofNat_toNat (length_of_mem_groupsOf hg)]
    exact hg
  · intro hmem
    exact ⟨_, hmem, BigEndian.toNat_ofNat h⟩

theorem communityInts_lt {packed : Bytes} {value : Nat} (h : value ∈ communityInts packed) :
    value < 256 ^ 4 := by
  rw [communityInts_eq, List.mem_map] at h
  obtain ⟨g, hg, rfl⟩ := h
  have hlt := BigEndian.toNat_lt g
  rwa [length_of_mem_groupsOf hg] at hlt

theorem makeCommunities_eq {values : List Nat} (h : ∀ v ∈ values, v < 256 ^ 4) :
    makeCommunities values = (Ascending.form (· ≤ ·) (values.map packCommunity)).flatten := by
  rw [makeCommunities, ← Ascending.map_form (· ≤ ·) (· ≤ ·)]
  · rfl
  · intro x hx y hy hxy
    exact (BigEndian.ofNat_le_ofNat_iff (h x hx) (h y hy)).mpr hxy
  · intro x hx y hy hxy
    have hnat := congrArg BigEndian.toNat hxy
    rwa [packCommunity, packCommunity, BigEndian.toNat_ofNat (h x hx),
      BigEndian.toNat_ofNat (h y hy)] at hnat

theorem groupsOf_makeCommunities {values : List Nat} (h : ∀ v ∈ values, v < 256 ^ 4) :
    groupsOf 4 (makeCommunities values) = Ascending.form (· ≤ ·) (values.map packCommunity) := by
  rw [makeCommunities_eq h]
  apply groupsOf_flatten (by decide)
  intro g hg
  obtain ⟨v, -, rfl⟩ := List.mem_map.mp ((Ascending.mem_form _).mp hg)
  exact BigEndian.length_ofNat 4 v

theorem sortGroups_makeCommunities {values : List Nat} (h : ∀ v ∈ values, v < 256 ^ 4) :
    sortGroups 4 (makeCommunities values) = makeCommunities values := by
  rw [sortGroups_eq_form, groupsOf_makeCommunities h, Ascending.form_form, makeCommunities_eq h]

theorem mem_communityInts_makeCommunities {values : List Nat} (h : ∀ v ∈ values, v < 256 ^ 4)
    (value : Nat) : value ∈ communityInts (makeCommunities values) ↔ value ∈ values := by
  rw [communityInts_eq, groupsOf_makeCommunities h, List.mem_map]
  constructor
  · rintro ⟨g, hg, rfl⟩
    obtain ⟨v, hv, rfl⟩ := List.mem_map.mp ((Ascending.mem_form _).mp hg)
    rw [packCommunity, BigEndian.toNat_ofNat (h v hv)]
    exact hv
  · intro hmem
    exact ⟨packCommunity value, (Ascending.mem_form _).mpr (List.mem_map_of_mem hmem),
      BigEndian.toNat_ofNat (h value hmem)⟩

/-- The three parts of a large community fit 32 bits each. -/
def LargeFits (value : LargeCommunity) : Prop :=
  value.1 < 256 ^ 4 ∧ value.2.1 < 256 ^ 4 ∧ value.2.2 < 256 ^ 4

/-- The parts of one record. -/
def tripleOf (group : Bytes) : LargeCommunity :=
  (BigEndian.toNat (group.take 4), BigEndian.toNat ((group.drop 4).take 4),
    BigEndian.toNat (group.drop 8))

theorem largeTriples_eq (packed : Bytes) :
    largeTriples packed = (groupsOf 12 packed).map tripleOf := rfl

@[simp] theorem length_packLarge (value : LargeCommunity) : (packLarge value).length = 12 := by
  simp [packLarge]

theorem tripleOf_packLarge {value : LargeCommunity} (h : LargeFits value) :
    tripleOf (packLarge value) = value := by
  obtain ⟨a, b, c⟩ := value
  obtain ⟨ha, hb, hc⟩ := h
  have hdrop : (BigEndian.ofNat 4 a ++ BigEndian.ofNat 4 b ++ BigEndian.ofNat 4 c).drop 8 =
      BigEndian.ofNat 4 c := List.drop_left' (by simp)
  simp only [tripleOf, packLarge, hdrop]
  rw [List.append_assoc, List.take_left' (BigEndian.length_ofNat 4 a),
    List.drop_left' (BigEndian.length_ofNat 4 a), List.take_left' (BigEndian.length_ofNat 4 b),
    BigEndian.toNat_ofNat ha, BigEndian.toNat_ofNat hb, BigEndian.toNat_ofNat hc]

theorem packLarge_tripleOf {g : Bytes} (h : g.length = 12) : packLarge (tripleOf g) = g := by
  have hhead : (g.take 4).length = 4 := by simp [h]
  have hmid : ((g.drop 4).take 4).length = 4 := by simp [h]
  have hlast : (g.drop 8).length = 4 := by simp [h]
  have hdrop : g.drop 8 = (g.drop 4).drop 4 := by rw [List.drop_drop]
  rw [packLarge, tripleOf, BigEndian.ofNat_toNat hhead, BigEndian.ofNat_toNat hmid,
    BigEndian.ofNat_toNat hlast, hdrop, List.append_assoc, List.take_append_drop,
    List.take_append_drop]

theorem largeFits_tripleOf {g : Bytes} (h : g.length = 12) : LargeFits (tripleOf g) := by
  have hhead := BigEndian.toNat_lt (g.take 4)
  have hmid := BigEndian.toNat_lt ((g.drop 4).take 4)
  have hlast := BigEndian.toNat_lt (g.drop 8)
  rw [List.length_take, h] at hhead
  rw [List.length_take, List.length_drop, h] at hmid
  rw [List.length_drop, h] at hlast
  exact ⟨hhead, hmid, hlast⟩

theorem toNat_packLarge {value : LargeCommunity} (h : LargeFits value) :
    BigEndian.toNat (packLarge value) = value.1 * 256 ^ 8 + value.2.1 * 256 ^ 4 + value.2.2 := by
  obtain ⟨ha, hb, hc⟩ := h
  rw [packLarge, List.append_assoc, BigEndian.toNat_append, BigEndian.toNat_append,
    List.length_append, BigEndian.length_ofNat, BigEndian.length_ofNat,
    BigEndian.toNat_ofNat ha, BigEndian.toNat_ofNat hb, BigEndian.toNat_ofNat hc, Nat.add_assoc]

theorem largeLe_iff {x y : LargeCommunity} (hx : LargeFits x) (hy : LargeFits y) :
    largeLe x y = true ↔ packLarge x ≤ packLarge y := by
  rw [BigEndian.le_iff_toNat_le (by simp), toNat_packLarge hx, toNat_packLarge hy]
  obtain ⟨a, b, c⟩ := x
  obtain ⟨d, e, f⟩ := y
  obtain ⟨ha, hb, hc⟩ := hx
  obtain ⟨hd, he, hf⟩ := hy
  simp only [largeLe, Bool.or_eq_true, Bool.and_eq_true, decide_eq_true_eq, beq_iff_eq] at *
  omega

instance : Std.Total fun x y : LargeCommunity => largeLe x y = true where
  total x y := by
    simp only [largeLe, Bool.or_eq_true, Bool.and_eq_true, decide_eq_true_eq, beq_iff_eq]
    omega

instance : IsTrans LargeCommunity fun x y => largeLe x y = true where
  trans x y z := by
    simp only [largeLe, Bool.or_eq_true, Bool.and_eq_true, decide_eq_true_eq, beq_iff_eq]
    omega

theorem packLargeSet_eq {triples : List LargeCommunity} (h : ∀ t ∈ triples, LargeFits t) :
    packLargeSet triples = (Ascending.form (· ≤ ·) (triples.map packLarge)).flatten := by
  rw [packLargeSet, ← Ascending.map_form (fun x y => largeLe x y = true) (· ≤ ·)]
  · rfl
  · intro x hx y hy hxy
    exact (largeLe_iff (h x hx) (h y hy)).mp hxy
  · intro x hx y hy hxy
    have htriple := congrArg tripleOf hxy
    rwa [tripleOf_packLarge (h x hx), tripleOf_packLarge (h y hy)] at htriple

theorem groupsOf_packLargeSet {triples : List LargeCommunity} (h : ∀ t ∈ triples, LargeFits t) :
    groupsOf 12 (packLargeSet triples) = Ascending.form (· ≤ ·) (triples.map packLarge) := by
  rw [packLargeSet_eq h]
  apply groupsOf_flatten (by decide)
  intro g hg
  obtain ⟨t, -, rfl⟩ := List.mem_map.mp ((Ascending.mem_form _).mp hg)
  exact length_packLarge t

theorem sortGroups_packLargeSet {triples : List LargeCommunity} (h : ∀ t ∈ triples, LargeFits t) :
    sortGroups 12 (packLargeSet triples) = packLargeSet triples := by
  rw [sortGroups_eq_form, groupsOf_packLargeSet h, Ascending.form_form, packLargeSet_eq h]

theorem largeTriples_fits {packed : Bytes} {value : LargeCommunity}
    (h : value ∈ largeTriples packed) : LargeFits value := by
  rw [largeTriples_eq, List.mem_map] at h
  obtain ⟨g, hg, rfl⟩ := h
  exact largeFits_tripleOf (length_of_mem_groupsOf hg)

theorem mem_largeTriples {packed : Bytes} {value : LargeCommunity} (h : LargeFits value) :
    value ∈ largeTriples packed ↔ packLarge value ∈ groupsOf 12 packed := by
  rw [largeTriples_eq, List.mem_map]
  constructor
  · rintro ⟨g, hg, rfl⟩
    rwa [packLarge_tripleOf (length_of_mem_groupsOf hg)]
  · intro hmem
    exact ⟨_, hmem, tripleOf_packLarge h⟩

theorem mem_largeTriples_packLargeSet {triples : List LargeCommunity}
    (h : ∀ t ∈ triples, LargeFits t) (value : LargeCommunity) :
    value ∈ largeTriples (packLargeSet triples) ↔ value ∈ triples := by
  rw [largeTriples_eq, groupsOf_packLargeSet h, List.mem_map]
  constructor
  · rintro ⟨g, hg, rfl⟩
    obtain ⟨t, ht, rfl⟩ := List.mem_map.mp ((Ascending.mem_form _).mp hg)
    rw [tripleOf_packLarge (h t ht)]
    exact ht
  · intro hmem
    exact ⟨packLarge value, (Ascending.mem_form _).mpr (List.mem_map_of_mem hmem),
      tripleOf_packLarge (h value hmem)⟩

end Packets
