/-
Route-map edits on attribute objects (`plugins/bgp/policy.py`, `attr_kwargs` and
`apply_sets`): a set exploded into keywords, changed and built again.
-/
import Packets.Bgp.CanonicalAttrs
import Packets.Bgp.WireEncode
import Packets.Bgp.RouteMapDecides

namespace Packets

/-- The keywords `AttrSet` is built from. -/
structure AttrKwargs where
  origin : UInt8
  asPath : Bytes
  nexthop : Bytes
  nexthopLocal : Bytes
  med : UInt32
  localPref : UInt32
  hasMed : Bool
  hasLocalPref : Bool
  atomicAggregate : Bool
  communities : Bytes
  extCommunities : Bytes
  largeCommunities : Bytes
  originatorId : UInt32
  hasOriginator : Bool
  clusterList : Bytes
  aggregator : Bytes
  unknown : Bytes

/-- `attr_kwargs`: a set as the keywords that rebuild it. -/
def attrKwargs (a : AttrObject) : AttrKwargs where
  origin := a.origin
  asPath := a.asPath
  nexthop := a.nexthop
  nexthopLocal := a.nexthopLocal
  med := a.med
  localPref := a.localPref
  hasMed := a.flags &&& ATTRF_MED ≠ 0
  hasLocalPref := a.flags &&& ATTRF_LOCAL_PREF ≠ 0
  atomicAggregate := a.flags &&& ATTRF_ATOMIC_AGGREGATE ≠ 0
  communities := a.communities
  extCommunities := a.extCommunities
  largeCommunities := a.largeCommunities
  originatorId := a.originatorId
  hasOriginator := a.flags &&& ATTRF_ORIGINATOR_ID ≠ 0
  clusterList := a.clusterList
  aggregator := a.aggregator
  unknown := a.unknown

/-- `AttrSet.__init__`. -/
def AttrObject.init (k : AttrKwargs) : AttrObject :=
  let flags : UInt8 := 0
  let flags := if k.hasMed then flags ||| ATTRF_MED else flags
  let flags := if k.hasLocalPref then flags ||| ATTRF_LOCAL_PREF else flags
  let flags := if k.atomicAggregate then flags ||| ATTRF_ATOMIC_AGGREGATE else flags
  let flags := if k.hasOriginator then flags ||| ATTRF_ORIGINATOR_ID else flags
  attrsFinalize { attrsBlank with
    origin := k.origin
    asPath := k.asPath
    nexthop := k.nexthop
    nexthopLocal := k.nexthopLocal
    med := k.med
    localPref := k.localPref
    communities := k.communities
    extCommunities := k.extCommunities
    largeCommunities := k.largeCommunities
    originatorId := k.originatorId
    clusterList := k.clusterList
    aggregator := k.aggregator
    unknown := k.unknown
    flags := flags }

namespace AttrKwargs

def setLocalPref (k : AttrKwargs) : Option Nat → AttrKwargs
  | some n => { k with hasLocalPref := true, localPref := UInt32.ofNat n }
  | none => k

def setMetric (k : AttrKwargs) : Option Nat → AttrKwargs
  | some n => { k with hasMed := true, med := UInt32.ofNat n }
  | none => k

def setOrigin (k : AttrKwargs) : Option Nat → AttrKwargs
  | some n => { k with origin := UInt8.ofNat n }
  | none => k

/-- A next hop of another width than the set carries is the `ValueError`.  The link-local
one belongs to the old next hop. -/
def setNexthop (attrs : AttrObject) (k : AttrKwargs) : Option Bytes → Option AttrKwargs
  | some addr =>
    if attrs.nexthop ≠ [] ∧ addr.length ≠ attrs.nexthop.length then none
    else some { k with nexthop := addr, nexthopLocal := [] }
  | none => some k

def setCommunity (attrs : AttrObject) (k : AttrKwargs) :
    Option (CommunityMode × List Nat) → AttrKwargs
  | some (.none, _) => { k with communities := [] }
  | some (.add, values) =>
    { k with communities := makeCommunities (communityInts attrs.communities ++ values) }
  | some (.set, values) => { k with communities := makeCommunities values }
  | none => k

def setLargeCommunity (attrs : AttrObject) (k : AttrKwargs) :
    Option (CommunityMode × List LargeCommunity) → AttrKwargs
  | some (.none, _) => { k with largeCommunities := [] }
  | some (.add, values) =>
    { k with largeCommunities := packLargeSet (largeTriples attrs.largeCommunities ++ values) }
  | some (.set, values) => { k with largeCommunities := packLargeSet values }
  | none => k

def prependAsns (attrs : AttrObject) (k : AttrKwargs) : Option (List Nat) → Option AttrKwargs
  | some asns =>
    (makeAsPath (asns.reverse.foldl prependOne attrs.meaning.asPathList)).map fun asPath =>
      { k with asPath := asPath }
  | none => some k

end AttrKwargs

/-- The keywords with the edits of a clause.  `none` is a `ValueError`. -/
def editKwargs (attrs : AttrObject) (sets : Edits) : Option AttrKwargs := do
  let k := ((attrKwargs attrs).setLocalPref sets.localPref).setMetric sets.metric
  let k ← (k.setOrigin sets.origin).setNexthop attrs sets.nexthop
  let k := (k.setCommunity attrs sets.community).setLargeCommunity attrs sets.largeCommunity
  k.prependAsns attrs sets.asPathPrepend

/-- `apply_sets`: another set with the edits of a clause, the same one for none. -/
def AttrObject.applySets (attrs : AttrObject) (sets : Edits) : Option AttrObject :=
  if sets = {} then some attrs else (editKwargs attrs sets).map AttrObject.init

/-- What keywords mean, before they are canonicalised. -/
def AttrKwargs.meaning (k : AttrKwargs) : AttrSet where
  origin := k.origin
  asPath := k.asPath
  nexthop := k.nexthop
  nexthopLocal := k.nexthopLocal
  med := if k.hasMed then some k.med else none
  localPref := if k.hasLocalPref then some k.localPref else none
  atomicAggregate := k.atomicAggregate
  communities := k.communities
  extCommunities := k.extCommunities
  largeCommunities := k.largeCommunities
  originatorId := if k.hasOriginator then some k.originatorId else none
  clusterList := k.clusterList
  aggregator := k.aggregator
  unknown := k.unknown

theorem initFlags : ∀ m p t o : Bool,
    let flags : UInt8 := 0
    let flags := if m then flags ||| ATTRF_MED else flags
    let flags := if p then flags ||| ATTRF_LOCAL_PREF else flags
    let flags := if t then flags ||| ATTRF_ATOMIC_AGGREGATE else flags
    let flags := if o then flags ||| ATTRF_ORIGINATOR_ID else flags
    (flags &&& ATTRF_MED ≠ 0 ↔ m = true) ∧ (flags &&& ATTRF_LOCAL_PREF ≠ 0 ↔ p = true) ∧
      (flags &&& ATTRF_ATOMIC_AGGREGATE ≠ 0 ↔ t = true) ∧
      (flags &&& ATTRF_ORIGINATOR_ID ≠ 0 ↔ o = true) := by decide +kernel

theorem meaning_init (k : AttrKwargs) : (AttrObject.init k).meaning = k.meaning.finalize := by
  obtain ⟨hmed, hpref, hatomic, horig⟩ :=
    initFlags k.hasMed k.hasLocalPref k.atomicAggregate k.hasOriginator
  rw [AttrObject.init, meaning_attrsFinalize]
  congr 1
  simp only [AttrObject.meaning, AttrKwargs.meaning, flagged, hmed, hpref, hatomic, horig,
    Bool.decide_eq_true]

theorem meaning_attrKwargs (a : AttrObject) : (attrKwargs a).meaning = a.meaning := by
  simp only [attrKwargs, AttrKwargs.meaning, AttrObject.meaning, flagged, decide_eq_true_eq]

theorem meaning_canonical {a : AttrObject} (h : attrsFinalize a = a) :
    a.meaning.finalize = a.meaning := by
  rw [← meaning_attrsFinalize, h]

namespace AttrKwargs

variable (attrs : AttrObject) (k : AttrKwargs)

theorem meaning_setLocalPref (n : Option Nat) : (k.setLocalPref n).meaning =
    { k.meaning with localPref := (n.map UInt32.ofNat).or k.meaning.localPref } := by
  cases n <;> rfl

theorem meaning_setMetric (n : Option Nat) : (k.setMetric n).meaning =
    { k.meaning with med := (n.map UInt32.ofNat).or k.meaning.med } := by
  cases n <;> rfl

theorem meaning_setOrigin (n : Option Nat) : (k.setOrigin n).meaning =
    { k.meaning with origin := (n.map UInt8.ofNat).getD k.meaning.origin } := by
  cases n <;> rfl

theorem meaning_setNexthop (addr : Option Bytes) :
    (k.setNexthop attrs addr).map AttrKwargs.meaning =
      if (addr.any fun addr =>
          attrs.nexthop ≠ [] && addr.length ≠ attrs.nexthop.length) = true then none
      else
        some { k.meaning with
          nexthop := addr.getD k.meaning.nexthop
          nexthopLocal := if addr.isSome then [] else k.meaning.nexthopLocal } := by
  cases addr with
  | none => rfl
  | some addr =>
    simp only [setNexthop, Option.any_some, Bool.and_eq_true, decide_eq_true_eq]
    split
    · rfl
    · rfl

theorem meaning_setCommunity (edit : Option (CommunityMode × List Nat))
    (h : k.meaning.communities = attrs.communities) : (k.setCommunity attrs edit).meaning =
      { k.meaning with
        communities := editCommunities communityInts makeCommunities attrs.communities edit } := by
  match edit with
  | none => rw [editCommunities, ← h]; rfl
  | some (.none, _) => rfl
  | some (.add, _) => rfl
  | some (.set, _) => rfl

theorem meaning_setLargeCommunity (edit : Option (CommunityMode × List LargeCommunity))
    (h : k.meaning.largeCommunities = attrs.largeCommunities) :
    (k.setLargeCommunity attrs edit).meaning =
      { k.meaning with
        largeCommunities :=
          editCommunities largeTriples packLargeSet attrs.largeCommunities edit } := by
  match edit with
  | none => rw [editCommunities, ← h]; rfl
  | some (.none, _) => rfl
  | some (.add, _) => rfl
  | some (.set, _) => rfl

theorem meaning_prependAsns (asns : Option (List Nat)) (h : k.meaning.asPath = attrs.asPath) :
    (k.prependAsns attrs asns).map AttrKwargs.meaning =
      (match asns with
        | none => some attrs.asPath
        | some asns => makeAsPath (asns.reverse.foldl prependOne attrs.meaning.asPathList)).map
          fun asPath => { k.meaning with asPath := asPath } := by
  cases asns with
  | none => rw [prependAsns, Option.map_some, Option.map_some, ← h]
  | some asns => rw [prependAsns, Option.map_map]; rfl

end AttrKwargs

theorem attrsFinalize_init (k : AttrKwargs) :
    attrsFinalize (AttrObject.init k) = AttrObject.init k := attrsFinalize_attrsFinalize _

theorem hash_canonical {a : AttrObject} (h : attrsFinalize a = a) : a.hash = a.meaning.hash := by
  have hhash := hash_attrsFinalize a
  rwa [h, meaning_canonical h] at hhash

/-- Edits on objects are the edits of what they mean. -/
theorem meaning_applySets (a : AttrObject) (sets : Edits) :
    (a.applySets sets).map AttrObject.meaning = Packets.applySets a.meaning sets := by
  have hinit : AttrObject.meaning ∘ AttrObject.init = AttrSet.finalize ∘ AttrKwargs.meaning :=
    funext meaning_init
  rw [AttrObject.applySets, Packets.applySets]
  split
  · rfl
  · rw [Option.map_map, hinit, ← Option.map_map]
    have hscalars := meaning_attrKwargs a
    let k := (((attrKwargs a).setLocalPref sets.localPref).setMetric sets.metric).setOrigin
      sets.origin
    have hk : k.meaning = { a.meaning with
        localPref := (sets.localPref.map UInt32.ofNat).or a.meaning.localPref
        med := (sets.metric.map UInt32.ofNat).or a.meaning.med
        origin := (sets.origin.map UInt8.ofNat).getD a.meaning.origin } := by
      rw [AttrKwargs.meaning_setOrigin, AttrKwargs.meaning_setMetric,
        AttrKwargs.meaning_setLocalPref, hscalars]
    have hnexthop := AttrKwargs.meaning_setNexthop a k sets.nexthop
    have hedit : editKwargs a sets = (k.setNexthop a sets.nexthop).bind fun k =>
        ((k.setCommunity a sets.community).setLargeCommunity a sets.largeCommunity).prependAsns a
          sets.asPathPrepend := rfl
    rw [hedit]
    cases hset : k.setNexthop a sets.nexthop with
    | none =>
      rw [hset] at hnexthop
      split at hnexthop
      · next hwidth => exact (if_pos hwidth).symm
      · simp at hnexthop
    | some k' =>
      rw [hset, Option.map_some] at hnexthop
      split at hnexthop
      · simp at hnexthop
      · next hwidth =>
          have hk' := Option.some.inj hnexthop
          have hcomm : k'.meaning.communities = a.communities := by rw [hk', hk]; rfl
          have hlarge : (k'.setCommunity a sets.community).meaning.largeCommunities =
              a.largeCommunities := by
            rw [AttrKwargs.meaning_setCommunity a k' _ hcomm, hk', hk]
            rfl
          have hpath : ((k'.setCommunity a sets.community).setLargeCommunity a
              sets.largeCommunity).meaning.asPath = a.asPath := by
            rw [AttrKwargs.meaning_setLargeCommunity a _ _ hlarge,
              AttrKwargs.meaning_setCommunity a k' _ hcomm, hk', hk]
            rfl
          rw [Option.bind_some, AttrKwargs.meaning_prependAsns a _ _ hpath,
            AttrKwargs.meaning_setLargeCommunity a _ _ hlarge,
            AttrKwargs.meaning_setCommunity a k' _ hcomm, hk', hk]
          refine Eq.trans ?_ (if_neg hwidth).symm
          cases sets.asPathPrepend with
          | none => rfl
          | some asns =>
            rw [Option.map_map, Option.map_eq_bind]
            rfl

/-- Some ASNs in front of a path: in sequences of their own, the last of them perhaps in
the leading sequence of the path. -/
def Fronted (asns : List Nat) (held out : List Segment) : Prop :=
  ∃ fresh : List Segment, (∀ seg ∈ fresh, seg.1 = AS_SEQUENCE) ∧
    ((fresh.flatMap Prod.snd = asns ∧ out = fresh ++ held) ∨
      ∃ more asns' rest, fresh.flatMap Prod.snd ++ more = asns ∧
        held = (AS_SEQUENCE, asns') :: rest ∧
        out = fresh ++ (AS_SEQUENCE, more ++ asns') :: rest)

theorem Fronted.prependOne {asns : List Nat} {held out : List Segment} (h : Fronted asns held out)
    (asn : Nat) : Fronted (asn :: asns) held (prependOne out asn) := by
  obtain ⟨fresh, hfresh, hout⟩ := h
  have hseq : ∀ seg ∈ (AS_SEQUENCE, [asn]) :: fresh, seg.1 = AS_SEQUENCE :=
    List.forall_mem_cons.mpr ⟨rfl, hfresh⟩
  rcases prependOne_cases out asn with hnew | ⟨front, rest, hfront, hjoined⟩
  · rw [hnew]
    refine ⟨(AS_SEQUENCE, [asn]) :: fresh, hseq, ?_⟩
    rcases hout with ⟨rfl, rfl⟩ | ⟨more, asns', rest, rfl, rfl, rfl⟩
    · exact .inl ⟨rfl, rfl⟩
    · exact .inr ⟨more, asns', rest, rfl, rfl, rfl⟩
  · rw [hjoined]
    cases fresh with
    | nil =>
      rcases hout with ⟨rfl, rfl⟩ | ⟨more, asns', rest', rfl, rfl, rfl⟩
      · exact ⟨[], hfresh, .inr ⟨[asn], front, rest, rfl, hfront, rfl⟩⟩
      · obtain ⟨hhead, rfl⟩ := List.cons.inj hfront
        obtain rfl := (Prod.mk.inj hhead).2
        exact ⟨[], hfresh, .inr ⟨asn :: more, asns', rest', rfl, rfl, rfl⟩⟩
    | cons head fresh =>
      have hhead : head = (AS_SEQUENCE, front) := by
        rcases hout with ⟨-, rfl⟩ | ⟨more, asns', rest', -, -, rfl⟩
        · exact (List.cons.inj hfront).1
        · exact (List.cons.inj hfront).1
      subst hhead
      refine ⟨(AS_SEQUENCE, asn :: front) :: fresh,
        List.forall_mem_cons.mpr ⟨rfl, (List.forall_mem_cons.mp hfresh).2⟩, ?_⟩
      rcases hout with ⟨rfl, rfl⟩ | ⟨more, asns', rest', rfl, rfl, rfl⟩
      · obtain rfl := (List.cons.inj hfront).2
        exact .inl ⟨rfl, rfl⟩
      · obtain rfl := (List.cons.inj hfront).2
        exact .inr ⟨more, asns', rest', rfl, rfl, rfl⟩

/-- The hops of a path. -/
def hopsOf (segments : List Segment) : Nat := (segments.map segmentHops).sum

theorem hopsOf_prependOne (segments : List Segment) (asn : Nat) :
    hopsOf (prependOne segments asn) = hopsOf segments + 1 := by
  have hsingle : segmentHops (AS_SEQUENCE, [asn]) = 1 := rfl
  rcases prependOne_cases segments asn with hnew | ⟨asns, rest, rfl, hjoined⟩
  · rw [hnew, hopsOf, List.map_cons, List.sum_cons, hsingle, hopsOf, Nat.add_comm]
  · have hhead : ∀ l, segmentHops (AS_SEQUENCE, l) = l.length := fun l => if_pos rfl
    rw [hjoined]
    simp only [hopsOf, List.map_cons, List.sum_cons, hhead, List.length_cons]
    omega

/-- A whole prepend. -/
theorem foldl_prependOne {held : List Segment} (hheld : ∀ seg ∈ held, CanonicalSegment seg)
    {asns : List Nat} (hasns : ∀ asn ∈ asns, asn < 256 ^ 4) :
    (∀ seg ∈ asns.reverse.foldl prependOne held, CanonicalSegment seg) ∧
      (asns.reverse.foldl prependOne held).flatMap Prod.snd = asns ++ held.flatMap Prod.snd ∧
      Fronted asns held (asns.reverse.foldl prependOne held) ∧
      hopsOf (asns.reverse.foldl prependOne held) = hopsOf held + asns.length := by
  rw [List.foldl_reverse]
  induction asns with
  | nil => exact ⟨hheld, rfl, ⟨[], List.forall_mem_nil _, .inl ⟨rfl, rfl⟩⟩, rfl⟩
  | cons asn asns ih =>
    obtain ⟨hcanon, hmembers, hfronted, hhops⟩ :=
      ih fun other hother => hasns other (List.mem_cons_of_mem asn hother)
    rw [List.foldr_cons]
    refine ⟨prependOne_canonical hcanon (hasns asn List.mem_cons_self), ?_,
      hfronted.prependOne asn, ?_⟩
    · rw [flatMap_prependOne, hmembers, List.cons_append]
    · rw [hopsOf_prependOne, hhops, List.length_cons, Nat.add_assoc]

/-- What an edit makes of a community value, read as the set of its records. -/
def EditedSet {α : Type} (values : Bytes → List α) (held new : Bytes) :
    Option (CommunityMode × List α) → Prop
  | none => new = held
  | some (.none, _) => new = []
  | some (.set, given) => ∀ v, v ∈ values new ↔ v ∈ given
  | some (.add, given) => ∀ v, v ∈ values new ↔ v ∈ values held ∨ v ∈ given

/-- What a prepend makes of the path of a set. -/
structure Prepended (asns : List Nat) (a b : AttrSet) : Prop where
  members : b.asPathList.flatMap Prod.snd = asns ++ a.asPathList.flatMap Prod.snd
  segments : Fronted asns a.asPathList b.asPathList
  hops : b.asPathLen = a.asPathLen + asns.length
  canonical : CanonicalPath b.asPath
  counts : ∀ seg ∈ b.asPathList, seg.2 ≠ [] ∧ seg.2.length ≤ 255

/-- A set after the edits of a clause, attribute by attribute. -/
structure Edited (a : AttrSet) (sets : Edits) (b : AttrSet) : Prop where
  localPref : b.localPref.map UInt32.toNat = sets.localPref.or (a.localPref.map UInt32.toNat)
  med : b.med.map UInt32.toNat = sets.metric.or (a.med.map UInt32.toNat)
  origin : b.origin.toNat = sets.origin.getD a.origin.toNat
  nexthop : b.nexthop = sets.nexthop.getD a.nexthop
  nexthopLocal : b.nexthopLocal = if sets.nexthop.isSome then [] else a.nexthopLocal
  communities : EditedSet communityInts a.communities b.communities sets.community
  largeCommunities :
    EditedSet largeTriples a.largeCommunities b.largeCommunities sets.largeCommunity
  unprepended : sets.asPathPrepend = none → b.asPath = a.asPath
  prepended : ∀ asns, sets.asPathPrepend = some asns → Prepended asns a b
  -- the attributes no edit names
  atomicAggregate : b.atomicAggregate = a.atomicAggregate
  extCommunities : b.extCommunities = a.extCommunities
  originatorId : b.originatorId = a.originatorId
  clusterList : b.clusterList = a.clusterList
  aggregator : b.aggregator = a.aggregator
  unknown : b.unknown = a.unknown

/-- A packer that writes the canonical form of what it is given edits by sets. -/
theorem editedSet_of_packs {α : Type} {width : Nat} {values : Bytes → List α}
    {pack : List α → Bytes} {P : α → Prop}
    (hpacks : ∀ vs, (∀ v ∈ vs, P v) →
      sortGroups width (pack vs) = pack vs ∧ ∀ v, v ∈ values (pack vs) ↔ v ∈ vs)
    {held : Bytes} (hheld : sortGroups width held = held) (hvalues : ∀ v ∈ values held, P v)
    {edit : Option (CommunityMode × List α)}
    (hfits : ∀ mode given, edit = some (mode, given) → ∀ v ∈ given, P v) :
    EditedSet values held (sortGroups width (editCommunities values pack held edit)) edit := by
  match edit with
  | none => exact hheld
  | some (.none, _) =>
    rw [EditedSet, editCommunities, sortGroups_eq_form]
    simp [groupsOf, wholeGroups, Ascending.form]
  | some (.set, given) =>
    obtain ⟨hsorted, hmem⟩ := hpacks given (hfits _ given rfl)
    rw [EditedSet, editCommunities, hsorted]
    exact hmem
  | some (.add, given) =>
    have hall : ∀ v ∈ values held ++ given, P v := by
      intro v hv
      rcases List.mem_append.mp hv with hold | hnew
      · exact hvalues v hold
      · exact hfits _ given rfl v hnew
    obtain ⟨hsorted, hmem⟩ := hpacks _ hall
    rw [EditedSet, editCommunities, hsorted]
    intro v
    rw [hmem, List.mem_append]

theorem toNat_edited {n : Option Nat} (h : ∀ m, n = some m → m < 2 ^ 32) (held : Option UInt32) :
    ((n.map UInt32.ofNat).or held).map UInt32.toNat = n.or (held.map UInt32.toNat) := by
  cases n with
  | none => rfl
  | some m =>
    have hm : (UInt32.ofNat m).toNat = m := UInt32.toNat_ofNat_of_lt' (h m rfl)
    simp [hm]

/-- A next hop of another width than the set carries. -/
def WidthMismatch (a : AttrSet) (sets : Edits) : Prop :=
  ∃ addr, sets.nexthop = some addr ∧ a.nexthop ≠ [] ∧ addr.length ≠ a.nexthop.length

theorem widthMismatch_iff (a : AttrSet) (sets : Edits) :
    (sets.nexthop.any fun addr => a.nexthop ≠ [] && addr.length ≠ a.nexthop.length) = true ↔
      WidthMismatch a sets := by
  rw [WidthMismatch]
  cases sets.nexthop <;> simp

section

variable {a : AttrSet} {sets : Edits} (ha : a.finalize = a) (hpath : CanonicalPath a.asPath)
  (hfits : sets.Fits)
include ha hpath hfits

/-- The edits of a clause, once the next hop fits. -/
theorem edited_of_fits (asPath : Bytes)
    (hmade : (match sets.asPathPrepend with
      | none => some a.asPath
      | some asns => makeAsPath (asns.reverse.foldl prependOne a.asPathList)) = some asPath) :
    Edited a sets (AttrSet.finalize { a with
      localPref := (sets.localPref.map UInt32.ofNat).or a.localPref
      med := (sets.metric.map UInt32.ofNat).or a.med
      origin := (sets.origin.map UInt8.ofNat).getD a.origin
      nexthop := sets.nexthop.getD a.nexthop
      nexthopLocal := if sets.nexthop.isSome then [] else a.nexthopLocal
      communities := editCommunities communityInts makeCommunities a.communities sets.community
      largeCommunities :=
        editCommunities largeTriples packLargeSet a.largeCommunities sets.largeCommunity
      asPath := asPath }) := by
  have hcommunities : sortGroups 4 a.communities = a.communities := congrArg AttrSet.communities ha
  have hlarge : sortGroups 12 a.largeCommunities = a.largeCommunities :=
    congrArg AttrSet.largeCommunities ha
  have hext : sortGroups 8 a.extCommunities = a.extCommunities := congrArg AttrSet.extCommunities ha
  have hcluster : a.clusterList.take (a.clusterList.length / 4 * 4) = a.clusterList :=
    congrArg AttrSet.clusterList ha
  have hunknown : sortUnknown a.unknown = a.unknown := congrArg AttrSet.unknown ha
  refine {
    localPref := toNat_edited hfits.localPref _
    med := toNat_edited hfits.metric _
    origin := ?_
    nexthop := rfl
    nexthopLocal := rfl
    communities := editedSet_of_packs (fun vs hvs => ⟨sortGroups_makeCommunities hvs,
      mem_communityInts_makeCommunities hvs⟩) hcommunities (fun _ => communityInts_lt)
      hfits.community
    largeCommunities := editedSet_of_packs (fun vs hvs => ⟨sortGroups_packLargeSet hvs,
      mem_largeTriples_packLargeSet hvs⟩) hlarge (fun _ => largeTriples_fits)
      hfits.largeCommunity
    unprepended := ?_
    prepended := ?_
    atomicAggregate := rfl
    extCommunities := hext
    originatorId := rfl
    clusterList := hcluster
    aggregator := rfl
    unknown := hunknown }
  · cases horigin : sets.origin with
    | none => rfl
    | some n =>
      have hn := hfits.origin n horigin
      exact UInt8.toNat_ofNat_of_lt' (Nat.lt_of_le_of_lt hn (by decide))
  · intro hnone
    rw [hnone] at hmade
    exact (Option.some.inj hmade).symm
  · intro asns hasns
    have hsmall : ∀ asn ∈ asns, asn < 256 ^ 4 :=
      fun asn hasn => (hfits.asPathPrepend asns hasns asn hasn).2
    obtain ⟨hcanon, hmembers, hfronted, hhops⟩ := foldl_prependOne hpath.segments hsmall
    rw [hasns] at hmade
    have hbytes : asPath = encodePath 4 (asns.reverse.foldl prependOne a.asPathList) := by
      rw [AttrSet.asPathList, ← Option.some_inj, ← hmade, AttrSet.asPathList]
      exact makeAsPath_short fun seg hseg => (hcanon seg hseg).fits.count
    have hprepended : ∀ b : AttrSet, b.asPath = asPath → Prepended asns a b := by
      intro b hb
      have hlist : b.asPathList = asns.reverse.foldl prependOne a.asPathList := by
        rw [AttrSet.asPathList, hb, hbytes]
        exact pathSegments_of_segments hcanon
      have hlen : ∀ c : AttrSet, c.asPathLen = hopsOf c.asPathList := fun _ => rfl
      refine ⟨?_, ?_, ?_, ?_, ?_⟩
      · rw [hlist]
        exact hmembers
      · rw [hlist]
        exact hfronted
      · rw [hlen, hlen, hlist]
        exact hhops
      · rw [hb, hbytes]
        exact canonicalPath_of_segments hcanon
      · rw [hlist]
        exact fun seg hseg => ⟨(hcanon seg hseg).ne_nil, (hcanon seg hseg).fits.count⟩
    exact hprepended _ rfl

/-- A canonical set is edited unless the next hop is of another width. -/
theorem applySets_cases :
    (applySets a sets = none ∧ WidthMismatch a sets) ∨
      ∃ b, applySets a sets = some b ∧ ¬WidthMismatch a sets ∧ Edited a sets b := by
  rw [applySets]
  split
  · next hempty =>
      subst hempty
      have hnone : ¬WidthMismatch a {} := by
        rintro ⟨addr, haddr, -⟩
        exact absurd haddr (by simp)
      have hedited : Edited a {} a.finalize := edited_of_fits ha hpath hfits a.asPath rfl
      rw [ha] at hedited
      exact .inr ⟨a, rfl, hnone, hedited⟩
  · split
    · next hwidth => exact .inl ⟨rfl, (widthMismatch_iff a sets).mp hwidth⟩
    · next hwidth =>
        have hmade : ∃ asPath, (match sets.asPathPrepend with
            | none => some a.asPath
            | some asns => makeAsPath (asns.reverse.foldl prependOne a.asPathList)) =
              some asPath := by
          cases hasns : sets.asPathPrepend with
          | none => exact ⟨_, rfl⟩
          | some asns =>
            have hcanon := (foldl_prependOne hpath.segments
              fun asn hasn => (hfits.asPathPrepend asns hasns asn hasn).2).1
            exact ⟨_, makeAsPath_short fun seg hseg => (hcanon seg hseg).fits.count⟩
        obtain ⟨asPath, hmade⟩ := hmade
        refine .inr ⟨_, ?_, fun h => hwidth ((widthMismatch_iff a sets).mpr h),
          edited_of_fits ha hpath hfits asPath hmade⟩
        cases hasns : sets.asPathPrepend with
        | none =>
          rw [hasns] at hmade
          rw [← Option.some.inj hmade]
          rfl
        | some asns =>
          rw [hasns] at hmade
          dsimp only at hmade ⊢
          rw [hmade]
          rfl

end

/-- Policy edits change exactly what they name.  The set that is edited stays as it was:
an edit builds another. -/
theorem AttrObject.applySets_exact (a : AttrObject) (ha : attrsFinalize a = a)
    (hpath : CanonicalPath a.asPath) (spec : Json) (sets : Edits) (weight : Option Nat)
    (hsets : parseSet spec = some (sets, weight)) :
    (attrsCmp (AttrObject.init (attrKwargs a)) a = .eq ∧
      (AttrObject.init (attrKwargs a)).hash = a.hash) ∧
    (a.applySets sets = none ↔ ∃ addr, sets.nexthop = some addr ∧ a.nexthop ≠ [] ∧
      addr.length ≠ a.nexthop.length) ∧
    ∀ b, a.applySets sets = some b → attrsFinalize b = b ∧ Edited a.meaning sets b.meaning := by
  have hcanon := meaning_canonical ha
  have hedits := meaning_applySets a sets
  have hinit : (AttrObject.init (attrKwargs a)).meaning = a.meaning := by
    rw [meaning_init, meaning_attrKwargs, hcanon]
  refine ⟨⟨?_, ?_⟩, ?_, ?_⟩
  · rw [attrsCmp_eq, attrsOrder_eq_iff, hinit]
  · rw [hash_canonical (attrsFinalize_init _), hash_canonical ha, hinit]
  · have hnone : a.applySets sets = none ↔ WidthMismatch a.meaning sets := by
      rw [← Option.map_eq_none_iff (f := AttrObject.meaning), hedits]
      rcases applySets_cases hcanon hpath (parseSet_fits hsets) with ⟨h, hwidth⟩ | ⟨b, h, hwidth, -⟩
      · exact iff_of_true h hwidth
      · exact iff_of_false (by simp [h]) hwidth
    exact hnone
  · intro b hb
    constructor
    · rw [AttrObject.applySets] at hb
      split at hb
      · rwa [← Option.some.inj hb]
      · obtain ⟨k, -, rfl⟩ := Option.map_eq_some_iff.mp hb
        exact attrsFinalize_init k
    · rw [hb, Option.map_some] at hedits
      rcases applySets_cases hcanon hpath (parseSet_fits hsets) with ⟨h, -⟩ | ⟨c, h, -, hedited⟩
      · rw [h] at hedits
        simp at hedits
      · rw [h, Option.some.injEq] at hedits
        rwa [hedits]

/-- A set of one AS with two communities. -/
def taggedSet : AttrObject :=
  AttrObject.init { attrKwargs attrsBlank with
    asPath := encodePath 4 [(AS_SEQUENCE, [65001])]
    nexthop := [192, 0, 2, 1]
    communities := makeCommunities [65001 * 65536 + 2, 65001 * 65536 + 1] }

/-- A clause that tags a route and prepends to it. -/
def tagSpec : Json := .dict [
  ("community", .dict [("list", .list [.str "65000:7"]), ("additive", .bool true)]),
  ("as-path", .dict [("prepend", .list [.int 65000, .int 65000])])]

/-- What the clause does to a route. -/
def tagEdits : Edits where
  community := some (.add, [65000 * 65536 + 7])
  asPathPrepend := some [65000, 65000]

theorem applySets_exact_tagged : parseSet tagSpec = some (tagEdits, none) ∧
    ∃ b, taggedSet.applySets tagEdits = some b ∧
      b.meaning.asPathList.flatMap Prod.snd = [65000, 65000, 65001] := by
  have hspec : parseSet tagSpec = some (tagEdits, none) := by decide +kernel
  have hpath : CanonicalPath taggedSet.asPath :=
    canonicalPath_of_segments (List.forall_mem_singleton.mpr ⟨⟨by decide, by decide⟩, rfl⟩)
  obtain ⟨-, hraises, hedited⟩ :=
    AttrObject.applySets_exact taggedSet (attrsFinalize_init _) hpath tagSpec tagEdits none hspec
  cases hb : taggedSet.applySets tagEdits with
  | none =>
    obtain ⟨addr, haddr, -⟩ := hraises.mp hb
    exact absurd haddr (by simp [tagEdits])
  | some b =>
    have hmembers := ((hedited b hb).2.prepended _ rfl).members
    exact ⟨hspec, b, rfl, hmembers.trans (by decide +kernel)⟩

end Packets
