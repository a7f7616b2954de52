/-
Update-group keys and the policy behind them.

A key cites the version of each object a neighbour's names name, but not of the lists a
route-map refers to, and an object defined again starts its version line over.
-/
import Mathlib.Data.List.Find
import Packets.Bgp.PeerConfig
import Packets.Policy.StoreHistory

namespace Packets

open PolicyStore

variable {rx : RegexEngine}

/-- A list's object is the one the document's section for it was built into. -/
def ListUnchanged (rx : RegexEngine) (s : PolicyStore) (document : Json)
    (ref : PolicyKind × String) : Prop :=
  match ref.1 with
  | .prefixList => (v4Part rx).Unchanged s document ref.2
  | .ipv6PrefixList => (v6Part rx).Unchanged s document ref.2
  | .asPath => (asPathPart rx).Unchanged s document ref.2
  | .routeMap => False

/-- A load that leaves a route-map's section as it was also leaves the section of
every list the map refers to as it was. -/
def KeepsLists (rx : RegexEngine) (s : PolicyStore) (document : Json) : Prop :=
  ∀ name m, s.routeMap name = some m → (routeMapPart rx).Unchanged s document name →
    ∀ ref ∈ m.references, ListUnchanged rx s document ref

/-- Two stores hold the same list under a name. -/
def SameList (s s' : PolicyStore) (ref : PolicyKind × String) : Prop :=
  match ref.1 with
  | .prefixList => s'.v4.get? ref.2 = s.v4.get? ref.2
  | .ipv6PrefixList => s'.v6.get? ref.2 = s.v6.get? ref.2
  | .asPath => s'.asPaths.get? ref.2 = s.asPaths.get? ref.2
  | .routeMap => True

theorem SameList.refl (s : PolicyStore) (ref : PolicyKind × String) : SameList s s ref := by
  unfold SameList
  split <;> trivial

theorem SameList.trans {s s' s'' : PolicyStore} {ref : PolicyKind × String}
    (h : SameList s s' ref) (h' : SameList s' s'' ref) : SameList s s'' ref := by
  unfold SameList at *
  split <;> simp_all

theorem ListUnchanged.sameList {s : PolicyStore} {document : Json} {ref : PolicyKind × String}
    (h : ListUnchanged rx s document ref) : SameList s (step rx s document) ref := by
  obtain ⟨kind, name⟩ := ref
  cases kind with
  | prefixList => exact Part.Unchanged.get?_step (p := v4Part rx) h
  | ipv6PrefixList => exact Part.Unchanged.get?_step (p := v6Part rx) h
  | asPath => exact Part.Unchanged.get?_step (p := asPathPart rx) h
  | routeMap => trivial

theorem Match.holds_of_sameList {s s' : PolicyStore} {test : Match}
    (h : ∀ ref ∈ test.references, SameList s s' ref) (pfx : Prefix) (attrs : Option AttrSet) :
    test.holds rx s'.resolver pfx attrs = test.holds rx s.resolver pfx attrs := by
  cases test with
  | prefixList afi name =>
    have hlist : s'.prefixList name afi = s.prefixList name afi := by
      have href := h _ (List.mem_singleton.mpr rfl)
      unfold PolicyStore.prefixList
      by_cases hv4 : afi = AFI_IP
      · simpa [SameList, hv4] using href
      · by_cases hv6 : afi = AFI_IP6
        · have hne : AFI_IP6 ≠ AFI_IP := by decide
          simpa [SameList, hv6, hne] using href
        · simp [hv4, hv6]
    simp only [holds, resolver, hlist]
  | asPathList name =>
    have hlist : s'.asPathList name = s.asPathList name := h _ (List.mem_singleton.mpr rfl)
    simp only [holds, resolver, hlist]
  | origin _ => rfl
  | metric _ => rfl
  | localPref _ => rfl
  | nextHop _ => rfl
  | asPathRegex _ => rfl
  | community _ _ => rfl
  | largeCommunity _ _ => rfl

/-- A map decides alike against two stores that hold the same lists for it. -/
theorem RouteMap.apply_of_sameList {s s' : PolicyStore} {m : RouteMap}
    (h : ∀ ref ∈ m.references, SameList s s' ref) (pfx : Prefix) (attrs : Option AttrSet) :
    m.apply rx s'.resolver pfx attrs = m.apply rx s.resolver pfx attrs := by
  have hclause : ∀ c ∈ m.clauses,
      c.holds rx s'.resolver pfx attrs = c.holds rx s.resolver pfx attrs := by
    intro c hc
    have htests : ∀ test ∈ c.tests,
        test.holds rx s'.resolver pfx attrs = test.holds rx s.resolver pfx attrs := by
      intro test htest
      refine Match.holds_of_sameList (fun ref href => h ref ?_) pfx attrs
      exact List.mem_flatMap.mpr ⟨c, hc, List.mem_flatMap.mpr ⟨test, htest, href⟩⟩
    unfold RouteMapClause.holds
    rw [Bool.eq_iff_iff, List.all_eq_true, List.all_eq_true]
    exact forall₂_congr fun test htest => by rw [htests test htest]
  unfold apply
  rw [List.find?_congr hclause]

/-- No load defines again what an earlier one removed, and none changes a list
under a route-map it leaves as it was. -/
structure Steady (rx : RegexEngine) (documents : List Json) : Prop where
  v4 : (v4Part rx).Unrevived documents
  v6 : (v6Part rx).Unrevived documents
  asPaths : (asPathPart rx).Unrevived documents
  maps : (routeMapPart rx).Unrevived documents
  lists : ∀ before document after, documents = before ++ document :: after →
    KeepsLists rx (run rx new before) document

/-- One load under which a map stays what it was keeps its lists. -/
theorem sameList_step {s : PolicyStore} {document : Json} {name : String}
    {m : RouteMap} (hkeeps : KeepsLists rx s document) (hm : s.routeMap name = some m)
    (hm' : (step rx s document).routeMap name = some m) :
    ∀ ref ∈ m.references, SameList s (step rx s document) ref := by
  intro ref href
  unfold step at hm' ⊢
  cases hload : s.load rx document with
  | none => exact SameList.refl s ref
  | some s' =>
    have hstep : step rx s document = s' := by simp [step, hload]
    rw [hload, Option.getD_some] at hm'
    obtain ⟨n, hn⟩ := (routeMapPart rx).loads hload
    obtain ⟨hin, hout⟩ := Catalog.load_spec hn
    cases hsec : (sectionsOf ((routeMapPart rx).wanted document)).get? name with
    | none =>
      have hgone : s'.maps.get? name = none := hout name hsec
      rw [routeMap, hgone] at hm'
      exact absurd hm' (by simp)
    | some sec =>
      obtain ⟨⟨m', hm₁, hm₂⟩, -⟩ := hin name sec hsec
      have hsame : m' = m := by
        have hobj : s'.maps.get? name = some m' := hm₂
        rw [routeMap, hobj] at hm'
        exact Option.some.inj hm'
      have hheld : ((routeMapPart rx).table s).get? name = some m := hm
      simp only [hheld, Catalog.refreshed, hsame] at hm₁
      split at hm₁
      · rename_i hsnap
        have hun : (routeMapPart rx).Unchanged s document name := ⟨m, sec, hm, hsec, hsnap⟩
        have hlist := (hkeeps name m hm hun ref href).sameList
        rw [hstep] at hlist
        simpa [hload] using hlist
      · rw [references_refilled hm₁ rfl] at href
        exact absurd href (by simp)

/-- Between two moments at which a name holds one map, the map's lists stay. -/
theorem Steady.sameList {documents : List Json} (h : Steady rx documents) {name : String}
    {m : RouteMap} (first between after : List Json)
    (hdocs : documents = first ++ between ++ after)
    (hm : (run rx new first).routeMap name = some m)
    (hm' : (run rx new (first ++ between)).routeMap name = some m) :
    ∀ ref ∈ m.references, SameList (run rx new first) (run rx new (first ++ between)) ref := by
  induction between using List.reverseRecOn generalizing after with
  | nil =>
    intro ref _
    rw [List.append_nil]
    exact SameList.refl _ ref
  | append_singleton between document ih =>
    have hdocs' : documents = first ++ between ++ document :: after := by simp [hdocs]
    have hlast : run rx new (first ++ (between ++ [document])) =
        step rx (run rx new (first ++ between)) document := by
      rw [← List.append_assoc, run_snoc]
    have hheld : ((routeMapPart rx).get? (run rx new (first ++ between)) name).isSome := by
      refine h.maps.between first between [document] after (by simp [hdocs]) ?_ ?_
      · exact Option.isSome_iff_exists.mpr ⟨m, hm⟩
      · rw [List.append_assoc]
        exact Option.isSome_iff_exists.mpr ⟨m, hm'⟩
    obtain ⟨mid, hmid⟩ := Option.isSome_iff_exists.mp hheld
    have hfirst := h.maps.evolves first between (document :: after) hdocs' hm hmid
    rw [hlast] at hm' ⊢
    have hsecond := Part.step_evolves (p := routeMapPart rx) hmid hm'
    have heq : m = mid := hfirst.2 (Nat.le_antisymm hfirst.1 hsecond.1)
    subst heq
    intro ref href
    exact (ih (document :: after) hdocs' hmid ref href).trans
      (sameList_step (h.lists _ document after hdocs') hmid hm' ref href)

/-- A policy identity determines each of its citations. -/
theorem citation_eq_of_policyId_eq {s s' : PolicyStore} {names names' : PolicyNames}
    {afi : Nat} (h : policyId s names afi = policyId s' names' afi) :
    citation s .asPath names.filterList = citation s' .asPath names'.filterList ∧
      citation s (prefixListLookup afi) names.prefixList =
        citation s' (prefixListLookup afi) names'.prefixList ∧
      citation s .routeMap names.routeMap = citation s' .routeMap names'.routeMap := by
  unfold policyId at h
  revert h
  cases citation s .asPath names.filterList <;>
    cases citation s' .asPath names'.filterList <;>
    cases citation s (prefixListLookup afi) names.prefixList <;>
    cases citation s' (prefixListLookup afi) names'.prefixList <;>
    cases citation s .routeMap names.routeMap <;>
    cases citation s' .routeMap names'.routeMap <;>
    simp

theorem ChainLink.of_congr {α : Type} {name name' : Option String}
    {lookup lookup' : String → Option α} (hname : name' = name)
    (hlookup : ∀ n, name = some n → lookup' n = lookup n) :
    ChainLink.of name' lookup' = ChainLink.of name lookup := by
  subst hname
  unfold ChainLink.of
  cases name' with
  | none => rfl
  | some n => simp only [hlookup n rfl]

theorem citation_eq_some {s s' : PolicyStore} {kind : PolicyKind}
    {name name' : Option String} (h : citation s kind name = citation s' kind name') :
    configured name' = configured name ∧
      ∀ n, configured name = some n → s.versionOf kind n = s'.versionOf kind n := by
  unfold citation at h
  cases hname : configured name with
  | none =>
    rw [hname, Option.map_none] at h
    exact ⟨Option.map_eq_none_iff.mp h.symm, fun n hn => absurd hn (by simp)⟩
  | some n =>
    rw [hname, Option.map_some] at h
    obtain ⟨n', hn', heq⟩ := Option.map_eq_some_iff.mp h.symm
    simp only [Prod.mk.injEq] at heq
    obtain ⟨rfl, hversion⟩ := heq
    refine ⟨hn', fun m hm => ?_⟩
    cases hm
    exact hversion.symm

/-- Two moments of a steady history at which one identity is cited hold one chain,
and it does the same with every route. -/
theorem Steady.chainOutcome_eq {documents : List Json} (h : Steady rx documents)
    {names names' : PolicyNames} {afi : Nat} (first between after : List Json)
    (hdocs : documents = first ++ between ++ after)
    (hid : policyId (run rx new first) names afi =
      policyId (run rx new (first ++ between)) names' afi)
    (pfx : Prefix) (attrs : AttrSet) :
    chainOutcome rx (run rx new (first ++ between)) names' afi pfx attrs =
      chainOutcome rx (run rx new first) names afi pfx attrs := by
  obtain ⟨hasPath, hpfx, hmap⟩ := citation_eq_of_policyId_eq hid
  obtain ⟨hasName, hasVersion⟩ := citation_eq_some hasPath
  obtain ⟨hpfxName, hpfxVersion⟩ := citation_eq_some hpfx
  obtain ⟨hmapName, hmapVersion⟩ := citation_eq_some hmap
  have hasLink : (buildChain (run rx new (first ++ between)) names' afi).asPathList =
      (buildChain (run rx new first) names afi).asPathList :=
    ChainLink.of_congr hasName fun n hn =>
      h.asPaths.eq_of_version_eq first between after hdocs (hasVersion n hn)
  have hpfxLink : (buildChain (run rx new (first ++ between)) names' afi).prefixList =
      (buildChain (run rx new first) names afi).prefixList := by
    refine ChainLink.of_congr hpfxName fun n hn => ?_
    have hversion := hpfxVersion n hn
    unfold PolicyStore.prefixList
    by_cases hv6 : afi = AFI_IP6
    · have hne : AFI_IP6 ≠ AFI_IP := by decide
      simp only [prefixListLookup, hv6, ↓reduceIte] at hversion
      have hlist : (run rx new (first ++ between)).v6.get? n = (run rx new first).v6.get? n :=
        h.v6.eq_of_version_eq first between after hdocs hversion
      simpa [hv6, hne] using hlist
    · simp only [prefixListLookup, hv6, ↓reduceIte] at hversion
      by_cases hv4 : afi = AFI_IP
      · have hlist : (run rx new (first ++ between)).v4.get? n = (run rx new first).v4.get? n :=
          h.v4.eq_of_version_eq first between after hdocs hversion
        simpa [hv4] using hlist
      · simp [hv4, hv6]
  have hmapSame : ∀ n, configured names.routeMap = some n →
      (run rx new (first ++ between)).routeMap n = (run rx new first).routeMap n :=
    fun n hn => h.maps.eq_of_version_eq first between after hdocs (hmapVersion n hn)
  have hmapLink : (buildChain (run rx new (first ++ between)) names' afi).routeMap =
      (buildChain (run rx new first) names afi).routeMap :=
    ChainLink.of_congr hmapName hmapSame
  unfold chainOutcome PolicyChain.apply
  rw [hasLink, hpfxLink, hmapLink]
  cases hlink : (buildChain (run rx new first) names afi).routeMap with
  | unset => rfl
  | missing => rfl
  | found m =>
    have happly : m.apply rx (run rx new (first ++ between)).resolver pfx (some attrs) =
        m.apply rx (run rx new first).resolver pfx (some attrs) := by
      obtain ⟨n, hn, hm⟩ := ChainLink.of_eq_found hlink
      refine RouteMap.apply_of_sameList ?_ pfx (some attrs)
      exact h.sameList first between after hdocs hm ((hmapSame n hn).trans hm)
    simp only [happly]

/-- What the chain of a spec does with a route against a store. -/
def OutboundSpec.outcome (rx : RegexEngine) (store : PolicyStore) (spec : OutboundSpec)
    (pfx : Prefix) (attrs : AttrSet) : Option PolicyOutcome :=
  spec.policy.apply rx store.resolver pfx attrs

/-- Equal keys mean equal outbound policy: at two moments of a history with one group key, the
chain of a neighbour's names does the same with every route. -/
def KeysFollowPolicy (rx : RegexEngine) (documents : List Json) : Prop :=
  ∀ first between after, documents = first ++ between ++ after →
    ∀ (s s' : OutboundSession) (af : Family) (address : String),
      ((outboundSpec (run rx new first) s af).bind address).key =
        ((outboundSpec (run rx new (first ++ between)) s' af).bind address).key →
      ∀ pfx attrs,
        (outboundSpec (run rx new (first ++ between)) s' af).outcome rx
            (run rx new (first ++ between)) pfx attrs =
          (outboundSpec (run rx new first) s af).outcome rx (run rx new first) pfx attrs

theorem Steady.keysFollowPolicy {documents : List Json} (h : Steady rx documents) :
    KeysFollowPolicy rx documents := by
  intro first between after hdocs s s' af address hkey pfx attrs
  have hid : policyId (run rx new first) (s.config.policyNames af .dirOut) af.1 =
      policyId (run rx new (first ++ between)) (s'.config.policyNames af .dirOut) af.1 :=
    congrArg UpdateGroupKey.policyId hkey
  exact h.chainOutcome_eq first between after hdocs hid pfx attrs

/-- An engine for documents that hold no regex. -/
def noRegex : RegexEngine := ⟨fun _ => false, fun _ _ => false⟩

/-- A document with a prefix-list and a route-map that refers to it. -/
def exportDocument (listed mapped : String) : Json :=
  .dict [
    ("ip", .dict [("prefix-list", .dict [("SITES", .list [
      .dict [("seq", .int 5), ("action", .str listed), ("prefix", .str "10.0.0.0/8")]])])]),
    ("route-map", .dict [("EXPORT", .list [
      .dict [("seq", .int 10), ("action", .str mapped), ("match", .dict [
        ("ip", .dict [("address", .dict [("prefix-list", .str "SITES")])])])]])])]

/-- Two documents cannot define again what one of them removed. -/
theorem Part.unrevived_pair {A : Type} (p : Part rx A) (hnone : ∀ name, p.get? new name = none)
    (document document' : Json) : p.Unrevived [document, document'] := by
  intro earlier later doc after hdocs name hheld _
  cases earlier with
  | nil =>
    change (p.get? new name).isSome at hheld
    rw [hnone] at hheld
    exact absurd hheld (by simp)
  | cons d rest =>
    have hlater : later = [] := by
      have hlen := congrArg List.length hdocs
      simp only [List.length_cons, List.length_append, List.length_nil] at hlen
      exact List.length_eq_zero_iff.mp (by omega)
    rw [hlater, List.append_nil]
    exact hheld

/-- The list and the map over it edited in one document. -/
def editedTogether : List Json := [exportDocument "permit" "permit", exportDocument "deny" "deny"]

theorem steady_editedTogether : Steady noRegex editedTogether where
  v4 := Part.unrevived_pair (v4Part noRegex) (fun _ => rfl) _ _
  v6 := Part.unrevived_pair (v6Part noRegex) (fun _ => rfl) _ _
  asPaths := Part.unrevived_pair (asPathPart noRegex) (fun _ => rfl) _ _
  maps := Part.unrevived_pair (routeMapPart noRegex) (fun _ => rfl) _ _
  lists := by
    intro before document after hdocs name m hm hun
    cases before with
    | nil =>
      change (Dict.empty : Dict String RouteMap).get? name = some m at hm
      simp at hm
    | cons d rest =>
      cases rest with
      | nil =>
        simp only [editedTogether, List.singleton_append, List.cons.injEq] at hdocs
        obtain ⟨rfl, rfl, -⟩ := hdocs
        obtain ⟨-, sec, -, hsec, hsnap⟩ := hun
        have hname : name ∈ ["EXPORT"] := by
          have hkeys : (run noRegex new
              [exportDocument "permit" "permit"]).maps.objects.keys = ["EXPORT"] := by decide
          rw [← hkeys]
          exact Dict.mem_keys_iff.mpr ⟨m, hm⟩
        rw [List.mem_singleton.mp hname] at hsec hsnap
        have hmoved :
            ((sectionsOf (wantedMaps (exportDocument "deny" "deny"))).get? "EXPORT").map freeze ≠
              (run noRegex new
                [exportDocument "permit" "permit"]).maps.snapshots.get? "EXPORT" := by
          decide
        refine absurd ?_ hmoved
        refine Eq.trans ?_ hsnap.symm
        exact congrArg (Option.map freeze) hsec
      | cons d' rest =>
        have hlen := congrArg List.length hdocs
        simp [editedTogether] at hlen

/-- The key follows the policy when the list and the map over it are edited
together. -/
theorem keysFollowPolicy_editedTogether : KeysFollowPolicy noRegex editedTogether :=
  Steady.keysFollowPolicy steady_editedTogether

/-- A neighbour whose routes pass the map on their way out. -/
def exportNeighbor : OutboundSession where
  config := {
    address := "192.0.2.1"
    remoteAs := 65002
    localAs := 65001
    routerId := 1
    policy := [((IPV4_UNICAST, .dirOut), { routeMap := some "EXPORT" })] }
  negotiated := none
  transport := none
  routerId := 1
  defaultLocalPref := 100

def siteNet : Prefix := .ipv4 10 0 0 0 8

/-- The list alone turned from permit to deny: the key stays, the outcome moves. -/
theorem not_keysFollowPolicy_listEdited :
    ¬ KeysFollowPolicy noRegex
      [exportDocument "permit" "permit", exportDocument "deny" "permit"] := by
  intro h
  have heq := h [exportDocument "permit" "permit"] [exportDocument "deny" "permit"] [] rfl
    exportNeighbor exportNeighbor IPV4_UNICAST "192.0.2.1" (by decide)
    siteNet {}
  revert heq
  decide

end Packets
