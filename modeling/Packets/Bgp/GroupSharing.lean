/-
Update groups: one table for every session with the same key
(`plugins/bgp/updategroup.py`).

The table is built with one member's `PeerRef`, and tells every member what its own would,
except of a path that came in from some members and not from others.
-/
import Packets.Bgp.AdjOut
import Packets.Bgp.NexthopTracking
import Packets.Bgp.Peer
import Packets.Bgp.PolicyKey

namespace Packets

open Session

/-- The policy of a spec and its identity come from one set of names, looked up in a
store. -/
def OutboundSpec.ReadFrom (store : PolicyStore) (spec : OutboundSpec) : Prop :=
  ∃ names, spec.policy = buildChain store names spec.afi ∧
    spec.policyId = Packets.policyId store names spec.afi

/-- A ref and a spec are of one session. -/
structure OutboundSpec.Represents (spec : OutboundSpec) (ref : PeerRef) : Prop where
  peerAs : ref.peerAs = spec.peerAs
  isEbgp : ref.isEbgp = spec.isEbgp

theorem outboundSpec_readFrom (store : PolicyStore) (s : OutboundSession) (af : Family)
    (address : String) : ((outboundSpec store s af).bind address).ReadFrom store :=
  ⟨s.config.policyNames af .dirOut, rfl, rfl⟩

theorem buildChain_eq_of_policyId_eq {store : PolicyStore} {names names' : PolicyNames}
    {afi : Nat} (h : policyId store names afi = policyId store names' afi) :
    buildChain store names' afi = buildChain store names afi := by
  obtain ⟨hasPath, hpfx, hmap⟩ := citation_eq_of_policyId_eq h
  simp only [buildChain, (citation_eq_some hasPath).1, (citation_eq_some hpfx).1,
    (citation_eq_some hmap).1]

section

variable {store : PolicyStore} {s₁ s₂ : OutboundSpec}

theorem policy_eq_of_key_eq (hkey : s₁.key = s₂.key) (h₁ : s₁.ReadFrom store)
    (h₂ : s₂.ReadFrom store) : s₂.policy = s₁.policy := by
  obtain ⟨names, hpolicy, hid⟩ := h₁
  obtain ⟨names', hpolicy', hid'⟩ := h₂
  have hafi : s₁.afi = s₂.afi := congrArg UpdateGroupKey.afi hkey
  have heq : s₁.policyId = s₂.policyId := congrArg UpdateGroupKey.policyId hkey
  rw [hid, hid', ← hafi] at heq
  rw [hpolicy, hpolicy', ← hafi]
  exact buildChain_eq_of_policyId_eq heq

/-- Specs with one key build tables that differ in the peer only. -/
theorem build_eq_of_key_eq (hkey : s₁.key = s₂.key) (h₁ : s₁.ReadFrom store)
    (h₂ : s₂.ReadFrom store) (r₁ r₂ : PeerRef) :
    s₂.build r₂ = (s₁.build r₁).map fun t =>
      { t with peer := r₂, routerId := s₂.routerId } := by
  have hpolicy := policy_eq_of_key_eq hkey h₁ h₂
  simp only [OutboundSpec.key, UpdateGroupKey.mk.injEq] at hkey
  obtain ⟨hafi, hsafi, -, -, hlocalAs, haddr, hself, hpref, hcomm, hext, hlarge, hsize, has4,
    haddPath, hprivate, hoverride, hcheck, -⟩ := hkey
  simp only [OutboundSpec.build, ← hafi, ← haddr, ← hsafi, ← hlocalAs, ← hself, ← hpref,
    ← hcomm, ← hext, ← hlarge, ← hsize, ← has4, ← haddPath, ← hprivate, ← hoverride,
    ← hcheck, hpolicy]
  split <;> rfl

end

namespace AdjRibOut

/-- What `_outbound_attrs` returns: the attribute set to advertise, if any. -/
def outcome (rx : RegexEngine) (lists : Resolver) (t : AdjRibOut) (pfx : Prefix)
    (path : BgpPath) : Option (Option AttrSet) :=
  (outboundAttrs rx lists t pfx path).map Except.toOption

/-- What the rules after split horizon make of a path. -/
def verdict (rx : RegexEngine) (lists : Resolver) (t : AdjRibOut) (pfx : Prefix)
    (path : BgpPath) : Option (Except Suppress AttrSet) :=
  match t.suppression path with
  | some reason => some (.error reason)
  | none =>
    (t.transform path).map fun out =>
      match policed rx lists t pfx out with
      | none => .error .policy
      | some out => .ok (t.filterCommunities out).finalize

theorem outcome_eq (rx : RegexEngine) (lists : Resolver) (t : AdjRibOut) (pfx : Prefix)
    (path : BgpPath) :
    outcome rx lists t pfx path =
      if fromPeer t.peer path then some none
      else (verdict rx lists t pfx path).map Except.toOption := by
  simp only [outcome, outboundAttrs, verdict]
  split <;> rfl

/-- Another member's ref in a table, as far as its AS and kind go. -/
def SameKind (t : AdjRibOut) (ref : PeerRef) : Prop :=
  ref.peerAs = t.peer.peerAs ∧ ref.isEbgp = t.peer.isEbgp

theorem verdict_withPeer (rx : RegexEngine) (lists : Resolver) {t : AdjRibOut}
    {ref : PeerRef} (h : t.SameKind ref) (routerId : Nat) (pfx : Prefix) (path : BgpPath) :
    verdict rx lists { t with peer := ref, routerId := routerId } pfx path =
      verdict rx lists t pfx path := by
  obtain ⟨has, hebgp⟩ := h
  simp only [verdict, suppression, transform, transformEbgp, externalSegments,
    transformIbgp, policed, filterCommunities, has, hebgp]

/-- A rule alike for every member of a group suppresses a path: the external loop check, the iBGP
rule, a well-known community, an unresolved next hop. -/
def RuledOut (t : AdjRibOut) (path : BgpPath) : Prop :=
  (t.peer.isEbgp = true ∧ t.peer.peerAs ≠ 0 ∧ t.asOverride = false ∧
      t.senderLoopCheck = true ∧ path.attrs.hasAs t.peer.peerAs = true) ∨
    (t.peer.isEbgp = false ∧ path.source = .peer ∧ path.peer.isEbgp = false) ∨
    hasCommunity path.attrs.communities WIRE_NO_ADVERTISE = true ∨
    (t.peer.isEbgp = true ∧ hasCommunity path.attrs.communities WIRE_NO_EXPORT = true) ∨
    (t.peer.isEbgp = true ∧ hasCommunity path.attrs.communities WIRE_NO_EXPORT_SUBCONFED = true) ∨
    path.resolved = false

/-- Outbound policy denies what a path would be sent as. -/
def Denied (rx : RegexEngine) (lists : Resolver) (t : AdjRibOut) (pfx : Prefix)
    (path : BgpPath) : Prop :=
  ∀ out, t.transform path = some out → policed rx lists t pfx out = none

theorem suppression_eq_none_iff {t : AdjRibOut} {path : BgpPath} :
    t.suppression path = none ↔ ¬t.RuledOut path := by
  simp only [suppression, RuledOut, ite_eq_right_iff, reduceCtorEq, imp_false, ite_eq_iff,
    and_false, false_or, not_or]

/-- The rules after split horizon let no attribute set through exactly when one of them
applies. -/
theorem verdict_suppressed_iff (rx : RegexEngine) (lists : Resolver) (t : AdjRibOut)
    (pfx : Prefix) (path : BgpPath) :
    (verdict rx lists t pfx path).map Except.toOption = some none ↔
      t.RuledOut path ∨ Denied rx lists t pfx path := by
  rw [verdict]
  cases hsup : t.suppression path with
  | some reason =>
    have hruled : t.RuledOut path := by
      by_contra hnot
      rw [suppression_eq_none_iff.mpr hnot] at hsup
      exact absurd hsup (by simp)
    exact iff_of_true rfl (Or.inl hruled)
  | none =>
    have hnot := suppression_eq_none_iff.mp hsup
    obtain ⟨out, hout⟩ := Option.isSome_iff_exists.mp (t.transform_isSome path)
    have hdenied : Denied rx lists t pfx path ↔ policed rx lists t pfx out = none := by
      simp only [Denied, hout, Option.some.injEq, forall_eq']
    rw [hdenied, or_iff_right hnot]
    simp only [hout, Option.map_some, Option.some.injEq]
    cases policed rx lists t pfx out with
    | none => exact iff_of_true rfl rfl
    | some kept => simp [Except.toOption]

end AdjRibOut

section

variable {store : PolicyStore} {s₁ s₂ : OutboundSpec} {r₁ r₂ : PeerRef}
variable {t₁ t₂ : AdjRibOut} {rx : RegexEngine} {pfx : Prefix} {path : BgpPath}

open AdjRibOut

/-- Two tables of one group come to one verdict after split horizon. -/
theorem verdict_eq_of_key_eq (rx : RegexEngine) (pfx : Prefix) (path : BgpPath)
    (hkey : s₁.key = s₂.key) (h₁ : s₁.ReadFrom store) (h₂ : s₂.ReadFrom store)
    (hr₁ : s₁.Represents r₁) (hr₂ : s₂.Represents r₂)
    (hb₁ : s₁.build r₁ = some t₁) (hb₂ : s₂.build r₂ = some t₂) :
    t₁.peer = r₁ ∧ t₂.peer = r₂ ∧
      verdict rx store.resolver t₂ pfx path = verdict rx store.resolver t₁ pfx path := by
  have hpeer : t₁.peer = r₁ := by
    rw [OutboundSpec.build, Option.ite_none_left_eq_some, Option.some.injEq] at hb₁
    rw [← hb₁.2]
  have has : s₁.peerAs = s₂.peerAs := congrArg UpdateGroupKey.peerAs hkey
  have hebgp : s₁.isEbgp = s₂.isEbgp := congrArg UpdateGroupKey.isEbgp hkey
  have hkind : t₁.SameKind r₂ := by
    rw [SameKind, hpeer, hr₁.peerAs, hr₁.isEbgp, hr₂.peerAs, hr₂.isEbgp]
    exact ⟨has.symm, hebgp.symm⟩
  rw [build_eq_of_key_eq hkey h₁ h₂ r₁ r₂, hb₁, Option.map_some, Option.some.injEq] at hb₂
  refine ⟨hpeer, ?_, ?_⟩
  · rw [← hb₂]
  · rw [← hb₂]
    exact verdict_withPeer rx store.resolver hkind s₂.routerId pfx path

/-- Two members with one key are told the same of a path exactly when it came in from both or
from neither, or when the rules that are alike for both suppress it. -/
theorem sharing_sound_iff (hkey : s₁.key = s₂.key) (h₁ : s₁.ReadFrom store)
    (h₂ : s₂.ReadFrom store) (hr₁ : s₁.Represents r₁) (hr₂ : s₂.Represents r₂)
    (hb₁ : s₁.build r₁ = some t₁) (hb₂ : s₂.build r₂ = some t₂) :
    outcome rx store.resolver t₁ pfx path = outcome rx store.resolver t₂ pfx path ↔
      fromPeer r₁ path = fromPeer r₂ path ∨ t₁.RuledOut path ∨
        Denied rx store.resolver t₁ pfx path := by
  obtain ⟨hp₁, hp₂, hverdict⟩ := verdict_eq_of_key_eq rx pfx path hkey h₁ h₂ hr₁ hr₂ hb₁ hb₂
  rw [← verdict_suppressed_iff, outcome_eq, outcome_eq, hp₁, hp₂, hverdict]
  cases hfrom₁ : fromPeer r₁ path <;> cases hfrom₂ : fromPeer r₂ path
  · simp
  · simp
  · simp [eq_comm]
  · simp

end

/-- The path a Loc-RIB has selected for a prefix. -/
def winnerFor (s : Session) (af : Family) (pfx : Prefix) : Option BgpPath :=
  (s.locribs.get? af).bind fun l => (l.dests.get? pfx).bind fun d => (l.cell d).best

/-- Neighbours in AS 65001 with every setting at its default, by their address. -/
def customerSpec (address : String) : OutboundSpec :=
  (outboundSpec PolicyStore.new
    { config := { externalConfig with address := address }
      negotiated := none
      transport := some "198.51.100.1"
      routerId := 1
      defaultLocalPref := 100 } IPV4_UNICAST).bind address

/-- The refs of two of them. -/
def customerRef (oid : Nat) (addr : Bytes) : PeerRef :=
  ⟨oid, some oid, 65001, 65000, oid, addr, true⟩

def firstRef : PeerRef := customerRef 1 [192, 0, 2, 1]

def secondRef : PeerRef := customerRef 2 [192, 0, 2, 2]

/-- The first one's session once it has told a path, and selection has run. -/
def customerTold (asns : List Nat) : Session :=
  let empty := { externalSession with
    peer.peerRef := some firstRef
    locribs := Dict.empty.set IPV4_UNICAST (LocRib.new AFI_IP SAFI_UNICAST AttrTable.empty
      LocRib.plainConfig (BgpDest.new siteNet)) }
  let told := (empty.announceMany plainEnv IPV4_UNICAST [(siteNet, 0)]
    { asPath := encodeSegment 4 (AS_SEQUENCE, asns), nexthop := [192, 0, 2, 1] }).1
  { told with locribs := told.locribs.mapValues fun _ l => l.reselect 0 }

/-- What the group's table built with one of them makes of that path. -/
def customerOutcome (address : String) (ref : PeerRef) (asns : List Nat) :
    Option (Option (Option AttrSet)) :=
  (winnerFor (customerTold asns) IPV4_UNICAST siteNet).bind fun path =>
    ((customerSpec address).build ref).map fun t =>
      AdjRibOut.outcome noRegex PolicyStore.new.resolver t siteNet path

/-- A path the first customer told with its own AS in front. -/
def customerPath : BgpPath where
  oid := 0
  attrs := { asPath := encodeSegment 4 (AS_SEQUENCE, [65001, 65002]) }
  interned := 0
  peer := firstRef
  pathId := 0
  weight := 0
  source := .peer
  igpMetric := 0
  recvTime := 1
  resolved := true

/-- The loop check keeps it from both customers, whichever the table was built with. -/
theorem sharing_sound_iff_customers : ∃ t₁ t₂,
    (customerSpec "192.0.2.1").build firstRef = some t₁ ∧
      (customerSpec "192.0.2.2").build secondRef = some t₂ ∧
      AdjRibOut.outcome noRegex PolicyStore.new.resolver t₁ siteNet customerPath =
        AdjRibOut.outcome noRegex PolicyStore.new.resolver t₂ siteNet customerPath := by
  have hread : ∀ address, (customerSpec address).ReadFrom PolicyStore.new :=
    fun address => outboundSpec_readFrom _ _ _ address
  refine ⟨_, _, rfl, rfl, ?_⟩
  apply (sharing_sound_iff (by decide) (hread "192.0.2.1") (hread "192.0.2.2")
    ⟨rfl, rfl⟩ ⟨rfl, rfl⟩ rfl rfl).mpr
  exact Or.inr (Or.inl (Or.inl (by decide)))

/-- The path of AS 65002 alone passes every check on its way in.  The table built with the first
customer keeps it from both, the other sends it to both. -/
theorem not_sharing_sound :
    (customerSpec "192.0.2.1").key = (customerSpec "192.0.2.2").key ∧
      (customerSpec "192.0.2.1").Represents firstRef ∧
      (customerSpec "192.0.2.2").Represents secondRef ∧
      customerOutcome "192.0.2.1" firstRef [65002] = some (some none) ∧
      customerOutcome "192.0.2.2" secondRef [65002] = some (some (some {
        asPath := encodeSegment 4 (AS_SEQUENCE, [65000, 65002])
        nexthop := [198, 51, 100, 1] })) :=
  ⟨by decide, ⟨rfl, rfl⟩, ⟨rfl, rfl⟩, by decide +kernel, by decide +kernel⟩

end Packets
