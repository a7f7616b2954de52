/-
Two neighbours that run this program and are configured towards each other: what each makes of
the other's OPEN, and of two connections between them (`plugins/bgp/peer.py`).
-/
import Packets.Bgp.OpenRoundTrip
import Packets.Bgp.Peer

namespace Packets

namespace PeerConfig

/-- `_build_open` -/
def buildOpen (c : PeerConfig) : Option Bytes := do
  encodeOpen c.localAs c.holdTime c.routerId (← c.localCapabilities.asTlvs) false

/-- What `_handle_open` negotiates with the sender of an OPEN. -/
def negotiated (c : PeerConfig) (msg : OpenMsg) : Negotiated :=
  negotiate c.localCapabilities (Capabilities.fromTlvs msg.capabilities msg.myAs)

/-- What the schema and the constructors ensure. -/
structure Usable (c : PeerConfig) : Prop where
  localAs : c.localAs ≠ 0
  holdTime : c.holdTime = 0 ∨ MIN_HOLD_TIME ≤ c.holdTime
  families : c.afiSafi.Nodup ∧ c.afiSafi ≠ []

/-- An OPEN as the other side reads it. -/
structure Offers (b : PeerConfig) (msg : OpenMsg) : Prop where
  plain : msg.errors = [] ∧ msg.version = 4 ∧ msg.unsupportedParams = []
  bgpId : msg.bgpId = b.routerId
  holdTime : msg.holdTime = b.holdTime
  caps : (Capabilities.fromTlvs msg.capabilities msg.myAs).Same b.localCapabilities

variable {a b : PeerConfig} {msg : OpenMsg}

theorem offers_of_buildOpen (hb : b.Usable) {raw : Bytes} (h : b.buildOpen = some raw) :
    b.Offers (decodeOpen raw) := by
  obtain ⟨tlvs, htlvs, hopen⟩ := Option.bind_eq_some_iff.mp h
  have hfiled : b.localCapabilities.Filed := by
    refine ⟨hb.families.1, ?_⟩
    rw [localCapabilities]
    dsimp only
    split
    · simpa [Function.comp_def] using hb.families.1
    · exact List.nodup_nil
  rw [decodeOpen_encodeOpen (Capabilities.asTlvs_tellsAs htlvs rfl fun _ => rfl) hopen]
  exact ⟨⟨rfl, rfl, rfl⟩, rfl, rfl, Capabilities.fromTlvs_asTlvs hfiled htlvs⟩

theorem openFault_eq_none_iff (hb : b.Usable) (hab : a.remoteAs = b.localAs) (h : b.Offers msg) :
    Session.openFault a msg = none ↔
      b.routerId ≠ 0 ∧ b.routerId ≠ 0xffffffff ∧ (a.isEbgp = false → b.routerId ≠ a.routerId) := by
  have hclaims : Session.claimedAs msg (Capabilities.fromTlvs msg.capabilities msg.myAs) =
      a.remoteAs := by
    rw [Session.claimedAs, h.caps.asn, hab]
    exact if_pos hb.localAs
  have hhold : ¬(b.holdTime ≠ 0 ∧ b.holdTime < MIN_HOLD_TIME) := by
    rcases hb.holdTime with hzero | hle <;> omega
  rw [Session.openFault, hclaims, h.plain.1, h.plain.2.1, h.plain.2.2, h.bgpId, h.holdTime,
    if_neg hhold]
  cases a.isEbgp <;> grind

theorem mem_afiSafi_negotiated (hb : b.Usable) (h : b.Offers msg) (af : Family) :
    af ∈ (a.negotiated msg).afiSafi ↔ af ∈ a.afiSafi ∧ af ∈ b.afiSafi := by
  have hsome : (Capabilities.fromTlvs msg.capabilities msg.myAs).afiSafi ≠ [] :=
    fun hnil => hb.families.2 (List.nil_perm.mp (hnil ▸ h.caps.afiSafi))
  rw [negotiated, negotiate, negotiatedFamilies]
  dsimp only
  rw [if_neg fun hnil => hsome hnil.2, List.mem_filter, List.contains_iff_mem,
    h.caps.afiSafi.mem_iff]
  rfl

/-- Nobody offers to send several paths for a prefix. -/
theorem addPathRecv_negotiated (h : b.Offers msg) : (a.negotiated msg).addPathRecv = [] := by
  refine List.filter_eq_nil_iff.mpr fun af _ hboth => ?_
  rw [Bool.and_eq_true, Capabilities.addPathHas] at hboth
  split at hboth
  · rename_i bits hbits
    obtain ⟨front, back, hsplit, -⟩ := List.lookup_eq_some_iff.mp hbits
    have hmem : (af, bits) ∈ b.localCapabilities.addPath :=
      h.caps.addPath.mem_iff.mp (by simp [hsplit])
    have hbits : bits = ADD_PATH_RECEIVE := by
      rw [localCapabilities] at hmem
      split at hmem
      · obtain ⟨_, -, heq⟩ := List.mem_map.mp hmem
        exact (Prod.mk.inj heq).2.symm
      · cases hmem
    rw [hbits] at hboth
    exact absurd hboth.1 (by decide)
  · exact Bool.false_ne_true hboth.1

theorem options_negotiated (h : b.Offers msg) :
    { a.negotiated msg with afiSafi := [], peerAsn := none } =
      (⟨[], true, a.routeRefresh && b.routeRefresh, false, a.extendedMessage && b.extendedMessage,
        [], [], if a.extendedMessage && b.extendedMessage then MSG_SIZE_EXTENDED else MSG_SIZE,
        none, true⟩ : Negotiated) := by
  have hrecv := addPathRecv_negotiated (a := a) h
  rw [negotiated, negotiate] at hrecv ⊢
  dsimp only at hrecv ⊢
  rw [hrecv, h.caps.as4, h.caps.routeRefresh, h.caps.enhancedRouteRefresh, h.caps.extendedMessage]
  rfl

end PeerConfig

namespace Session

/-- Whether a session that has to do with two connections ends up on its own. -/
def keptOwn (p : Peer) (peerRouterId : Nat) : Bool :=
  if keepNew p peerRouterId (!p.weInitiated) then !p.weInitiated else p.weInitiated

theorem keptOwn_eq {p : Peer} {n : Nat} (h : p.config.routerId ≠ n ∨ p.config.localAs ≠ p.peerAs) :
    keptOwn p n = resolveCollision p.config.routerId n p.config.localAs p.peerAs true := by
  have hother : resolveCollision p.config.routerId n p.config.localAs p.peerAs false =
      !resolveCollision p.config.routerId n p.config.localAs p.peerAs true := by
    simp only [resolveCollision]
    split_ifs <;> simp_all
  cases hown : p.weInitiated <;>
    cases hkept : resolveCollision p.config.routerId n p.config.localAs p.peerAs true <;>
    simp [keptOwn, keepNew, hown, hother, hkept]

theorem resolveCollision_swap {m n x y : Nat} (h : m ≠ n ∨ x ≠ y) :
    resolveCollision m n x y true = !resolveCollision n m y x true := by
  simp only [resolveCollision]
  split_ifs <;> first | rfl | omega

end Session

open PeerConfig Session

def edgeConfig : PeerConfig where
  address := "192.0.2.2"
  remoteAs := 65002
  localAs := 65001
  routerId := 0x0a000001

def coreConfig : PeerConfig :=
  { edgeConfig with remoteAs := 65001, localAs := 65002, routerId := 0x0a000002, holdTime := 30 }

end Packets
