/-
The AS_PATH an external peer is sent (`plugins/bgp/adjout.py`, `_transform_ebgp`).

The learned segments are rewritten first and our AS is put in front of what is left, so
neither option can reach it.
-/
import Packets.Bgp.AdjOut
import Packets.Bgp.WireEncode

namespace Packets

/-- The segments with every AS rewritten, those left empty taken out. -/
def rewrite (f : Nat → Option Nat) (segments : List Segment) : List Segment :=
  (segments.map fun seg => (seg.1, seg.2.filterMap f)).filter fun seg => seg.2 ≠ []

theorem flatMap_rewrite (f : Nat → Option Nat) (segments : List Segment) :
    (rewrite f segments).flatMap Prod.snd = (segments.flatMap Prod.snd).filterMap f := by
  induction segments with
  | nil => rfl
  | cons seg segments ih =>
    rw [rewrite] at ih ⊢
    rw [List.map_cons, List.filter_cons, List.flatMap_cons, List.filterMap_append, ← ih]
    split
    · rfl
    · next hempty =>
        have hnil : seg.2.filterMap f = [] := by simpa using hempty
        rw [hnil, List.nil_append]

theorem rewrite_some {segments : List Segment} (h : ∀ seg ∈ segments, seg.2 ≠ []) :
    rewrite some segments = segments := by
  have hmap : (segments.map fun seg => (seg.1, seg.2.filterMap some)) = segments := by simp
  rw [rewrite, hmap]
  apply List.filter_eq_self.mpr
  intro seg hseg
  exact decide_eq_true (h seg hseg)

theorem rewrite_canonical {f : Nat → Option Nat} {segments : List Segment}
    (h : ∀ seg ∈ segments, CanonicalSegment seg)
    (hf : ∀ asn < 256 ^ 4, ∀ asn', f asn = some asn' → asn' < 256 ^ 4) :
    ∀ seg ∈ rewrite f segments, CanonicalSegment seg := by
  intro seg hseg
  obtain ⟨hmem, hne⟩ := List.mem_filter.mp hseg
  obtain ⟨held, hheld, rfl⟩ := List.mem_map.mp hmem
  have hcanon := h held hheld
  refine ⟨⟨Nat.le_trans (List.length_filterMap_le _ _) hcanon.fits.count, ?_⟩, ?_⟩
  · intro asn' hasn'
    obtain ⟨asn, hasn, hmap⟩ := List.mem_filterMap.mp hasn'
    exact hf asn (hcanon.fits.members asn hasn) asn' hmap
  · have hok := hcanon.ok
    simp only [segmentOk, Bool.and_eq_true] at hok ⊢
    exact ⟨hok.1, hne⟩

namespace AdjRibOut

/-- Private ASNs are taken out of a path. -/
def RemovesPrivate (t : AdjRibOut) (a : AttrSet) : Prop :=
  t.removePrivateAs = .all ∨
    (t.removePrivateAs = .ifAllPrivate ∧ a.asPathList.flatMap Prod.snd ≠ [] ∧
      ∀ asn ∈ a.asPathList.flatMap Prod.snd, isPrivateAs asn = true)

instance (t : AdjRibOut) (a : AttrSet) : Decidable (t.RemovesPrivate a) := by
  rw [RemovesPrivate]
  infer_instance

/-- What an external peer is told of a learned AS: ours in place of its own, and no
private one where they are removed. -/
def toldAs (t : AdjRibOut) (a : AttrSet) (asn : Nat) : Option Nat :=
  if t.asOverride ∧ t.peer.peerAs ≠ 0 ∧ asn = t.peer.peerAs then some t.localAs
  else if t.RemovesPrivate a ∧ isPrivateAs asn then none
  else some asn

theorem allPrivate_iff (segments : List Segment) :
    allPrivate segments = true ↔ segments.flatMap Prod.snd ≠ [] ∧
      ∀ asn ∈ segments.flatMap Prod.snd, isPrivateAs asn = true := by
  simp only [allPrivate, Bool.and_eq_true, decide_eq_true_eq, List.all_eq_true]

/-- The segments that are sent, in one step. -/
theorem externalSegments_eq (t : AdjRibOut) {a : AttrSet} (h : ∀ seg ∈ a.asPathList, seg.2 ≠ []) :
    t.externalSegments a = prependOne (rewrite (t.toldAs a) a.asPathList) t.localAs := by
  have hremoves : (t.removePrivateAs = .all ∨ (t.removePrivateAs = .ifAllPrivate ∧
      allPrivate a.asPathList = true)) ↔ t.RemovesPrivate a := by
    rw [RemovesPrivate, allPrivate_iff]
  have htold : t.toldAs a = mapAs (if t.asOverride then t.peer.peerAs else 0) t.localAs
      (decide (t.RemovesPrivate a)) := by
    funext asn
    rw [toldAs, mapAs]
    cases t.asOverride <;> simp
  rw [externalSegments]
  simp only [hremoves]
  split
  · rw [prependAsPath, mapAsPath, rewrite, htold]
  · next hkeep =>
      have hsome : t.toldAs a = some := by
        funext asn
        simp only [not_or] at hkeep
        rw [toldAs, if_neg (by simp [hkeep.1]), if_neg (by simp [hkeep.2])]
      rw [prependAsPath, hsome, rewrite_some h]

theorem toldAs_lt {t : AdjRibOut} {a : AttrSet} (hlocal : t.localAs < 256 ^ 4) :
    ∀ asn < 256 ^ 4, ∀ asn', t.toldAs a asn = some asn' → asn' < 256 ^ 4 := by
  intro asn hasn asn' htold
  rw [toldAs] at htold
  split at htold
  · rwa [← Option.some.inj htold]
  · split at htold
    · simp at htold
    · rwa [← Option.some.inj htold]

/-- The set an external peer is sent holds the segments that were made for it. -/
theorem transform_external {t : AdjRibOut} (hebgp : t.peer.isEbgp = true)
    (hlocal : t.localAs < 256 ^ 4) {path : BgpPath} (hpath : CanonicalPath path.attrs.asPath) :
    ∃ out, t.transform path = some out ∧ (∀ seg ∈ out.asPathList, CanonicalSegment seg) ∧
      out.asPath = encodePath 4 out.asPathList ∧
      out.asPathList =
        prependOne (rewrite (t.toldAs path.attrs) path.attrs.asPathList) t.localAs := by
  have hlearned : ∀ seg ∈ path.attrs.asPathList, CanonicalSegment seg := hpath.segments
  have hsent : ∀ seg ∈ t.externalSegments path.attrs, CanonicalSegment seg := by
    rw [t.externalSegments_eq fun seg hseg => (hlearned seg hseg).ne_nil]
    exact prependOne_canonical (rewrite_canonical hlearned (toldAs_lt hlocal)) hlocal
  have hmade : makeAsPath (t.externalSegments path.attrs) =
      some (encodePath 4 (t.externalSegments path.attrs)) :=
    makeAsPath_short fun seg hseg => (hsent seg hseg).fits.count
  have hread := pathSegments_of_segments hsent
  have hout : ∀ out : AttrSet, out.asPath = encodePath 4 (t.externalSegments path.attrs) →
      out.asPathList = t.externalSegments path.attrs := by
    intro out hasPath
    rw [AttrSet.asPathList, hasPath, hread]
  rw [transform, if_pos hebgp, transformEbgp, hmade, Option.map_some, Option.map_some]
  refine ⟨_, rfl, ?_, ?_, ?_⟩
  · rw [hout _ rfl]
    exact hsent
  · rw [hout _ rfl]
    rfl
  · rw [hout _ rfl, t.externalSegments_eq fun seg hseg => (hlearned seg hseg).ne_nil]

/-- The external AS_PATH transform is exact. -/
theorem externalPath_exact (rx : RegexEngine) (lists : Resolver) (t : AdjRibOut)
    (hebgp : t.peer.isEbgp = true) (hlocal : t.localAs < 2 ^ 32) (path : BgpPath)
    (hlearned : CanonicalPath path.attrs.asPath) :
    (∃ out, t.transform path = some out ∧
      -- our AS, and what is told of the learned ones in their order
      out.asPathList.flatMap Prod.snd = t.localAs ::
        (path.attrs.asPathList.flatMap Prod.snd).filterMap (t.toldAs path.attrs) ∧
      -- in their segments, ours in the leading sequence or in one of its own
      (out.asPathList =
          (AS_SEQUENCE, [t.localAs]) :: rewrite (t.toldAs path.attrs) path.attrs.asPathList ∨
        ∃ asns rest,
          rewrite (t.toldAs path.attrs) path.attrs.asPathList = (AS_SEQUENCE, asns) :: rest ∧
          out.asPathList = (AS_SEQUENCE, t.localAs :: asns) :: rest) ∧
      (∀ seg ∈ out.asPathList, seg.2 ≠ [] ∧ seg.2.length ≤ 255) ∧
      CanonicalPath out.asPath ∧
      -- without outbound policy it is what goes out
      (t.policy.empty → ∀ pfx told, t.outboundAttrs rx lists pfx path = some (.ok told) →
        told.asPath = out.asPath)) ∧
    (∀ pfx, (t.outboundAttrs rx lists pfx path).isSome) ∧
    -- `as_path_list` and `make_as_path` are inverse
    (∀ a : AttrSet, CanonicalPath a.asPath → makeAsPath a.asPathList = some a.asPath) ∧
    (∀ segments, (∀ seg ∈ segments, CanonicalSegment seg) →
      ∃ bytes, makeAsPath segments = some bytes ∧ CanonicalPath bytes ∧
        ∀ a : AttrSet, a.asPath = bytes → a.asPathList = segments) := by
  refine ⟨?_, ?_, ?_, ?_⟩
  · obtain ⟨out, hout, hcanon, hbytes, hsegments⟩ := transform_external hebgp hlocal hlearned
    refine ⟨out, hout, ?_, ?_, ?_, ?_, ?_⟩
    · rw [hsegments, flatMap_prependOne, flatMap_rewrite]
    · rw [hsegments]
      exact prependOne_cases _ _
    · exact fun seg hseg => ⟨(hcanon seg hseg).ne_nil, (hcanon seg hseg).fits.count⟩
    · rw [hbytes]
      exact canonicalPath_of_segments hcanon
    · intro hempty pfx told htold
      rw [outboundAttrs] at htold
      split at htold
      · simp at htold
      · split at htold
        · simp at htold
        · rw [hout, Option.map_some, policed, if_pos hempty] at htold
          simp only [Option.some.injEq, Except.ok.injEq] at htold
          rw [← htold]
          rfl
  · exact fun pfx => outboundAttrs_isSome rx lists t pfx path
  · exact fun a ha => makeAsPath_pathSegments ha
  · intro segments hcanon
    refine ⟨_, makeAsPath_short fun seg hseg => (hcanon seg hseg).fits.count,
      canonicalPath_of_segments hcanon, ?_⟩
    intro a ha
    rw [AttrSet.asPathList, ha, pathSegments_of_segments hcanon]

/-- A provider's table for a customer site whose AS every site shares. -/
def siteTable : AdjRibOut where
  peer := ⟨1, some 1, 65001, 65000, 0, [192, 0, 2, 1], true⟩
  afi := AFI_IP
  safi := SAFI_UNICAST
  localAs := 65000
  routerId := 0
  localAddr := [192, 0, 2, 2]
  nextHopSelf := false
  defaultLocalPref := 100
  sendCommunity := true
  sendExtCommunity := true
  sendLargeCommunity := true
  maxSize := 4096
  as4 := true
  addPathSend := false
  removePrivateAs := .all
  asOverride := true
  senderLoopCheck := true
  policy := PERMIT_ALL
  advertised := Dict.empty
  announced := Dict.empty
  withdrawn := Dict.empty

/-- A path of another site: the shared AS, a private one and a public one. -/
def sitePath : BgpPath where
  oid := 0
  attrs := { asPath := encodePath 4 [(AS_SEQUENCE, [65001, 64512, 3])] }
  interned := 0
  peer := ⟨2, some 2, 65001, 65000, 0, [192, 0, 2, 3], true⟩
  pathId := 0
  weight := 0
  source := .peer
  igpMetric := 0
  recvTime := 1
  resolved := true

theorem externalPath_exact_site : ∃ out, siteTable.transform sitePath = some out ∧
    out.asPathList.flatMap Prod.snd = [65000, 65000, 3] := by
  have hlearned : CanonicalPath sitePath.attrs.asPath :=
    canonicalPath_of_segments (List.forall_mem_singleton.mpr ⟨⟨by decide, by decide⟩, rfl⟩)
  obtain ⟨⟨out, hout, hasns, -⟩, -⟩ := externalPath_exact ⟨fun _ => true, fun _ _ => true⟩
    PolicyStore.new.resolver siteTable rfl (by decide) sitePath hlearned
  exact ⟨out, hout, hasns.trans (by decide +kernel)⟩

end AdjRibOut

end Packets
