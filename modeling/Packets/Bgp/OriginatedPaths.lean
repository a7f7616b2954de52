/-
What next-hop validation makes of the networks this router originates.

A network's path is put into its Loc-RIB resolved; its next hop is zeros, so the next pass that
asks the resolver about it takes the answer over.
-/
import Packets.Bgp.NetworksRuns
import Packets.Bgp.ValidationRuns

namespace Packets

namespace LocRib

/-- A property of a Loc-RIB that every call but a re-validation keeps. -/
structure Kept (P : LocRib → Prop) : Prop where
  bare : ∀ {l : LocRib}, l.dests = Dict.empty → l.nhDests = Dict.empty → P l
  reselect : ∀ {l : LocRib}, P l → ∀ limit, P (l.reselect limit)
  setConfig : ∀ {l : LocRib}, P l → ∀ config, P (l.setConfig config)
  removePath : ∀ {l : LocRib}, P l → ∀ peer pfx pathId, P (l.removePath peer pfx pathId)
  removePeer : ∀ {l : LocRib}, P l → ∀ peer, P (l.removePeer peer)
  originate : ∀ {l l' : LocRib}, P l → ∀ now attrs pfx,
    l.addPath LOCAL_PEER pfx (BgpTables.localArrival now attrs) = some l' → P l'
  learn : ∀ {l l' : LocRib}, P l → ∀ peer pfx a, a.source = .peer →
    l.addPath peer pfx a = some l' → P l'

end LocRib

namespace BgpTables

variable {t t' : BgpTables} {P : LocRib → Prop}

/-- A property of the Loc-RIB of every family. -/
def Every (P : LocRib → Prop) (t : BgpTables) : Prop := ∀ af l, t.locribs.get? af = some l → P l

theorem every_congr (h : t.Every P) (hl : t'.locribs = t.locribs) : t'.Every P := by
  intro af l hget
  rw [hl] at hget
  exact h af l hget

theorem every_set (h : t.Every P) {key : Family} {l' : LocRib} (hl' : P l')
    (ht : t'.locribs = t.locribs.set key l') : t'.Every P := by
  intro af l hget
  rw [ht, Dict.get?_set] at hget
  split at hget
  · cases hget
    exact hl'
  · exact h af l hget

theorem every_mapValues {f : LocRib → LocRib} (h : ∀ af l, t.locribs.get? af = some l → P (f l))
    (ht : t'.locribs = t.locribs.mapValues fun _ l => f l) : t'.Every P := by
  intro af l' hget
  rw [ht, Dict.get?_mapValues, Option.map_eq_some_iff] at hget
  obtain ⟨l, hl, rfl⟩ := hget
  exact h af l hl

section Steps

variable (hkept : LocRib.Kept P)

include hkept

theorem shutdownAll_every : t.shutdownAll.Every P :=
  every_mapValues (t := t) (f := LocRib.clear) (fun _ _ _ => hkept.bare rfl rfl) rfl

theorem rebuildLocrib_every (fresh : Fresh) (config : Family → BestpathConfig)
    (distances : Family → Nat × Nat) (h : t.Every P) {key : Family}
    (ht : t'.locribs = rebuildLocrib fresh config distances t.locribs key) : t'.Every P := by
  rw [rebuildLocrib] at ht
  cases hl : t.locribs.get? key with
  | none =>
    rw [hl] at ht
    exact every_set h (hkept.bare rfl rfl) ht
  | some l =>
    rw [hl] at ht
    exact every_set h (hkept.setConfig (h key l hl) (config key)) ht

theorem foldl_rebuildLocrib_every (fresh : Fresh) (config : Family → BestpathConfig)
    (distances : Family → Nat × Nat) (families : List Family) {t : BgpTables} (h : t.Every P)
    (ht : t'.locribs = families.foldl (rebuildLocrib fresh config distances) t.locribs) :
    t'.Every P := by
  induction families generalizing t with
  | nil => exact every_congr h ht
  | cons key families ih =>
    have hstep : ({ t with
        locribs := rebuildLocrib fresh config distances t.locribs key } : BgpTables).Every P :=
      rebuildLocrib_every hkept fresh config distances h rfl
    exact ih hstep ht

theorem adopt_every (fresh : Fresh) (h : t.Every P) (asn : Nat) (body : BgpBody) :
    (t.adopt fresh asn body).Every P := by
  let rebuilt := { t with
    locribs := body.families.foldl (rebuildLocrib fresh
      (body.bestpathConfig asn (body.routerId.getD t.routerId)) body.distances) t.locribs }
  have hrebuilt : rebuilt.Every P := foldl_rebuildLocrib_every hkept fresh _ _ _ h rfl
  intro af l hget
  have hfilter : (rebuilt.locribs.get? af).filter (fun _ => body.families.contains af) =
      some l := (Dict.get?_filter _ _ af).symm.trans hget
  exact hrebuilt af l (Option.filter_eq_some_iff.mp hfilter).1

theorem withdrawNetwork_every (h : t.Every P) (key : Family × String) :
    (t.withdrawNetwork key).Every P := by
  rw [withdrawNetwork]
  cases hl : t.locribs.get? key.1 with
  | none => exact every_congr h rfl
  | some l =>
    cases parsePrefix key.2 with
    | none => exact every_congr h rfl
    | some pfx => exact every_set h (hkept.removePath (h key.1 l hl) LOCAL_PEER pfx 0) rfl

theorem originate_every (h : t.Every P) (now : Int)
    (item : (Family × String) × Prefix × AttrSet) : (originate now t item).1.Every P := by
  rw [originate]
  split
  · exact h
  split
  · exact h
  next l hl =>
  split
  · exact h
  next l' hadd =>
  exact every_set h (hkept.originate (h item.1.1 l hl) now _ _ hadd) rfl

theorem syncNetworks_every (h : t.Every P) (now : Int) : (t.syncNetworks now).1.Every P := by
  have hwithdrawn : ∀ (gone : List (Family × String)) {t : BgpTables}, t.Every P →
      (gone.foldl withdrawNetwork t).Every P := by
    intro gone
    induction gone with
    | nil => exact fun h => h
    | cons key gone ih => exact fun h => ih (withdrawNetwork_every hkept h key)
  rw [syncNetworks]
  apply runEach_induction
  · exact fun t item _ h => originate_every hkept h now item
  · exact hwithdrawn _ h

theorem resync_every (h : t.Every P) (now : Int) : (t.resync now).1.Every P := by
  rw [resync]
  split
  · exact h
  · exact syncNetworks_every hkept h now

theorem commitConfig_every (h : t.Every P) (fresh : Fresh) (now : Int)
    (bgp : BgpTablesSection) : (t.commitConfig fresh now bgp).1.Every P := by
  cases bgp with
  | none => exact shutdownAll_every hkept
  | some section_ =>
    obtain ⟨asn, body⟩ := section_
    have hsynced := syncNetworks_every hkept (adopt_every hkept fresh h asn body) now
    rw [commitConfig]
    generalize (t.adopt fresh asn body).syncNetworks now = synced at hsynced ⊢
    obtain ⟨synced, done⟩ := synced
    cases done with
    | false => exact hsynced
    | true =>
      have hreset : (if t.localAs ≠ 0 ∧ t.localAs ≠ asn then synced.shutdownAll
          else synced).Every P := by
        split
        · exact shutdownAll_every hkept
        · exact hsynced
      exact every_congr hreset rfl

theorem callSession_every (h : t.Every P) (af : Family) (call : SessionCall) :
    (t.callSession af call).Every P := by
  rw [callSession]
  split
  · exact h
  next l hl =>
  apply every_set h _ rfl
  cases call with
  | arrive peer pfx arrival =>
    rw [callLocrib]
    cases hadd : l.addPath peer pfx { arrival with
        source := .peer
        resolved := (t.sessionAnswer af.1 arrival.attrs.nexthop).1
        igpMetric := (t.sessionAnswer af.1 arrival.attrs.nexthop).2 } with
    | none => exact h af l hl
    | some l' => exact hkept.learn (h af l hl) peer pfx _ rfl hadd
  | withdraw peer pfx pathId => exact hkept.removePath (h af l hl) peer pfx pathId
  | release peer => exact hkept.removePeer (h af l hl) peer

/-- A pass that re-validates keeps the property when the re-validation does. -/
theorem runPass_every (h : t.Every P) (limit now : Int)
    (hcheck : t.nextHopValidation = true → t.nhMarker ≠ some t.marker →
      ∀ af l, t.locribs.get? af = some l → P ((l.reselect limit).revalidate t.checkNexthop)) :
    (t.runPass limit now).1.Every P := by
  apply resync_every hkept
  let selected : BgpTables :=
    { t with locribs := t.locribs.mapValues fun _ l => l.reselect limit }
  have hselected : selected.Every P :=
    every_mapValues (t := t) (fun af l hl => hkept.reselect (h af l hl) limit) rfl
  change (if t.nextHopValidation then selected.revalidate else selected).Every P
  split
  · next hon =>
    rw [revalidate]
    split
    · exact hselected
    next hmoved =>
    refine every_mapValues (t := selected) (f := fun l => l.revalidate t.checkNexthop) ?_ rfl
    intro af l hget
    rw [Dict.get?_mapValues, Option.map_eq_some_iff] at hget
    obtain ⟨l₀, hl₀, rfl⟩ := hget
    exact hcheck hon hmoved af l₀ hl₀
  · exact hselected

/-- What every step keeps, the re-validation of a pass apart. -/
theorem step_every (h : t.Every P) (op : Op)
    (hcheck : ∀ limit now, op = .pass limit now → t.nextHopValidation = true →
      t.nhMarker ≠ some t.marker → ∀ af l, t.locribs.get? af = some l →
        P ((l.reselect limit).revalidate t.checkNexthop)) : (t.step op).Every P := by
  cases op with
  | start engine => exact every_congr h rfl
  | commit fresh now bgp => exact commitConfig_every hkept h fresh now bgp
  | pass limit now => exact runPass_every hkept h limit now (hcheck limit now rfl)
  | session af call => exact callSession_every hkept h af call
  | policy now store =>
    have hset : (t.setStore store).Every P := every_congr h rfl
    exact resync_every hkept hset now
  | core op => exact every_congr h rfl
  | stop => exact every_congr (shutdownAll_every hkept) rfl

end Steps

end BgpTables

namespace LocRib

/-- The path of an originated network with a next hop of zeros. -/
def Originated (l : LocRib) (q : Prefix) (p : BgpPath) : Prop :=
  p ∈ l.pathsFor q ∧ p.source = .local ∧ ∀ b ∈ p.attrs.nexthop, b = 0

/-- Every originated path is resolved, and so is among the candidates of a selection. -/
def ShowsNetworks (l : LocRib) : Prop :=
  ∀ q p, l.Originated q p → p.resolved = true ∧ p ∈ (l.pathsFor q).filter BgpPath.resolved

/-- A well-formed table whose originated paths are resolved. -/
def Showing (l : LocRib) : Prop := l.Wf ∧ ∀ q p, l.Originated q p → p.resolved = true

variable {l l' : LocRib}

theorem Showing.showsNetworks (h : l.Showing) : l.ShowsNetworks := by
  intro q p hp
  have hresolved := h.2 q p hp
  exact ⟨hresolved, List.mem_filter.mpr ⟨hp.1, hresolved⟩⟩

theorem Shrinks.showing (hs : Shrinks l l') (hw' : l'.Wf) (h : l.Showing) : l'.Showing :=
  ⟨hw', fun q p hp => h.2 q p ⟨hs.paths q p hp.1, hp.2⟩⟩

theorem addPath_showing {peer : PeerRef} {pfx : Prefix} {a : Arrival} (h : l.Showing)
    (harrived : a.source = .local → a.resolved = true)
    (hadd : l.addPath peer pfx a = some l') : l'.Showing := by
  obtain ⟨hw', -, ⟨path, -, -, -, hans, hsource, hfor⟩, -⟩ := addPath_spec h.1 hadd
  refine ⟨hw', ?_⟩
  rintro q p ⟨hp, hlocal, hzero⟩
  rw [hfor q] at hp
  split at hp
  · rcases mem_putPath hp with rfl | hold
    · rw [hsource] at hlocal
      exact (congrArg Prod.fst hans).trans (harrived hlocal)
    · exact h.2 q p ⟨hold, hlocal, hzero⟩
  · exact h.2 q p ⟨hp, hlocal, hzero⟩

theorem showing_kept : Kept Showing where
  bare := by
    intro l hdests hnh
    refine ⟨wf_of_dests_empty hdests hnh, ?_⟩
    rintro q p ⟨hp, -⟩
    rw [pathsFor, hdests] at hp
    exact absurd hp List.not_mem_nil
  reselect h limit := (reselect_spec h.1 limit).2.1.showing (reselect_spec h.1 limit).1 h
  setConfig h config := (setConfig_spec h.1 config).2.1.showing (setConfig_spec h.1 config).1 h
  removePath h peer pfx pathId :=
    (removePath_spec h.1 peer pfx pathId).2.showing (removePath_spec h.1 peer pfx pathId).1 h
  removePeer h peer := (removePeer_spec h.1 peer).2.showing (removePeer_spec h.1 peer).1 h
  originate h _ _ _ hadd := addPath_showing h (fun _ => rfl) hadd
  learn h _ _ a hpeer hadd := by
    apply addPath_showing h _ hadd
    intro hlocal
    rw [hpeer] at hlocal
    exact absurd hlocal (by simp)

theorem refresh_source (check : Check) (afi : Nat) (cached : Dict Bytes (Bool × Nat))
    (nexthops : List Bytes) (p : BgpPath) :
    (refresh check afi cached nexthops p).source = p.source := by
  rw [refresh]
  split <;> rfl

/-- The next hop of every originated path is either resolved by a check, or cached with
the answer it is given. -/
def Spares (l : LocRib) (check : Check) : Prop :=
  ∀ q p, l.Originated q p → p.attrs.nexthop ≠ [] →
    (check l.afi p.attrs.nexthop).1 = true ∨
      l.nhState.get? p.attrs.nexthop = some (check l.afi p.attrs.nexthop)

/-- A re-validation leaves the originated paths resolved exactly when it spares them. -/
theorem revalidate_showing_iff (h : l.Showing) (check : Check) :
    (l.revalidate check).Showing ↔ l.Spares check := by
  obtain ⟨hw', -, hfor, -⟩ := revalidate_spec h.1 check
  have horiginated : ∀ q p, l.Originated q p →
      (l.revalidate check).Originated q (refresh check l.afi l.nhState l.nhDests.keys p) := by
    rintro q p ⟨hp, hlocal, hzero⟩
    refine ⟨?_, (refresh_source ..).trans hlocal, by rwa [refresh_attrs]⟩
    rw [hfor q]
    exact List.mem_map_of_mem hp
  constructor
  · intro hshown q p hp hnh
    have hkey := nexthop_mem_keys h.1 hp.1 hnh
    have hresolved := hshown.2 q _ (horiginated q p hp)
    by_cases hcached : l.nhState.get? p.attrs.nexthop = some (check l.afi p.attrs.nexthop)
    · exact Or.inr hcached
    · rw [refresh, if_pos ⟨hkey, hcached⟩] at hresolved
      exact Or.inl hresolved
  · intro hspared
    refine ⟨hw', ?_⟩
    rintro q p ⟨hp, hlocal, hzero⟩
    rw [hfor q] at hp
    obtain ⟨p₀, hp₀, rfl⟩ := List.mem_map.mp hp
    rw [refresh_source] at hlocal
    rw [refresh_attrs] at hzero
    have horig : l.Originated q p₀ := ⟨hp₀, hlocal, hzero⟩
    rw [refresh]
    split
    · next htouched =>
      have hnh : p₀.attrs.nexthop ≠ [] := by
        intro hnil
        obtain ⟨dests, hdests⟩ := Dict.mem_keys_iff.mp htouched.1
        rw [hnil, h.1.named] at hdests
        exact absurd hdests (by simp)
      rcases hspared q p₀ horig hnh with hans | hcached
      · exact hans
      · exact absurd hcached htouched.2
    · exact h.2 q p₀ horig

theorem Spares.reselect (h : l.Showing) {check : Check} (hs : l.Spares check)
    (limit : Int) : (l.reselect limit).Spares check := by
  obtain ⟨hw', hshrinks, hfor⟩ := reselect_spec h.1 limit
  rintro q p ⟨hp, hlocal⟩ hnh
  obtain ⟨d, hd, hpd⟩ := mem_pathsFor.mp hp
  rw [hshrinks.nhState (hw'.files hd hpd hnh), hshrinks.afi]
  rw [hfor q] at hp
  exact hs q p ⟨hp, hlocal⟩ hnh

end LocRib

namespace BgpTables

/-- The resolver has a way to a next hop, or there is none to ask. -/
def Resolvable (t : BgpTables) (afi : Nat) (nexthop : Bytes) : Prop :=
  ∀ engine, t.engine = some engine →
    ∃ found, engine.resolver.resolve afi nexthop (some PROTO_BGP) = some (some found)

theorem checkNexthop_of_resolvable {t : BgpTables} {afi : Nat} {nexthop : Bytes}
    (h : t.Resolvable afi nexthop) : (t.checkNexthop afi nexthop).1 = true := by
  rw [checkNexthop]
  split
  · rfl
  next engine hengine =>
  split
  · rfl
  · obtain ⟨found, hfound⟩ := h engine hengine
    rw [hfound]

/-- What a pass must find if it re-validates: the next hop of every originated path is
one the resolver has a way to, or is already cached as unresolved. -/
def Reaches (t : BgpTables) : Prop :=
  t.nextHopValidation = true → t.nhMarker ≠ some t.marker →
    ∀ af l, t.locribs.get? af = some l → ∀ q p, l.Originated q p → p.attrs.nexthop ≠ [] →
      t.Resolvable l.afi p.attrs.nexthop ∨ l.nhState.get? p.attrs.nexthop = some (false, 0)

theorem checkNexthop_of_not_fst {t : BgpTables} {afi : Nat} {nexthop : Bytes}
    (h : (t.checkNexthop afi nexthop).1 ≠ true) : t.checkNexthop afi nexthop = (false, 0) := by
  rw [checkNexthop] at h ⊢
  split
  · next hengine => simp [hengine] at h
  next engine hengine =>
  rw [hengine] at h
  split
  · next hnil => simp [hnil] at h
  next hnh =>
  simp only [if_neg hnh] at h
  split
  · next found hfound => simp [hfound] at h
  · rfl

theorem Reaches.spares {t : BgpTables} (h : t.Reaches) (hon : t.nextHopValidation = true)
    (hmoved : t.nhMarker ≠ some t.marker) {af : Family} {l : LocRib}
    (hl : t.locribs.get? af = some l) : l.Spares t.checkNexthop := by
  intro q p hp hnh
  by_cases hans : (t.checkNexthop l.afi p.attrs.nexthop).1 = true
  · exact Or.inl hans
  · rcases h hon hmoved af l hl q p hp hnh with hresolvable | hcached
    · exact Or.inl (checkNexthop_of_resolvable hresolvable)
    · exact Or.inr (hcached.trans (congrArg some (checkNexthop_of_not_fst hans)).symm)

/-- What a step must find: a pass finds the next hops of the networks reachable. -/
def ReachesAt (t : BgpTables) : Op → Prop
  | .pass _ _ => t.Reaches
  | _ => True

theorem step_showing {t : BgpTables} (h : t.Every LocRib.Showing) (op : Op)
    (hmeets : t.ReachesAt op) : (t.step op).Every LocRib.Showing := by
  apply step_every LocRib.showing_kept h op
  rintro limit now rfl hon hmoved af l hl
  have hspared := (Reaches.spares hmeets hon hmoved hl).reselect (h af l hl) limit
  have hselected := LocRib.showing_kept.reselect (h af l hl) limit
  exact (LocRib.revalidate_showing_iff hselected t.checkNexthop).mpr hspared

/-- Every step of a run finds what it must find. -/
def RunReaches : List Op → BgpTables → Prop
  | [], _ => True
  | op :: rest, t => t.ReachesAt op ∧ RunReaches rest (t.step op)

theorem RunReaches.of_append {before after : List Op} {t : BgpTables}
    (h : RunReaches (before ++ after) t) : RunReaches before t := by
  induction before generalizing t with
  | nil => exact trivial
  | cons op before ih => exact ⟨h.1, ih h.2⟩

theorem run_showing {ops : List Op} {t : BgpTables} (h : t.Every LocRib.Showing)
    (hmeets : RunReaches ops t) : (t.run ops).Every LocRib.Showing := by
  induction ops generalizing t with
  | nil => exact h
  | cons op rest ih => exact ih (step_showing h op hmeets.1) hmeets.2

/-- A network with validation on. -/
def validatedStating : Op :=
  .commit emptyFresh 0 (some (65001,
    { statingBody ["10.0.0.0/8"] with nextHopValidation := some true }))

/-- An engine with a static default route that next hops may be resolved through. -/
def defaultEngine : BgpEngine :=
  { bareEngine with
    resolver := (bareEngine.resolver.act (.addStatic "0.0.0.0/0" ⟨"192.0.2.254", 1, 0⟩)).act
      (.setResolveViaDefault true) }

theorem reaches_defaultEngine : (new.run [.start defaultEngine, validatedStating]).Reaches := by
  intro _ _ af l hl q p hp _
  have hall : ((new.run [.start defaultEngine, validatedStating]).locribs.entries.all fun e =>
      e.2.dests.keys.all fun q => (e.2.pathsFor q).all fun p =>
        e.2.afi = AFI_IP ∧ p.attrs.nexthop = [0, 0, 0, 0]) = true := by decide +kernel
  have hentry := List.all_eq_true.mp hall _ (Dict.mem_entries_iff.mpr hl)
  obtain ⟨d, hd, -⟩ := LocRib.mem_pathsFor.mp hp.1
  have hpaths := List.all_eq_true.mp hentry q (Dict.mem_keys_iff.mpr ⟨d, hd⟩)
  have hpath := of_decide_eq_true (List.all_eq_true.mp hpaths p hp.1)
  left
  intro engine hengine
  rw [hpath.1, hpath.2]
  have hfound : (defaultEngine.resolver.resolve AFI_IP [0, 0, 0, 0] (some PROTO_BGP)).any
      Option.isSome = true := by decide +kernel
  have hsame : (new.run [.start defaultEngine, validatedStating]).engine = some defaultEngine := rfl
  obtain rfl := Option.some.inj (hsame.symm.trans hengine)
  obtain ⟨answer, hanswer, hsome⟩ := (Option.any_eq_true _ _).mp hfound
  obtain ⟨found, rfl⟩ := Option.isSome_iff_exists.mp hsome
  exact ⟨found, hanswer⟩

end BgpTables

end Packets
