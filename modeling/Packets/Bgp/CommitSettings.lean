/-
What a commit leaves a Loc-RIB selecting and offering with.

Every commit hands its knobs to the Loc-RIBs there are, and the distances only to those it
creates.
-/
import Packets.Bgp.PeerRoutes
import Packets.Bgp.Tables

namespace Packets

/-- The knobs without the router id, which no comparison reads. -/
def BestpathConfig.knobs (cfg : BestpathConfig) : BestpathConfig := { cfg with routerId := 0 }

namespace LocRib

/-- What selection and offers are configured with. -/
structure SameSettings (s s' : LocRib) : Prop where
  config : s'.config = s.config
  ebgp : s'.adminDistanceEbgp = s.adminDistanceEbgp
  ibgp : s'.adminDistanceIbgp = s.adminDistanceIbgp

theorem SameSettings.refl (s : LocRib) : SameSettings s s := ⟨rfl, rfl, rfl⟩

theorem SameSettings.trans {s s' s'' : LocRib} (h : SameSettings s s')
    (h' : SameSettings s' s'') : SameSettings s s'' :=
  ⟨h'.config.trans h.config, h'.ebgp.trans h.ebgp, h'.ibgp.trans h.ibgp⟩

theorem Quiet.settings {s s' : LocRib} (h : Quiet s s') : SameSettings s s' :=
  ⟨h.core.config, h.core.ebgp, h.core.ibgp⟩

theorem foldl_settings {α : Type} {body : LocRib → α → LocRib}
    (hbody : ∀ s a, SameSettings s (body s a)) (todo : List α) (s : LocRib) :
    SameSettings s (todo.foldl body s) := by
  induction todo generalizing s with
  | nil => exact SameSettings.refl s
  | cons a todo ih => exact (hbody s a).trans (ih _)

theorem dest_settings {s s' : LocRib} {pfx : Prefix} {d : DestId}
    (h : s.dest pfx = some (s', d)) : SameSettings s s' := by
  rw [dest] at h
  split at h
  · exact absurd h (by simp)
  · split at h
    · simp only [Option.some.injEq, Prod.mk.injEq] at h
      rw [← h.1]
      exact SameSettings.refl s
    · simp only [Option.some.injEq, Prod.mk.injEq] at h
      rw [← h.1]
      exact ⟨rfl, rfl, rfl⟩

theorem indexAdd_settings (s : LocRib) (peer : PeerRef) (d : DestId) :
    SameSettings s (s.indexAdd peer d) := ⟨rfl, rfl, rfl⟩

theorem addPath_settings {s s' : LocRib} {peer : PeerRef} {pfx : Prefix} {a : Arrival}
    (h : s.addPath peer pfx a = some s') : SameSettings s s' := by
  rw [addPath] at h
  cases hdest : s.dest pfx with
  | none => rw [hdest] at h; exact absurd h (by simp)
  | some found =>
    obtain ⟨s₀, d⟩ := found
    rw [hdest, Option.some.injEq] at h
    rw [← h]
    apply (dest_settings hdest).trans
    -- The path is stored, the one it replaced is settled, and both are indexed.
    apply SameSettings.trans _ (enqueue_quiet _ d).settings
    apply SameSettings.trans _ (indexNexthop_quiet _ _ d _ _).settings
    apply SameSettings.trans _ (indexAdd_settings _ peer d)
    apply SameSettings.trans _ (settleReplaced_quiet _ d _ _).settings
    exact ⟨rfl, rfl, rfl⟩

theorem removePath_settings (s : LocRib) (peer : PeerRef) (pfx : Prefix) (pathId : Nat) :
    SameSettings s (s.removePath peer pfx pathId) := by
  rw [removePath]
  split
  · exact SameSettings.refl s
  · rename_i d _
    split
    · exact SameSettings.refl s
    · rename_i path _
      dsimp only
      apply SameSettings.trans _ (unindexNexthop_quiet _ _ d).settings
      apply SameSettings.trans _ (dropEmpty_quiet _ d).settings
      apply SameSettings.trans _ (enqueue_quiet _ d).settings
      split
      · exact ⟨rfl, rfl, rfl⟩
      · apply SameSettings.trans _ (indexRemove_quiet _ peer pfx).settings
        exact ⟨rfl, rfl, rfl⟩

theorem removePeerFrom_settings (peer : PeerRef) (s : LocRib) (d : DestId) :
    SameSettings s (removePeerFrom peer s d) := by
  rw [removePeerFrom]
  dsimp only
  split
  · exact ⟨rfl, rfl, rfl⟩
  · apply SameSettings.trans _ (foldl_unindexNexthop_quiet _ d _).settings
    apply SameSettings.trans _ (dropEmpty_quiet _ d).settings
    apply SameSettings.trans _ (enqueue_quiet _ d).settings
    exact ⟨rfl, rfl, rfl⟩

theorem removePeer_settings (s : LocRib) (peer : PeerRef) : SameSettings s (s.removePeer peer) := by
  rw [removePeer]
  split
  · exact SameSettings.refl s
  · apply SameSettings.trans _ (foldl_settings (removePeerFrom_settings peer) _ _)
    exact ⟨rfl, rfl, rfl⟩

theorem revalidateDest_settings (nexthop : Bytes) (answer : Bool × Nat) (s : LocRib)
    (entry : Prefix × DestId) : SameSettings s (revalidateDest nexthop answer s entry) := by
  rw [revalidateDest]
  split
  · exact SameSettings.refl s
  · split
    · apply SameSettings.trans _ (enqueue_quiet _ entry.2).settings
      exact ⟨rfl, rfl, rfl⟩
    · exact SameSettings.refl s

theorem revalidateNexthop_settings (check : Check) (s : LocRib) (nexthop : Bytes) :
    SameSettings s (revalidateNexthop check s nexthop) := by
  rw [revalidateNexthop]
  split
  · exact SameSettings.refl s
  · dsimp only
    split
    · exact (fileNexthop_quiet s nexthop _).settings
    · apply SameSettings.trans _ (fileNexthop_quiet _ nexthop _).settings
      apply SameSettings.trans _ (foldl_settings (revalidateDest_settings nexthop _) _ _)
      exact ⟨rfl, rfl, rfl⟩

theorem revalidate_settings (s : LocRib) (check : Check) : SameSettings s (s.revalidate check) :=
  foldl_settings (revalidateNexthop_settings check) _ s

theorem publish_settings (s : LocRib) (previous : Option BgpPath) (dest : BgpDest) :
    SameSettings s (s.publish previous dest) := by
  obtain ⟨-, hconfig, hebgp, hibgp⟩ := publish_nextPath s previous dest
  exact ⟨hconfig, hebgp, hibgp⟩

theorem reselectDest_settings (s : LocRib) (d : DestId) : SameSettings s (s.reselectDest d) := by
  rw [reselectDest_eq]
  dsimp only
  split
  · apply SameSettings.trans _ (dropEmpty_quiet _ d).settings
    apply SameSettings.trans _ (publish_settings _ _ _)
    exact ⟨rfl, rfl, rfl⟩
  · apply SameSettings.trans _ (publish_settings _ _ _)
    exact ⟨rfl, rfl, rfl⟩

theorem reselect_settings (s : LocRib) (limit : Int) : SameSettings s (s.reselect limit) := by
  apply SameSettings.trans _ (foldl_settings reselectDest_settings _ _)
  exact ⟨rfl, rfl, rfl⟩

theorem retract_settings (s : LocRib) (pfx : Prefix) : SameSettings s (s.retract pfx) := by
  rw [retract]
  split <;> exact ⟨rfl, rfl, rfl⟩

theorem clear_settings (s : LocRib) : SameSettings s s.clear := by
  have hemptied : ∀ s' : LocRib, SameSettings s s' → SameSettings s { s' with
      dests := Dict.empty
      byPeer := Dict.empty
      nhDests := Dict.empty
      nhState := Dict.empty
      offered := []
      queue := []
      pathCount := 0 } :=
    fun s' h => ⟨h.config, h.ebgp, h.ibgp⟩
  rw [clear]
  apply hemptied
  apply SameSettings.trans _ (foldl_settings retract_settings _ _)
  apply SameSettings.trans _ (foldl_unqueue_quiet _ _).settings
  exact ⟨rfl, rfl, rfl⟩

theorem setConfig_settings (s : LocRib) (config : BestpathConfig) :
    SameSettings { s with config := config } (s.setConfig config) := by
  rw [setConfig]
  split
  · rename_i hsame
    exact ⟨hsame.symm, rfl, rfl⟩
  · exact foldl_settings (fun s d => (enqueue_quiet s d).settings) _ _

/-- The knobs and the two distances. -/
def settings (s : LocRib) : BestpathConfig × Nat × Nat :=
  (s.config, s.adminDistanceEbgp, s.adminDistanceIbgp)

theorem SameSettings.eq {s s' : LocRib} (h : SameSettings s s') : s'.settings = s.settings := by
  rw [settings, h.config, h.ebgp, h.ibgp]
  rfl

end LocRib

namespace BgpTables

/-- What the Loc-RIB of a family is configured with, if there is one. -/
def settingsAt (t : BgpTables) (af : Family) : Option (BestpathConfig × Nat × Nat) :=
  (t.locribs.get? af).map LocRib.settings

variable {t t' : BgpTables}

theorem settingsAt_mapValues {f : LocRib → LocRib} (hf : ∀ l, LocRib.SameSettings l (f l))
    (ht : t'.locribs = t.locribs.mapValues fun _ l => f l) (af : Family) :
    t'.settingsAt af = t.settingsAt af := by
  rw [settingsAt, ht, Dict.get?_mapValues, Option.map_map, settingsAt]
  apply congrArg (Option.map · (t.locribs.get? af))
  funext l
  exact (hf l).eq

theorem settingsAt_set {key : Family} {l l' : LocRib} (hl : t.locribs.get? key = some l)
    (hsame : LocRib.SameSettings l l') (ht : t'.locribs = t.locribs.set key l')
    (af : Family) : t'.settingsAt af = t.settingsAt af := by
  rw [settingsAt, ht, Dict.get?_set, settingsAt]
  by_cases haf : af = key
  · rw [if_pos haf, haf, hl, Option.map_some, Option.map_some, hsame.eq]
  · rw [if_neg haf]

theorem settingsAt_withdrawNetwork (t : BgpTables) (key : Family × String) (af : Family) :
    (t.withdrawNetwork key).settingsAt af = t.settingsAt af := by
  rw [withdrawNetwork]
  cases hl : t.locribs.get? key.1 with
  | none => rfl
  | some l =>
    cases hp : parsePrefix key.2 with
    | none => rfl
    | some pfx => exact settingsAt_set hl (LocRib.removePath_settings l _ pfx 0) rfl af

theorem settingsAt_originate (now : Int) (t : BgpTables)
    (item : (Family × String) × Prefix × AttrSet) (af : Family) :
    (originate now t item).1.settingsAt af = t.settingsAt af := by
  rw [originate]
  split
  · rfl
  · split
    · rfl
    · rename_i l hl
      split
      · rfl
      · rename_i l' hadd
        exact settingsAt_set hl (LocRib.addPath_settings hadd) rfl af

theorem settingsAt_syncNetworks (t : BgpTables) (now : Int) (af : Family) :
    (t.syncNetworks now).1.settingsAt af = t.settingsAt af := by
  rw [syncNetworks]
  apply runEach_induction (motive := fun t' : BgpTables => t'.settingsAt af = t.settingsAt af)
  · intro t' item _ ht'
    exact (settingsAt_originate now t' item af).trans ht'
  · generalize t.networks.keys.filter (fun key => !(t.wanted.map Prod.fst).contains key) = gone
    induction gone generalizing t with
    | nil => rfl
    | cons key gone ih => exact (ih _).trans (settingsAt_withdrawNetwork t key af)

theorem settingsAt_shutdownAll (t : BgpTables) (af : Family) :
    t.shutdownAll.settingsAt af = t.settingsAt af :=
  settingsAt_mapValues LocRib.clear_settings rfl af

theorem settingsAt_selectAndCheck (t : BgpTables) (limit : Int) (af : Family) :
    (t.selectAndCheck limit).settingsAt af = t.settingsAt af := by
  have hselected : ({ t with locribs := t.locribs.mapValues fun _ l => l.reselect limit } :
      BgpTables).settingsAt af = t.settingsAt af :=
    settingsAt_mapValues (fun l => l.reselect_settings limit) rfl af
  have hrevalidated : ∀ u : BgpTables, u.revalidate.settingsAt af = u.settingsAt af := by
    intro u
    rw [revalidate]
    split
    · rfl
    · exact settingsAt_mapValues (fun l => l.revalidate_settings u.checkNexthop) rfl af
  simp only [selectAndCheck]
  split
  · exact (hrevalidated _).trans hselected
  · exact hselected

theorem settingsAt_resync (t : BgpTables) (now : Int) (af : Family) :
    (t.resync now).1.settingsAt af = t.settingsAt af := by
  rw [resync]
  split
  · rfl
  · exact settingsAt_syncNetworks t now af

theorem settingsAt_callSession (t : BgpTables) (key : Family) (call : SessionCall)
    (af : Family) : (t.callSession key call).settingsAt af = t.settingsAt af := by
  rw [callSession]
  cases hl : t.locribs.get? key with
  | none => rfl
  | some l =>
    apply settingsAt_set hl _ rfl af
    cases call with
    | arrive peer pfx arrival =>
      rw [callLocrib]
      cases hadd : l.addPath peer pfx { arrival with
          source := .peer
          resolved := (t.sessionAnswer key.1 arrival.attrs.nexthop).1
          igpMetric := (t.sessionAnswer key.1 arrival.attrs.nexthop).2 } with
      | none => exact LocRib.SameSettings.refl l
      | some l' => exact LocRib.addPath_settings hadd
    | withdraw peer pfx pathId => exact l.removePath_settings peer pfx pathId
    | release peer => exact l.removePeer_settings peer

/-- The distances a Loc-RIB offers with. -/
def distancesAt (t : BgpTables) (af : Family) : Option (Nat × Nat) := (t.settingsAt af).map Prod.snd

/-- Rebuilding adopts the knobs, and keeps the distances of a Loc-RIB there is. -/
theorem settingsAt_rebuildLocribs (fresh : Fresh) (t : BgpTables) (body : BgpBody) (af : Family) :
    (t.rebuildLocribs fresh body).settingsAt af =
      if af ∈ body.families then
        some (body.bestpathConfig t.localAs t.routerId af,
          (t.distancesAt af).getD (body.distances af))
      else none := by
  have hfold : ∀ (config : Family → BestpathConfig) (distances : Family → Nat × Nat)
      (families : List Family) (locribs : Dict Family LocRib),
      ((families.foldl (rebuildLocrib fresh config distances) locribs).get? af).map
          LocRib.settings =
        if af ∈ families then
          some (config af, (((locribs.get? af).map LocRib.settings).map Prod.snd).getD
            (distances af))
        else (locribs.get? af).map LocRib.settings := by
    intro config distances families
    induction families with
    | nil => exact fun locribs => by simp
    | cons key families ih =>
      intro locribs
      have hstep : ((rebuildLocrib fresh config distances locribs key).get? af).map
          LocRib.settings =
          if af = key then
            some (config af, (((locribs.get? af).map LocRib.settings).map Prod.snd).getD
              (distances af))
          else (locribs.get? af).map LocRib.settings := by
        rw [rebuildLocrib]
        cases hl : locribs.get? key with
        | none =>
          rw [Dict.get?_set]
          by_cases haf : af = key
          · rw [if_pos haf, if_pos haf, haf, hl]
            rfl
          · rw [if_neg haf, if_neg haf]
        | some l =>
          rw [Dict.get?_set]
          by_cases haf : af = key
          · rw [if_pos haf, if_pos haf, haf, hl]
            exact congrArg some (l.setConfig_settings (config key)).eq
          · rw [if_neg haf, if_neg haf]
      rw [List.foldl_cons, ih, hstep]
      by_cases haf : af = key
      · simp only [List.mem_cons, haf, true_or, if_true, Option.map_some, Option.getD_some]
        split <;> rfl
      · simp only [haf, List.mem_cons, false_or, if_false]
  rw [settingsAt, rebuildLocribs]
  simp only [Dict.get?_filter]
  have hall := hfold (body.bestpathConfig t.localAs t.routerId) body.distances
    body.families t.locribs
  generalize body.families.foldl
    (rebuildLocrib fresh (body.bestpathConfig t.localAs t.routerId) body.distances)
    t.locribs = rebuilt at hall ⊢
  by_cases haf : af ∈ body.families
  · rw [if_pos haf] at hall ⊢
    rw [distancesAt, settingsAt, ← hall]
    cases rebuilt.get? af with
    | none => rfl
    | some l => rw [Option.filter_some, if_pos (List.contains_iff_mem.mpr haf)]
  · rw [if_neg haf]
    cases rebuilt.get? af with
    | none => rfl
    | some l =>
      have hnot : body.families.contains af = false := by
        rw [Bool.eq_false_iff, ne_eq, List.contains_iff_mem]
        exact haf
      simp only [Option.filter_some, hnot, Bool.false_eq_true, if_false, Option.map_none]

/-- A commit of a section adopts its knobs, and its distances where there was no
Loc-RIB. -/
theorem settingsAt_commitConfig (fresh : Fresh) (now : Int) (t : BgpTables) (asn : Nat)
    (body : BgpBody) (af : Family) :
    (t.commitConfig fresh now (some (asn, body))).1.settingsAt af =
      if af ∈ body.families then
        some (body.bestpathConfig asn (body.routerId.getD t.routerId) af,
          (t.distancesAt af).getD (body.distances af))
      else none := by
  have hrebuilt := settingsAt_rebuildLocribs fresh { t with
    localAs := asn
    routerId := body.routerId.getD t.routerId
    nextHopValidation := body.nextHopValidation.getD false } body af
  have hsettings := (settingsAt_syncNetworks (t.adopt fresh asn body) now af).trans hrebuilt
  rw [commitConfig]
  generalize (t.adopt fresh asn body).syncNetworks now = synced at hsettings ⊢
  obtain ⟨synced, done⟩ := synced
  cases done with
  | false => exact hsettings
  | true =>
    simp only
    split
    · exact (settingsAt_shutdownAll synced af).trans hsettings
    · exact hsettings

/-- The distances in force for a family after one more step: those of the commit that
first carries it, until a commit of a section does not. -/
def settle (af : Family) (distances : Option (Nat × Nat)) : Op → Option (Nat × Nat)
  | .commit _ _ (some (_, body)) =>
    if af ∈ body.families then some (distances.getD (body.distances af)) else none
  | .commit _ _ none => distances
  | .start _ => distances
  | .pass _ _ => distances
  | .session _ _ => distances
  | .policy _ _ => distances
  | .core _ => distances
  | .stop => distances

/-- What the commits of a run settle. -/
def settled (ops : List Op) (af : Family) : Option (Nat × Nat) := ops.foldl (settle af) none

theorem distancesAt_step (t : BgpTables) (op : Op) (af : Family) :
    (t.step op).distancesAt af = settle af (t.distancesAt af) op := by
  have hsame : ∀ u : BgpTables, u.settingsAt af = t.settingsAt af →
      u.distancesAt af = t.distancesAt af := by
    intro u hu
    rw [distancesAt, hu]
    rfl
  cases op with
  | start engine => exact hsame _ rfl
  | commit fresh now bgp =>
    cases bgp with
    | none => exact hsame _ (settingsAt_shutdownAll t af)
    | some section_ =>
      obtain ⟨asn, body⟩ := section_
      rw [step, distancesAt, settingsAt_commitConfig, settle]
      split <;> rfl
  | pass limit now =>
    exact hsame _ ((settingsAt_resync _ now af).trans (settingsAt_selectAndCheck t limit af))
  | session key call => exact hsame _ (settingsAt_callSession t key call af)
  | policy now store => exact hsame _ (settingsAt_resync (t.setStore store) now af)
  | core op => exact hsame _ rfl
  | stop => exact hsame _ (settingsAt_shutdownAll t af)

theorem distancesAt_run (ops : List Op) (af : Family) :
    (new.run ops).distancesAt af = settled ops af := by
  have hrun : ∀ t : BgpTables, (t.run ops).distancesAt af =
      ops.foldl (settle af) (t.distancesAt af) := by
    induction ops with
    | nil => exact fun _ => rfl
    | cons op ops ih =>
      intro t
      rw [run, List.foldl_cons, List.foldl_cons, ← distancesAt_step]
      exact ih _
  exact hrun new

/-- After a last commit of a section, a Loc-RIB selects with the knobs a new plugin gives it,
and offers with its distances exactly when those already settled for the family, if any, are
those of the section. -/
theorem commit_converges_iff (before : List Op) (fresh fresh' : Fresh) (now now' : Int)
    (asn : Nat) (body : BgpBody) {af : Family} (haf : af ∈ body.families) :
    ∃ l l', (new.run (before ++ [.commit fresh now (some (asn, body))])).locribs.get? af = some l ∧
      (new.run [.commit fresh' now' (some (asn, body))]).locribs.get? af = some l' ∧
      ((l.config.knobs = l'.config.knobs ∧ l.adminDistanceEbgp = l'.adminDistanceEbgp ∧
          l.adminDistanceIbgp = l'.adminDistanceIbgp) ↔
        ∀ distances, settled before af = some distances → distances = body.distances af) := by
  have hrun := settingsAt_commitConfig fresh now (new.run before) asn body af
  have hnew := settingsAt_commitConfig fresh' now' new asn body af
  rw [if_pos haf, distancesAt_run, settingsAt, Option.map_eq_some_iff] at hrun
  rw [if_pos haf, settingsAt, Option.map_eq_some_iff] at hnew
  obtain ⟨l, hl, hsettings⟩ := hrun
  obtain ⟨l', hl', hsettings'⟩ := hnew
  simp only [LocRib.settings, Prod.mk.injEq] at hsettings hsettings'
  refine ⟨l, l', ?_, hl', ?_⟩
  · rw [run, List.foldl_append]
    exact hl
  · have hknobs : l.config.knobs = l'.config.knobs := by
      rw [hsettings.1, hsettings'.1]
      rfl
    have hdistances : (l.adminDistanceEbgp, l.adminDistanceIbgp) =
        (settled before af).getD (body.distances af) := hsettings.2
    have hdistances' : (l'.adminDistanceEbgp, l'.adminDistanceIbgp) = body.distances af :=
      hsettings'.2
    constructor
    · rintro ⟨-, hebgp, hibgp⟩ distances hsettled
      rw [hsettled, Option.getD_some, hebgp, hibgp, hdistances'] at hdistances
      exact hdistances.symm
    · intro hsame
      have heq : (settled before af).getD (body.distances af) = body.distances af := by
        cases hsettled : settled before af with
        | none => rfl
        | some distances => exact hsame distances hsettled
      rw [heq, ← hdistances', Prod.mk.injEq] at hdistances
      exact ⟨hknobs, hdistances⟩

/-- IPv4 unicast with an external distance, everything else by default. -/
def siteBody (external : Nat) : BgpBody where
  routerId := some 1
  addressFamily := Dict.empty.set IPV4_UNICAST
    { network := Dict.empty
      maximumPaths := none
      maximumPathsIbgp := none
      distance := ⟨some external, none⟩ }
  bestpath := ⟨none, none, none, none, none, none⟩
  defaultLocalPreference := none
  nextHopValidation := none

def siteFresh : Fresh where
  attrTable := AttrTable.empty
  unused := BgpDest.new LocRib.netTen

/-- A second commit that raises the external distance leaves the first one in force. -/
theorem not_commit_converges :
    ((new.run [.commit siteFresh 0 (some (65001, siteBody 20)),
        .commit siteFresh 0 (some (65001, siteBody 30))]).locribs.get? IPV4_UNICAST).map
          LocRib.adminDistanceEbgp = some 20 ∧
      ((new.run [.commit siteFresh 0 (some (65001, siteBody 30))]).locribs.get?
        IPV4_UNICAST).map LocRib.adminDistanceEbgp = some 30 := by
  decide +kernel

/-- With the same distances in both commits the table is as a new plugin builds it. -/
theorem commit_converges_iff_again :
    ∃ l l', (new.run ([.commit siteFresh 0 (some (65001, siteBody 20))] ++
          [.commit siteFresh 5 (some (65001, siteBody 20))])).locribs.get? IPV4_UNICAST =
        some l ∧
      (new.run [.commit siteFresh 5 (some (65001, siteBody 20))]).locribs.get?
        IPV4_UNICAST = some l' ∧
      ((l.config.knobs = l'.config.knobs ∧ l.adminDistanceEbgp = l'.adminDistanceEbgp ∧
          l.adminDistanceIbgp = l'.adminDistanceIbgp) ↔
        ∀ distances, settled [.commit siteFresh 0 (some (65001, siteBody 20))]
          IPV4_UNICAST = some distances → distances = (siteBody 20).distances IPV4_UNICAST) :=
  commit_converges_iff _ siteFresh siteFresh 5 5 65001 (siteBody 20) (by decide)

end BgpTables

end Packets
