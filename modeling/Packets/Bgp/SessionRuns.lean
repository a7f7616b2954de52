/-
Runs of a session: what its peer, its connections, its operator and the other users of
the Loc-RIBs do, in any order.

A session that is not up contributes no routes; one that is, under its current `PeerRef`.
-/
import Packets.Bgp.SessionMoves

namespace Packets

namespace LocRib

/-- Where a path may come from in one call. -/
structure Changes (s s' : LocRib) (op : Op) : Prop where
  indexed : s'.Indexed
  afi : s'.afi = s.afi
  content : ∀ q name c, s'.heldContent q name = some c →
    s.heldContent q name = some c ∨ ∃ ref pfx a, op = .addPath ref pfx a ∧ c.peer = ref

theorem Changes.of_pathsFor {s s' : LocRib} {op : Op} (hi : s'.Indexed) (hafi : s'.afi = s.afi)
    (hfor : ∀ q, (s'.pathsFor q).map BgpPath.content = (s.pathsFor q).map BgpPath.content) :
    Changes s s' op :=
  ⟨hi, hafi, fun q name _ hc => Or.inl (heldContent_congr hfor q name ▸ hc)⟩

/-- A path that one call leaves was there before, or is the one it adds. -/
theorem step_changes {s : LocRib} (h : s.Indexed) (op : Op) : Changes s (s.step op) op := by
  cases op with
  | addPath ref pfx a =>
    rw [step]
    cases hadd : s.addPath ref pfx a with
    | none => exact ⟨h, rfl, fun _ _ _ hc => Or.inl hc⟩
    | some s' =>
      refine ⟨(addPath_indexed h hadd).1, (addPath_spec h.wf hadd).2.1, ?_⟩
      intro q name c hc
      rw [Option.getD_some, heldContent_addPath h hadd] at hc
      split at hc
      · cases hc
        exact Or.inr ⟨ref, pfx, a, rfl, rfl⟩
      · exact Or.inl hc
  | removePath ref pfx pathId =>
    refine ⟨(removePath_indexed h ref pfx pathId).1, (removePath_spec h.wf ref pfx pathId).2.afi,
      ?_⟩
    intro q name c hc
    rw [step, heldContent_removePath h] at hc
    split at hc
    · exact absurd hc (by simp)
    · exact Or.inl hc
  | removePeer ref =>
    refine ⟨(removePeer_indexed h ref).1, (removePeer_spec h.wf ref).2.afi, ?_⟩
    intro q name c hc
    rw [step, heldContent_removePeer h] at hc
    split at hc
    · exact absurd hc (by simp)
    · exact Or.inl hc
  | revalidate check =>
    obtain ⟨hi, hcontent⟩ := revalidate_indexed h check
    exact .of_pathsFor hi (revalidate_spec h.wf check).2.1.afi hcontent
  | reselect limit =>
    obtain ⟨hi, hfor⟩ := reselect_indexed h limit
    exact .of_pathsFor hi (reselect_spec h.wf limit).2.1.afi fun q => by
      rw [step, hfor q]
  | setConfig config =>
    obtain ⟨hi, hfor⟩ := setConfig_indexed h config
    exact .of_pathsFor hi (setConfig_spec h.wf config).2.1.afi fun q => by
      rw [step, hfor q]
  | clear =>
    refine ⟨clear_indexed s, clear_afi s, ?_⟩
    intro q name c hc
    have hnone : (s.step .clear).heldContent q name = none := by
      rw [heldContent, held, step, pathsFor_clear]
      rfl
    rw [hnone] at hc
    exact absurd hc (by simp)

/-- A call that brings no path of the session with this address. -/
def Op.foreign (oid : Nat) : Op → Bool
  | .addPath ref _ _ => ref.peer ≠ some oid
  | _ => true

end LocRib

namespace Session

/-- The paths of a session are tallied: each carries its current ref and stands for an
entry of its Adj-RIB-In. -/
structure Tallied (s : Session) : Prop where
  served : s.Served
  mine : ∀ af pfx name c, s.content af pfx name = some c → c.peer.peer = some s.peer.oid →
    s.peer.peerRef = some c.peer ∧ name.1 = c.peer.oid ∧ s.told af (pfx, name.2) ≠ none

theorem told_contains {s : Session} {af : Family} {entry : Nlri}
    (h : s.told af entry ≠ none) : s.peer.adjIn.contains af = true := by
  unfold told at h
  cases htable : s.peer.adjIn.get? af with
  | none => simp [htable] at h
  | some table => exact Dict.contains_iff.mpr ⟨table, htable⟩

theorem Tallied.machine {s s' : Session} (h : s.Tallied) (same : SameRoutes s s') : s'.Tallied where
  served := same.served h.served
  mine af pfx name c hc hmine := by
    rw [same.content] at hc
    rw [same.oid] at hmine
    rw [same.peerRef, same.told]
    exact h.mine af pfx name c hc hmine

theorem Tallied.drained {s : Session} (h : s.Tallied) : s.performQueued.Tallied := by
  have hd := performQueued_drained h.served
  refine ⟨hd.served, ?_⟩
  intro af pfx name c hc hmine
  rw [hd.setup.oid] at hmine
  rw [hd.setup.peerRef]
  by_cases hrelease : .release ∈ s.peer.fsm.actions
  · by_cases howns : s.Owns af name
    · rw [hd.gone hrelease af pfx name howns] at hc
      exact absurd hc (by simp)
    · rw [hd.content af pfx name fun hno => howns hno.2] at hc
      obtain ⟨href, hname, htold⟩ := h.mine af pfx name c hc hmine
      exact absurd ⟨told_contains htold, c.peer, href, hname⟩ howns
  · rw [hd.content af pfx name fun hno => hrelease hno.1] at hc
    rw [hd.told hrelease]
    exact h.mine af pfx name c hc hmine

theorem expected_eq_some {env : SessionEnv} {p : Peer} {ref : PeerRef} {af : Family}
    {entry : Nlri} {attrs : AttrSet} {c : PathContent}
    (h : expected env p ref af entry attrs = some c) : c.peer = ref := by
  obtain ⟨kept, -, rfl⟩ := Option.map_eq_some_iff.mp h
  rfl

/-- Putting the path of a told entry where policy wants it keeps the tally. -/
theorem Tallied.of_expected {s s' : Session} {ref : PeerRef} (h : s.Tallied)
    (env : SessionEnv) (af : Family) (entry : Nlri) (attrs : AttrSet)
    (href : s.peer.peerRef = some ref) (setup : SameSetup s s') (hserved : s'.Served)
    (htold : ∀ af e, s.told af e ≠ none → s'.told af e ≠ none)
    (hentry : s'.told af entry ≠ none)
    (hcontent : ∀ af' pfx name, s'.content af' pfx name =
      if s.locribs.contains af = true ∧ af' = af ∧ pfx = entry.1 ∧ name = nameOf ref entry then
        expected env s.peer ref af entry attrs
      else s.content af' pfx name) : s'.Tallied where
  served := hserved
  mine af' pfx name c hc hmine := by
    rw [setup.oid] at hmine
    rw [setup.peerRef]
    rw [hcontent] at hc
    split at hc
    · next hplace =>
        obtain ⟨-, rfl, rfl, rfl⟩ := hplace
        have hpeer := expected_eq_some hc
        exact ⟨by rw [hpeer, href], by rw [hpeer]; rfl, hentry⟩
    · obtain ⟨href', hname, htold'⟩ := h.mine af' pfx name c hc hmine
      exact ⟨href', hname, htold _ _ htold'⟩

theorem Tallied.learned {s : Session} {af : Family} {entry : Nlri} (h : s.Tallied)
    (env : SessionEnv) (attrs : AttrSet) (hafi : entry.1.afi = af.1) :
    (announceEntry env af attrs s entry).1.Tallied := by
  by_cases hfam : s.peer.adjIn.contains af = true
  case neg =>
    rw [announceEntry_of_not_contains env entry attrs (by simpa using hfam)]
    exact h
  have hl := announceEntry_learned env attrs h.served hafi hfam
  have htold : ∀ af' e, s.told af' e ≠ none →
      (announceEntry env af attrs s entry).1.told af' e ≠ none := by
    intro af' e he
    rw [hl.told]
    split
    · simp
    · exact he
  cases href : s.peer.peerRef with
  | some ref =>
    refine h.of_expected env af entry attrs href hl.setup hl.served htold ?_ ?_
    · rw [hl.told, if_pos ⟨rfl, rfl⟩]
      simp
    · intro af' pfx name
      rw [hl.content, href]
  | none =>
    refine ⟨hl.served, ?_⟩
    intro af' pfx name c hc hmine
    rw [hl.content, href] at hc
    rw [hl.setup.oid] at hmine
    have hnone := (h.mine af' pfx name c hc hmine).1
    rw [href] at hnone
    exact absurd hnone (by simp)

theorem Tallied.replayed {s : Session} {af : Family} {entry : Nlri} {attrs : AttrSet}
    (h : s.Tallied) (env : SessionEnv) (held : s.told af entry = some attrs) :
    (tryLocrib env s af entry attrs true).1.Tallied := by
  have htold : s.told af entry ≠ none := by simp [held]
  cases href : s.peer.peerRef with
  | none =>
    rw [tryLocrib_of_no_ref env af entry attrs true href]
    exact h
  | some ref =>
    cases hto : s.toLocrib env af entry attrs true with
    | none =>
      simp only [tryLocrib, hto]
      exact h
    | some s' =>
      have hp := toLocrib_placed h.served href hto
      simp only [tryLocrib, hto]
      have hsame : ∀ af e, s'.told af e = s.told af e := by
        intro af e
        rw [told, told, hp.peer]
      exact h.of_expected env af entry attrs href hp.setup hp.served
        (fun af e he => by rwa [hsame]) (by rwa [hsame]) hp.content

theorem Tallied.forgot {s : Session} (h : s.Tallied) (af : Family) (entry : Nlri) :
    (withdrawEntry af s entry).Tallied := by
  have hf := withdrawEntry_forgotten af entry h.served
  refine ⟨hf.served, ?_⟩
  intro af' pfx name c hc hmine
  rw [hf.setup.oid] at hmine
  have hold : s.content af' pfx name = some c := by
    rw [hf.content] at hc
    cases href : s.peer.peerRef with
    | none => rwa [href] at hc
    | some ref =>
      rw [href] at hc
      dsimp only at hc
      split at hc
      · exact absurd hc (by simp)
      · exact hc
  obtain ⟨href, hname, htold⟩ := h.mine af' pfx name c hold hmine
  refine ⟨hf.setup.peerRef.trans href, hname, ?_⟩
  rw [hf.told]
  split
  · next hentry =>
      -- the entry withdrawn took this very path with it
      obtain ⟨rfl, hentry⟩ := hentry
      rw [hf.content, href, ← hentry] at hc
      dsimp only at hc
      rw [if_pos ⟨htold, rfl, rfl, Prod.ext hname rfl⟩] at hc
      exact absurd hc (by simp)
  · exact htold

theorem Tallied.met {s s' : Session} {ref : PeerRef} (h : s.Tallied) (empty : s.Pathless)
    (same : SameRoutes { s with peer.peerRef := some ref, nextRef := s.nextRef + 1 } s') :
    s'.Tallied where
  served := same.served h.served
  mine af pfx name c hc hmine := by
    rw [same.content] at hc
    rw [same.oid] at hmine
    exact absurd hmine (empty af pfx name c hc)

theorem Move.tallied {env : SessionEnv} {ready : Readiness} {s s' : Session}
    (hmove : Move env ready s s') (h : s.Tallied) : s'.Tallied := by
  cases hmove with
  | machine same follows => exact h.machine same
  | drained => exact h.drained
  | learned af entry attrs hafi stores => exact h.learned env attrs hafi
  | forgot af entry => exact h.forgot af entry
  | replayed af entry attrs held => exact h.replayed env held
  | met empty fresh mine same follows => exact h.met empty same

/-- A session whose routes count: it is up, or asked to be released. -/
def counting : Readiness := fun fsm _ => fsm.state = .established ∨ .release ∈ fsm.actions

def Receiving (s : Session) : Prop := counting s.peer.fsm s.peer.peerRef

/-- Nothing is told unless the session's routes count. -/
structure Accounted (s : Session) : Prop where
  tallied : s.Tallied
  counts : s.Receiving ∨ ∀ af entry, s.told af entry = none

theorem Receiving.follows {s s' : Session} (h : s.Receiving)
    (follows : s.peer.fsm.Follows s'.peer.fsm) : s'.Receiving := by
  by_cases hup : s'.peer.fsm.state = .established
  · exact Or.inl hup
  rcases h with hstate | hqueued
  · exact Or.inr (follows.released hstate hup)
  · exact Or.inr (follows.queued _ hqueued)

theorem Receiving.of_fsm {s s' : Session} (h : s.Receiving)
    (hfsm : s'.peer.fsm = s.peer.fsm) : s'.Receiving := by
  rw [Receiving, hfsm]
  exact h

/-- Every move keeps the account. -/
theorem Move.accounted {env : SessionEnv} {s s' : Session} (hmove : Move env counting s s')
    (h : s.Accounted) : s'.Accounted := by
  refine ⟨hmove.tallied h.tallied, ?_⟩
  cases hmove with
  | machine same follows =>
    rcases h.counts with hcounts | hnothing
    · exact Or.inl (hcounts.follows follows)
    · exact Or.inr fun af entry => (same.told af entry).trans (hnothing af entry)
  | drained =>
    have hd := performQueued_drained h.tallied.served
    by_cases hrelease : .release ∈ s.peer.fsm.actions
    · exact Or.inr (hd.untold hrelease)
    rcases h.counts with (hup | hqueued) | hnothing
    · exact Or.inl (Or.inl (hd.state.trans hup))
    · exact absurd hqueued hrelease
    · exact Or.inr fun af entry => (hd.told hrelease af entry).trans (hnothing af entry)
  | learned af entry attrs hafi stores =>
    exact Or.inl (Receiving.of_fsm stores (announceEntry_fsm s af entry attrs).1)
  | forgot af entry =>
    have hf := withdrawEntry_forgotten af entry h.tallied.served
    rcases h.counts with hcounts | hnothing
    · exact Or.inl (hcounts.of_fsm hf.fsm)
    · refine Or.inr fun af' e => ?_
      rw [hf.told]
      split
      · rfl
      · exact hnothing af' e
  | replayed af entry attrs held =>
    have hcounts : s.Receiving := h.counts.resolve_right fun hnothing => by
      rw [hnothing] at held
      exact absurd held (by simp)
    exact Or.inl (hcounts.of_fsm (by rw [tryLocrib_peer]))
  | met empty fresh mine same follows =>
    rcases h.counts with hcounts | hnothing
    · exact Or.inl (hcounts.follows follows)
    · exact Or.inr fun af entry => (same.told af entry).trans (hnothing af entry)

theorem Moves.accounted {env : SessionEnv} {s s' : Session}
    (hmoves : Moves env counting s s') (h : s.Accounted) : s'.Accounted := by
  induction hmoves with
  | refl => exact h
  | tail _ hmove ih => exact hmove.accounted ih

end Session

/-- What can happen to a session and to the tables it shares. -/
inductive Occurrence where
  | own (ev : SessionEvent)
  /-- The plugin gives the session another configuration. -/
  | configure (config : PeerConfig) (inPolicy : Dict Family PolicyChain)
  /-- Somebody else calls a Loc-RIB. -/
  | others (af : Family) (op : LocRib.Op)
  | addRib (af : Family) (attrTable : AttrTable) (config : BestpathConfig) (unused : BgpDest)
  | dropRib (af : Family)

namespace Session

/-- A Loc-RIB after a call that brings no path of this session. -/
def others (s : Session) (af : Family) (op : LocRib.Op) : Session :=
  match s.locribs.get? af with
  | none => s
  | some l => if op.foreign s.peer.oid then s.setLocrib af (l.step op) else s

def step (env : SessionEnv) (s : Session) : Occurrence → Session
  | .own ev => s.act env ev
  | .configure config inPolicy => { s with peer.config := config, peer.inPolicy := inPolicy }
  | .others af op => s.others af op
  | .addRib af attrTable config unused =>
    if s.locribs.contains af then s
    else s.setLocrib af (LocRib.new af.1 af.2 attrTable config unused)
  | .dropRib af => { s with locribs := s.locribs.erase af }

/-- What the session itself does is orderly. -/
def OccursOrderly (env : SessionEnv) (s : Session) : Occurrence → Prop
  | .own ev => EventOrderly counting env s ev
  | _ => True

def run : List (SessionEnv × Occurrence) → Session → Session
  | [], s => s
  | (env, what) :: rest, s => run rest (s.step env what)

def RunOrderly : List (SessionEnv × Occurrence) → Session → Prop
  | [], _ => True
  | (env, what) :: rest, s => OccursOrderly env s what ∧ RunOrderly rest (s.step env what)

/-- A change of the Loc-RIBs that brings no path of this session. -/
theorem Accounted.of_ribs {s : Session} {locribs : Dict Family LocRib} (h : s.Accounted)
    (hserved : Served { s with locribs := locribs })
    (hcontent : ∀ af pfx name c, content { s with locribs := locribs } af pfx name = some c →
      s.content af pfx name = some c ∨ c.peer.peer ≠ some s.peer.oid) :
    Accounted { s with locribs := locribs } where
  tallied := {
    served := hserved
    mine := fun af pfx name c hc hmine => by
      rcases hcontent af pfx name c hc with hold | hforeign
      · exact h.tallied.mine af pfx name c hold hmine
      · exact absurd hmine hforeign }
  counts := h.counts

theorem others_accounted {s : Session} (h : s.Accounted) (af : Family) (op : LocRib.Op) :
    (s.others af op).Accounted := by
  unfold others
  split
  · exact h
  next l hl =>
  split
  · next hforeign =>
      have hserves := h.tallied.served af l hl
      have hchanges := LocRib.step_changes hserves.indexed op
      have hserved : (s.setLocrib af (l.step op)).Served :=
        setLocrib_served h.tallied.served ⟨hchanges.indexed, hchanges.afi.trans hserves.afi⟩
      refine h.of_ribs hserved fun af' pfx name c hc => ?_
      have hset := content_setLocrib s af (l.step op) af' pfx name
      rw [setLocrib] at hset
      rw [hset] at hc
      split at hc
      · next heq =>
          subst heq
          rcases hchanges.content pfx name c hc with hold | ⟨ref, q, a, rfl, hpeer⟩
          · exact Or.inl (by rw [content, hl]; exact hold)
          · refine Or.inr ?_
            rw [hpeer]
            simpa [LocRib.Op.foreign] using hforeign
      · exact Or.inl hc
  · exact h

theorem addRib_accounted {s : Session} (h : s.Accounted) (af : Family)
    (attrTable : AttrTable) (config : BestpathConfig) (unused : BgpDest) :
    (s.setLocrib af (LocRib.new af.1 af.2 attrTable config unused)).Accounted := by
  refine h.of_ribs (setLocrib_served h.tallied.served ⟨LocRib.new_indexed .., rfl⟩)
    fun af' pfx name c hc => ?_
  have hset := content_setLocrib s af (LocRib.new af.1 af.2 attrTable config unused) af' pfx name
  rw [setLocrib] at hset
  rw [hset] at hc
  split at hc
  · exact absurd hc (by simp [LocRib.heldContent, LocRib.held, LocRib.pathsFor, LocRib.new,
      findNamed])
  · exact Or.inl hc

theorem dropRib_accounted {s : Session} (h : s.Accounted) (af : Family) :
    Accounted { s with locribs := s.locribs.erase af } := by
  have hget : ∀ af' l, (s.locribs.erase af).get? af' = some l → s.locribs.get? af' = some l := by
    intro af' l hl
    rw [Dict.get?_erase] at hl
    split at hl
    · exact absurd hl (by simp)
    · exact hl
  refine h.of_ribs (fun af' l hl => h.tallied.served af' l (hget af' l hl)) fun af' pfx name c hc => ?_
  obtain ⟨l, hl, hheld⟩ := Option.bind_eq_some_iff.mp hc
  exact Or.inl (Option.bind_eq_some_iff.mpr ⟨l, hget af' l hl, hheld⟩)

/-- One step keeps the account. -/
theorem step_accounted {env : SessionEnv} {s : Session} {what : Occurrence}
    (h : s.Accounted) (horderly : OccursOrderly env s what) : (s.step env what).Accounted := by
  cases what with
  | own ev => exact (act_moves horderly).accounted h
  | configure config inPolicy => exact ⟨⟨h.tallied.served, h.tallied.mine⟩, h.counts⟩
  | others af op => exact others_accounted h af op
  | addRib af attrTable config unused =>
    rw [step]
    split
    · exact h
    · exact addRib_accounted h af attrTable config unused
  | dropRib af => exact dropRib_accounted h af

theorem run_accounted {events : List (SessionEnv × Occurrence)} {s : Session}
    (h : s.Accounted) (horderly : RunOrderly events s) : (run events s).Accounted := by
  induction events generalizing s with
  | nil => exact h
  | cons event rest ih => exact ih (step_accounted h horderly.1) horderly.2

theorem emptyTables_get? {families : List Family} {tables : Dict Family (Dict Nlri AttrSet)}
    (h : ∀ af table, tables.get? af = some table → table = Dict.empty) (af : Family)
    (table : Dict Nlri AttrSet)
    (htable : (families.foldl (fun t af => t.set af Dict.empty) tables).get? af = some table) :
    table = Dict.empty := by
  induction families generalizing tables with
  | nil => exact h af table htable
  | cons family rest ih =>
    refine ih (fun af' table' htable' => ?_) htable
    rw [Dict.get?_set] at htable'
    split at htable'
    · cases htable'
      rfl
    · exact h af' table' htable'

theorem new_accounted (oid : Nat) (config : PeerConfig) (fsm : FsmConfig) (authBlocked : Bool)
    (inPolicy : Dict Family PolicyChain) : (new oid config fsm authBlocked inPolicy).Accounted where
  tallied := {
    served := fun af l hl => by simp [new] at hl
    mine := fun af pfx name c hc => by simp [content, new] at hc }
  counts := by
    refine Or.inr fun af entry => ?_
    unfold told
    cases htable : (new oid config fsm authBlocked inPolicy).peer.adjIn.get? af with
    | none => rfl
    | some table =>
      have hempty : table = Dict.empty :=
        emptyTables_get? (fun _ _ h => absurd h (by simp)) af table htable
      simp [hempty]

/-- Some Loc-RIB holds a path. -/
def Holds (s : Session) (p : BgpPath) : Prop :=
  ∃ af l pfx, s.locribs.get? af = some l ∧ p ∈ l.pathsFor pfx

theorem Holds.content {s : Session} (hs : s.Served) {p : BgpPath} (h : s.Holds p) :
    ∃ af pfx, s.content af pfx p.name = some p.content := by
  obtain ⟨af, l, pfx, hl, hp⟩ := h
  have hfound := findNamed_of_mem ((hs af l hl).indexed.nodup pfx) hp
  exact ⟨af, pfx, by simp [Session.content, hl, LocRib.heldContent, LocRib.held, hfound]⟩

/-- A session that is not up contributes no routes. -/
structure ContributesWhenUp (s : Session) : Prop where
  down : s.peer.fsm.actions = [] → s.peer.fsm.state ≠ .established →
    (∀ af entry, s.told af entry = none) ∧ ∀ p, s.Holds p → p.peer.peer ≠ some s.peer.oid
  current : s.peer.fsm.state = .established →
    ∀ p, s.Holds p → p.peer.peer = some s.peer.oid → s.peer.peerRef = some p.peer

theorem Accounted.contributesWhenUp {s : Session} (h : s.Accounted) : s.ContributesWhenUp where
  down hactions hdown := by
    have hnothing : ∀ af entry, s.told af entry = none := by
      refine h.counts.resolve_left ?_
      rintro (hup | hqueued)
      · exact hdown hup
      · rw [hactions] at hqueued
        exact absurd hqueued (by simp)
    refine ⟨hnothing, fun p hp hmine => ?_⟩
    obtain ⟨af, pfx, hc⟩ := hp.content h.tallied.served
    exact (h.tallied.mine af pfx p.name p.content hc hmine).2.2 (hnothing _ _)
  current hup p hp hmine := by
    obtain ⟨af, pfx, hc⟩ := hp.content h.tallied.served
    exact (h.tallied.mine af pfx p.name p.content hc hmine).1

/-- In a run without an announcement or an OPEN out of order, a session contributes
routes only while it is up, and under its current ref. -/
theorem run_contributesWhenUp (oid : Nat) (config : PeerConfig) (fsm : FsmConfig)
    (authBlocked : Bool) (inPolicy : Dict Family PolicyChain)
    {events : List (SessionEnv × Occurrence)}
    (horderly : RunOrderly events (new oid config fsm authBlocked inPolicy)) :
    (run events (new oid config fsm authBlocked inPolicy)).ContributesWhenUp :=
  (run_accounted (new_accounted oid config fsm authBlocked inPolicy) horderly).contributesWhenUp

/-- A message by its type and body. -/
def framed (mtype : UInt8) (body : Bytes) : Bytes :=
  List.replicate 16 255 ++ BigEndian.ofNat 2 (HEADER_LEN + body.length) ++ mtype :: body

/-- An OPEN of AS 65001 without capabilities. -/
def openMessage : Bytes := framed MSG_OPEN [4, 0xfd, 0xe9, 0, 90, 0, 0, 0, 2, 0]

/-- An UPDATE for 10.0.0.0/8 with ORIGIN, AS_PATH and NEXT_HOP. -/
def updateMessage : Bytes :=
  framed MSG_UPDATE [0, 0, 0, 18, 0x40, 1, 1, 0, 0x40, 2, 4, 2, 1, 0xfd, 0xe9,
    0x40, 3, 4, 192, 0, 2, 1, 8, 10]

def inTurn (events : List SessionEvent) : List (SessionEnv × Occurrence) :=
  events.map fun ev => (plainEnv, .own ev)

/-- Connected, and the peer's OPEN accepted. -/
def opened : List SessionEvent := [.start, .connectDone true (some ⟨1, true⟩), .read 1 openMessage]

/-- The handshake completed, and then a route. -/
def handshake : List SessionEvent :=
  opened ++ [.read 1 (framed MSG_KEEPALIVE []), .read 1 updateMessage]

theorem SliceOrderly.one {ready : Readiness} {env : SessionEnv} {s s' : Session} {mtype : UInt8} {raw : Bytes}
    (htake : s.takeMessage = (some (mtype, raw), s')) (h : MessageOrderly ready env s' mtype raw) :
    SliceOrderly ready env 1 s := by
  unfold SliceOrderly
  rw [htake]
  exact ⟨h, trivial⟩

theorem Pathless.of_empty {s : Session} (h : s.locribs = Dict.empty) : s.Pathless := by
  intro af pfx name c hc
  exact absurd hc (by simp [content, h])

theorem orderly_of_up {as : List Announcement}
    (h : as.all (fun a => a.state.peer.fsm.state = .established) = true) :
    ∀ a ∈ as, a.Orderly counting := by
  intro a ha _
  exact Or.inl (by simpa using List.all_eq_true.mp h a ha)

theorem run_contributesWhenUp_handshake :
    (run (inTurn handshake) externalSession).peer.fsm.state = .established ∧
      ((run (inTurn handshake) externalSession).peer.adjIn.get? IPV4_UNICAST).map Dict.size =
        some 1 ∧
      (run (inTurn handshake) externalSession).ContributesWhenUp := by
  refine ⟨by decide +kernel, by decide +kernel, run_contributesWhenUp _ _ _ _ _ ?_⟩
  refine ⟨trivial, trivial, fun _ _ _ => ?_, fun _ _ _ => ?_, fun _ _ _ => ?_, trivial⟩
  · exact SliceOrderly.one rfl ⟨fun h => absurd h (by decide), fun _ _ => Pathless.of_empty rfl⟩
  · exact SliceOrderly.one rfl ⟨fun h => absurd h (by decide), fun h => absurd h (by decide)⟩
  · exact SliceOrderly.one rfl
      ⟨fun _ _ _ => orderly_of_up (by decide +kernel), fun h => absurd h (by decide)⟩

/-- The route of an UPDATE in OpenConfirm goes in. -/
theorem not_contributesWhenUp_early :
    ¬ (run (inTurn (opened ++ [.read 1 updateMessage])) externalSession).ContributesWhenUp := by
  intro h
  have hnothing := (h.down (by decide +kernel) (by decide +kernel)).1 IPV4_UNICAST
    (LocRib.netTen, 0)
  exact absurd hnothing (by decide +kernel)

end Session

end Packets
