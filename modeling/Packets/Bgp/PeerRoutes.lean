/-
What a session does to the tables.

A session touches its Adj-RIB-In, and in the Loc-RIBs the paths with its own `PeerRef`; every
entry point is a succession of moves of six kinds.
-/
import Packets.Bgp.LocRibPaths
import Packets.Bgp.Peer
import Mathlib.Logic.Relation

namespace Packets

namespace LocRib

/-- What a table is between operations: its index is exact, and it holds the prefixes
of one family. -/
structure Serves (l : LocRib) (afi : Nat) : Prop where
  indexed : l.Indexed
  afi : l.afi = afi

theorem Serves.addPath {l l' : LocRib} {afi : Nat} {ref : PeerRef} {pfx : Prefix} {a : Arrival}
    (h : l.Serves afi) (hadd : l.addPath ref pfx a = some l') : l'.Serves afi :=
  ⟨(addPath_indexed h.indexed hadd).1, (addPath_spec h.indexed.wf hadd).2.1.trans h.afi⟩

theorem Serves.removePath {l : LocRib} {afi : Nat} (h : l.Serves afi) (ref : PeerRef)
    (pfx : Prefix) (pathId : Nat) : (l.removePath ref pfx pathId).Serves afi :=
  ⟨(removePath_indexed h.indexed ref pfx pathId).1,
    (removePath_spec h.indexed.wf ref pfx pathId).2.afi.trans h.afi⟩

theorem Serves.removePeer {l : LocRib} {afi : Nat} (h : l.Serves afi) (ref : PeerRef) :
    (l.removePeer ref).Serves afi :=
  ⟨(removePeer_indexed h.indexed ref).1, (removePeer_spec h.indexed.wf ref).2.afi.trans h.afi⟩

theorem Serves.exists_addPath {l : LocRib} {afi : Nat} (h : l.Serves afi) {pfx : Prefix}
    (hafi : pfx.afi = afi) (ref : PeerRef) (a : Arrival) : ∃ l', l.addPath ref pfx a = some l' :=
  Option.isSome_iff_exists.mp ((addPath_isSome_iff l ref pfx a).mpr (hafi.trans h.afi.symm))

end LocRib

/-- A run whose body never raises comes to its end. -/
theorem runEach_induction {σ α : Type} {step : σ → α → σ × Bool} {motive : σ → Prop}
    {todo : List α} (hstep : ∀ s, ∀ a ∈ todo, motive s → motive (step s a).1) {s : σ}
    (hs : motive s) : motive (runEach step todo s).1 := by
  induction todo generalizing s with
  | nil => exact hs
  | cons a rest ih =>
    have hnext := hstep s a List.mem_cons_self hs
    rw [runEach]
    split
    · next s' heq => rwa [heq] at hnext
    · next s' heq =>
        rw [heq] at hnext
        exact ih (fun s b hb => hstep s b (List.mem_cons_of_mem a hb)) hnext

namespace Session

/-- What the Loc-RIB of a family holds under a name. -/
def content (s : Session) (af : Family) (pfx : Prefix) (name : Nat × Nat) : Option PathContent :=
  (s.locribs.get? af).bind fun l => l.heldContent pfx name

/-- What the Adj-RIB-In of a family holds under an entry. -/
def told (s : Session) (af : Family) (entry : Nlri) : Option AttrSet :=
  (s.peer.adjIn.get? af).bind fun table => table.get? entry

/-- Every Loc-RIB serves its own family. -/
def Served (s : Session) : Prop := ∀ af l, s.locribs.get? af = some l → l.Serves af.1

/-- Nothing that concerns routes differs. -/
structure SameRoutes (s s' : Session) : Prop where
  oid : s'.peer.oid = s.peer.oid
  config : s'.peer.config = s.peer.config
  inPolicy : s'.peer.inPolicy = s.peer.inPolicy
  peerRef : s'.peer.peerRef = s.peer.peerRef
  adjIn : s'.peer.adjIn = s.peer.adjIn
  locribs : s'.locribs = s.locribs
  nextRef : s'.nextRef = s.nextRef

theorem SameRoutes.refl (s : Session) : SameRoutes s s := ⟨rfl, rfl, rfl, rfl, rfl, rfl, rfl⟩

theorem SameRoutes.content {s s' : Session} (h : SameRoutes s s') (af : Family)
    (pfx : Prefix) (name : Nat × Nat) : s'.content af pfx name = s.content af pfx name := by
  rw [Session.content, Session.content, h.locribs]

theorem SameRoutes.told {s s' : Session} (h : SameRoutes s s') (af : Family)
    (entry : Nlri) : s'.told af entry = s.told af entry := by
  rw [Session.told, Session.told, h.adjIn]

theorem SameRoutes.served {s s' : Session} (h : SameRoutes s s') (hs : s.Served) :
    s'.Served := by
  intro af l hl
  rw [h.locribs] at hl
  exact hs af l hl

theorem event_sameRoutes (env : SessionEnv) (s : Session) (ev : FsmEvent) :
    SameRoutes s (s.event env ev) := ⟨rfl, rfl, rfl, rfl, rfl, rfl, rfl⟩

/-- What a session is apart from its tables: settings and identity. -/
structure SameSetup (s s' : Session) : Prop where
  oid : s'.peer.oid = s.peer.oid
  config : s'.peer.config = s.peer.config
  inPolicy : s'.peer.inPolicy = s.peer.inPolicy
  peerRef : s'.peer.peerRef = s.peer.peerRef
  nextRef : s'.nextRef = s.nextRef
  families : ∀ af, s'.peer.adjIn.contains af = s.peer.adjIn.contains af
  ribs : ∀ af, s'.locribs.contains af = s.locribs.contains af

theorem SameRoutes.setup {s s' : Session} (h : SameRoutes s s') : SameSetup s s' where
  oid := h.oid
  config := h.config
  inPolicy := h.inPolicy
  peerRef := h.peerRef
  nextRef := h.nextRef
  families af := by rw [h.adjIn]
  ribs af := by rw [h.locribs]

theorem SameSetup.refl (s : Session) : SameSetup s s := (SameRoutes.refl s).setup

theorem SameSetup.trans {s s' s'' : Session} (h : SameSetup s s')
    (h' : SameSetup s' s'') : SameSetup s s'' where
  oid := h'.oid.trans h.oid
  config := h'.config.trans h.config
  inPolicy := h'.inPolicy.trans h.inPolicy
  peerRef := h'.peerRef.trans h.peerRef
  nextRef := h'.nextRef.trans h.nextRef
  families af := (h'.families af).trans (h.families af)
  ribs af := (h'.ribs af).trans (h.ribs af)

theorem contains_set_of_get? {K V : Type} [DecidableEq K] {d : Dict K V} {k : K} {v w : V}
    (h : d.get? k = some v) (k' : K) : (d.set k w).contains k' = d.contains k' := by
  by_cases hk : k' = k
  · simp [Dict.contains, hk, h]
  · simp [Dict.contains, hk]

theorem setLocrib_setup {s : Session} {af : Family} {l l' : LocRib}
    (hl : s.locribs.get? af = some l) : SameSetup s (s.setLocrib af l') :=
  ⟨rfl, rfl, rfl, rfl, rfl, fun _ => rfl, fun af' => contains_set_of_get? hl af'⟩

theorem setLocrib_served {s : Session} (hs : s.Served) {af : Family} {l' : LocRib}
    (hl' : l'.Serves af.1) : (s.setLocrib af l').Served := by
  intro af' found hfound
  rw [setLocrib, Dict.get?_set] at hfound
  split at hfound
  · next heq =>
      cases hfound
      exact heq ▸ hl'
  · exact hs af' found hfound

theorem content_setLocrib (s : Session) (af : Family) (l' : LocRib) (af' : Family)
    (pfx : Prefix) (name : Nat × Nat) :
    (s.setLocrib af l').content af' pfx name =
      if af' = af then l'.heldContent pfx name else s.content af' pfx name := by
  unfold content setLocrib
  rw [Dict.get?_set]
  split <;> rfl

theorem setTable_setup {s : Session} {af : Family} {table table' : Dict Nlri AttrSet}
    (htable : s.peer.adjIn.get? af = some table) : SameSetup s (s.setTable af table') :=
  ⟨rfl, rfl, rfl, rfl, rfl, fun af' => contains_set_of_get? htable af', fun _ => rfl⟩

theorem told_setTable (s : Session) (af : Family) (table' : Dict Nlri AttrSet)
    (af' : Family) (entry : Nlri) :
    (s.setTable af table').told af' entry =
      if af' = af then table'.get? entry else s.told af' entry := by
  unfold told setTable
  rw [Dict.get?_set]
  split <;> rfl

/-- What the Loc-RIB should hold for an entry: what inbound policy makes of it. -/
def expected (env : SessionEnv) (p : Peer) (ref : PeerRef) (af : Family) (entry : Nlri)
    (attrs : AttrSet) : Option PathContent :=
  (inbound env p af entry.1 attrs).map fun kept => ⟨ref, entry.2, kept.1, kept.2⟩

/-- The name a session's path for an entry goes by. -/
def nameOf (ref : PeerRef) (entry : Nlri) : Nat × Nat := (ref.oid, entry.2)

/-- Outcome of `_to_locrib`: the path for the entry is what policy makes of it, and
no other path has changed. -/
structure Placed (env : SessionEnv) (s : Session) (ref : PeerRef) (af : Family)
    (entry : Nlri) (attrs : AttrSet) (s' : Session) : Prop where
  peer : s'.peer = s.peer
  setup : SameSetup s s'
  served : s'.Served
  content : ∀ af' pfx name, s'.content af' pfx name =
    if s.locribs.contains af = true ∧ af' = af ∧ pfx = entry.1 ∧ name = nameOf ref entry then
      expected env s.peer ref af entry attrs
    else s.content af' pfx name

theorem dropPath_placed {env : SessionEnv} {s : Session} {ref : PeerRef} {af : Family}
    {l : LocRib} {entry : Nlri} {attrs : AttrSet} (hs : s.Served)
    (href : s.peer.peerRef = some ref) (hl : s.locribs.get? af = some l)
    (hdeny : inbound env s.peer af entry.1 attrs = none) :
    Placed env s ref af entry attrs (s.dropPath af l entry) := by
  have hserves := hs af l hl
  simp only [dropPath, href]
  refine ⟨rfl, setLocrib_setup hl, setLocrib_served hs (hserves.removePath ..), ?_⟩
  intro af' pfx name
  rw [content_setLocrib, LocRib.heldContent_removePath hserves.indexed]
  have hcontains : s.locribs.contains af = true := Dict.contains_iff.mpr ⟨l, hl⟩
  by_cases haf : af' = af
  · subst haf
    simp [hcontains, expected, hdeny, nameOf, content, hl]
  · simp [haf]

theorem toLocrib_placed {env : SessionEnv} {s s' : Session} {ref : PeerRef} {af : Family}
    {entry : Nlri} {attrs : AttrSet} {replay : Bool} (hs : s.Served)
    (href : s.peer.peerRef = some ref) (h : s.toLocrib env af entry attrs replay = some s') :
    Placed env s ref af entry attrs s' := by
  unfold toLocrib at h
  split at h
  · next hnone =>
      cases h
      have hcontains : s.locribs.contains af = false := by simp [Dict.contains, hnone]
      exact ⟨rfl, SameSetup.refl s, hs, by simp [hcontains]⟩
  · next l hl =>
      split at h
      · next hdeny =>
          cases h
          exact dropPath_placed hs href hl hdeny
      · next kept weight hkept =>
          rw [href] at h
          dsimp only at h
          obtain ⟨l', hadd, rfl⟩ := Option.map_eq_some_iff.mp h
          have hserves := hs af l hl
          refine ⟨rfl, setLocrib_setup hl, setLocrib_served hs (hserves.addPath hadd), ?_⟩
          intro af' pfx name
          rw [content_setLocrib, LocRib.heldContent_addPath hserves.indexed hadd]
          have hcontains : s.locribs.contains af = true := Dict.contains_iff.mpr ⟨l, hl⟩
          by_cases haf : af' = af
          · subst haf
            have harrival : (arrival env af' entry.2 kept weight replay).pathId = entry.2 := rfl
            rw [harrival, if_pos rfl]
            by_cases hname : pfx = entry.1 ∧ name = (ref.oid, entry.2)
            · rw [if_pos hname, if_pos ⟨hcontains, rfl, hname⟩, expected, hkept]
              rfl
            · rw [if_neg hname, if_neg fun h => hname h.2.2, content, hl]
              rfl
          · simp [haf]

/-- A path of a family's own prefixes does not raise once the session has a ref. -/
theorem exists_toLocrib (env : SessionEnv) {s : Session} {ref : PeerRef} {af : Family}
    {entry : Nlri} (attrs : AttrSet) (replay : Bool) (hs : s.Served)
    (href : s.peer.peerRef = some ref) (hafi : entry.1.afi = af.1) :
    ∃ s', s.toLocrib env af entry attrs replay = some s' := by
  unfold toLocrib
  split
  · exact ⟨s, rfl⟩
  · next l hl =>
      split
      · exact ⟨_, rfl⟩
      · next kept weight _ =>
          obtain ⟨l', hadd⟩ := (hs af l hl).exists_addPath hafi ref
            (arrival env af entry.2 kept weight replay)
          exact ⟨s.setLocrib af l', by simp [href, hadd]⟩

/-- Without a ref nothing reaches the Loc-RIB. -/
theorem toLocrib_of_no_ref {env : SessionEnv} {s s' : Session} {af : Family}
    {entry : Nlri} {attrs : AttrSet} {replay : Bool} (href : s.peer.peerRef = none)
    (h : s.toLocrib env af entry attrs replay = some s') : s' = s := by
  unfold toLocrib at h
  split at h
  · cases h
    rfl
  · split at h
    · cases h
      simp [dropPath, href]
    · rw [href] at h
      simp at h

/-- No Loc-RIB holds a path of this session. -/
def Pathless (s : Session) : Prop :=
  ∀ af pfx name c, s.content af pfx name = some c → c.peer.peer ≠ some s.peer.oid

/-- What a session must be for an announcement to be stored in order, by its machine and
its `PeerRef`. -/
abbrev Readiness := Fsm → Option PeerRef → Prop

/-- What one move can be. -/
inductive Move (env : SessionEnv) (ready : Readiness) (s : Session) : Session → Prop where
  /-- The machine, a connection or the handshake: no route is touched. -/
  | machine {s' : Session} (same : SameRoutes s s')
      (follows : s.peer.fsm.Follows s'.peer.fsm) : Move env ready s s'
  /-- The queued actions are performed. -/
  | drained : Move env ready s s.performQueued
  /-- An entry enters the Adj-RIB-In, and what policy makes of it the Loc-RIB. -/
  | learned (af : Family) (entry : Nlri) (attrs : AttrSet) (hafi : entry.1.afi = af.1)
      (stores : ready s.peer.fsm s.peer.peerRef) :
      Move env ready s (announceEntry env af attrs s entry).1
  /-- An entry leaves both. -/
  | forgot (af : Family) (entry : Nlri) : Move env ready s (withdrawEntry af s entry)
  /-- An entry told before is taken through policy again. -/
  | replayed (af : Family) (entry : Nlri) (attrs : AttrSet)
      (held : s.told af entry = some attrs) : Move env ready s (tryLocrib env s af entry attrs true).1
  /-- A new `PeerRef` is taken up, with no path under the old one. -/
  | met {s' : Session} {ref : PeerRef} (empty : s.Pathless)
      (fresh : ref.oid = s.nextRef) (mine : ref.peer = some s.peer.oid)
      (same : SameRoutes { s with peer.peerRef := some ref, nextRef := s.nextRef + 1 } s')
      (follows : s.peer.fsm.Follows s'.peer.fsm) : Move env ready s s'

/-- A succession of moves. -/
abbrev Moves (env : SessionEnv) (ready : Readiness) : Session → Session → Prop :=
  Relation.ReflTransGen (Move env ready)

theorem tryLocrib_spec (env : SessionEnv) {s : Session} {ref : PeerRef} {af : Family}
    {entry : Nlri} (attrs : AttrSet) (replay : Bool) (hs : s.Served)
    (href : s.peer.peerRef = some ref) (hafi : entry.1.afi = af.1) :
    (tryLocrib env s af entry attrs replay).2 = true ∧
      Placed env s ref af entry attrs (tryLocrib env s af entry attrs replay).1 := by
  obtain ⟨s', h⟩ := exists_toLocrib env attrs replay hs href hafi
  simp only [tryLocrib, h, true_and]
  exact toLocrib_placed hs href h

theorem tryLocrib_of_no_ref (env : SessionEnv) {s : Session} (af : Family) (entry : Nlri)
    (attrs : AttrSet) (replay : Bool) (href : s.peer.peerRef = none) :
    (tryLocrib env s af entry attrs replay).1 = s := by
  unfold tryLocrib
  split
  · rfl
  · next h => exact toLocrib_of_no_ref href h

/-- An entry learned: it is told, and the Loc-RIB has what policy makes of it. -/
structure Learned (env : SessionEnv) (s : Session) (af : Family) (entry : Nlri)
    (attrs : AttrSet) (s' : Session) : Prop where
  fsm : s'.peer.fsm = s.peer.fsm
  setup : SameSetup s s'
  served : s'.Served
  told : ∀ af' e, s'.told af' e =
    if af' = af ∧ e = entry then some attrs else s.told af' e
  content : ∀ af' pfx name, s'.content af' pfx name =
    match s.peer.peerRef with
    | some ref =>
      if s.locribs.contains af = true ∧ af' = af ∧ pfx = entry.1 ∧ name = nameOf ref entry then
        expected env s.peer ref af entry attrs
      else s.content af' pfx name
    | none => s.content af' pfx name

theorem announceEntry_learned (env : SessionEnv) {s : Session} {af : Family}
    {entry : Nlri} (attrs : AttrSet) (hs : s.Served) (hafi : entry.1.afi = af.1)
    (hfam : s.peer.adjIn.contains af = true) :
    Learned env s af entry attrs (announceEntry env af attrs s entry).1 := by
  obtain ⟨table, htable⟩ := Dict.contains_iff.mp hfam
  have htold : ∀ af' e, (s.setTable af (table.set entry attrs)).told af' e =
      if af' = af ∧ e = entry then some attrs else s.told af' e := by
    intro af' e
    rw [told_setTable, Dict.get?_set]
    by_cases haf : af' = af
    · subst haf
      by_cases he : e = entry <;> simp [he, Session.told, htable]
    · simp [haf]
  have hsetup : SameSetup s (s.setTable af (table.set entry attrs)) := setTable_setup htable
  simp only [announceEntry, htable]
  cases href : s.peer.peerRef with
  | none =>
    rw [tryLocrib_of_no_ref env af entry attrs false (s := s.setTable af _) href]
    exact ⟨rfl, hsetup, hs, htold, fun _ _ _ => by rw [href]; rfl⟩
  | some ref =>
    obtain ⟨-, hp⟩ := tryLocrib_spec env (s := s.setTable af (table.set entry attrs))
      attrs false hs href hafi
    refine ⟨by rw [hp.peer]; rfl, hsetup.trans hp.setup, hp.served, ?_, ?_⟩
    · intro af' e
      rw [← htold]
      unfold Session.told
      rw [hp.peer]
    · intro af' pfx name
      rw [hp.content, href]
      rfl

theorem announceEntry_of_not_contains (env : SessionEnv) {s : Session} {af : Family}
    (entry : Nlri) (attrs : AttrSet) (hfam : s.peer.adjIn.contains af = false) :
    (announceEntry env af attrs s entry).1 = s := by
  have hnone : s.peer.adjIn.get? af = none := by simpa [Dict.contains] using hfam
  simp [announceEntry, hnone]

/-- An entry forgotten: it is no longer told, and its path is gone. -/
structure Forgotten (s : Session) (af : Family) (entry : Nlri) (s' : Session) : Prop where
  fsm : s'.peer.fsm = s.peer.fsm
  setup : SameSetup s s'
  served : s'.Served
  told : ∀ af' e, s'.told af' e =
    if af' = af ∧ e = entry then none else s.told af' e
  content : ∀ af' pfx name, s'.content af' pfx name =
    match s.peer.peerRef with
    | some ref =>
      if s.told af entry ≠ none ∧ af' = af ∧ pfx = entry.1 ∧ name = nameOf ref entry then
        none
      else s.content af' pfx name
    | none => s.content af' pfx name

theorem withdrawEntry_forgotten {s : Session} (af : Family) (entry : Nlri) (hs : s.Served) :
    Forgotten s af entry (withdrawEntry af s entry) := by
  have hnothing : s.told af entry = none → Forgotten s af entry s := by
    intro hnone
    refine ⟨rfl, SameSetup.refl s, hs, ?_, ?_⟩
    · intro af' e
      split
      · next h => rw [h.1, h.2, hnone]
      · rfl
    · intro af' pfx name
      cases s.peer.peerRef <;> simp [hnone]
  unfold withdrawEntry
  split
  · next hnone => exact hnothing (by simp [Session.told, hnone])
  · next table htable =>
      by_cases hheld : table.contains entry = true
      · obtain ⟨attrs, hattrs⟩ := Dict.contains_iff.mp hheld
        have hsome : s.told af entry ≠ none := by simp [Session.told, htable, hattrs]
        have htold : ∀ af' e, (s.setTable af (table.erase entry)).told af' e =
            if af' = af ∧ e = entry then none else s.told af' e := by
          intro af' e
          rw [told_setTable, Dict.get?_erase]
          by_cases haf : af' = af
          · subst haf
            by_cases he : e = entry <;> simp [he, Session.told, htable]
          · simp [haf]
        have hsetup : SameSetup s (s.setTable af (table.erase entry)) := setTable_setup htable
        simp only [hheld, Bool.not_true, Bool.false_eq_true, ↓reduceIte]
        split
        · next hl =>
            refine ⟨rfl, hsetup, hs, htold, ?_⟩
            intro af' pfx name
            have hnone : s.content af pfx name = none := by
              have hl' : s.locribs.get? af = none := hl
              simp [Session.content, hl']
            cases s.peer.peerRef with
            | none => rfl
            | some ref =>
              dsimp only
              split
              · next h =>
                  rw [h.2.1]
                  exact hnone
              · rfl
        · next l hl =>
            have hl' : s.locribs.get? af = some l := hl
            have hserves := hs af l hl'
            cases href : s.peer.peerRef with
            | none =>
              have hsame : (s.setTable af (table.erase entry)).dropPath af l entry =
                  s.setTable af (table.erase entry) := by
                simp [dropPath, setTable, href]
              rw [hsame]
              exact ⟨rfl, hsetup, hs, htold, fun _ _ _ => by rw [href]; rfl⟩
            | some ref =>
              have hdrop : (s.setTable af (table.erase entry)).dropPath af l entry =
                  (s.setTable af (table.erase entry)).setLocrib af
                    (l.removePath ref entry.1 entry.2) := by
                simp [dropPath, setTable, href]
              rw [hdrop]
              refine ⟨rfl, hsetup.trans (setLocrib_setup hl),
                setLocrib_served hs (hserves.removePath ..), htold, ?_⟩
              intro af' pfx name
              rw [content_setLocrib, LocRib.heldContent_removePath hserves.indexed, href]
              dsimp only
              by_cases haf : af' = af
              · subst haf
                rw [if_pos rfl]
                by_cases hname : pfx = entry.1 ∧ name = (ref.oid, entry.2)
                · rw [if_pos hname, if_pos ⟨hsome, rfl, hname⟩]
                · rw [if_neg hname, if_neg fun h => hname h.2.2, Session.content, hl']
                  rfl
              · simp only [haf, ↓reduceIte, false_and, and_false]
                rfl
      · simp only [Bool.not_eq_true] at hheld
        simp only [hheld, Bool.not_false, ↓reduceIte]
        refine hnothing ?_
        simpa [Session.told, htable, Dict.contains] using hheld

/-- Whether a name is one the session's paths go by in a family it carries. -/
def Owns (s : Session) (af : Family) (name : Nat × Nat) : Prop :=
  s.peer.adjIn.contains af = true ∧ ∃ ref, s.peer.peerRef = some ref ∧ name.1 = ref.oid

theorem SameSetup.owns {s s' : Session} (h : SameSetup s s') (af : Family)
    (name : Nat × Nat) : s'.Owns af name ↔ s.Owns af name := by
  rw [Owns, Owns, h.families, h.peerRef]

/-- The tables after some actions: as they were, or released. -/
structure Cleared (s : Session) (released : Prop) (s' : Session) : Prop where
  fsm : s'.peer.fsm = s.peer.fsm
  setup : SameSetup s s'
  served : s'.Served
  untold : released → ∀ af e, s'.told af e = none
  told : ¬ released → ∀ af e, s'.told af e = s.told af e
  gone : released → ∀ af pfx name, s.Owns af name → s'.content af pfx name = none
  content : ∀ af pfx name, ¬ (released ∧ s.Owns af name) →
    s'.content af pfx name = s.content af pfx name

theorem Cleared.of_same {s s' : Session} (h : SameRoutes s s') (hfsm : s'.peer.fsm = s.peer.fsm)
    (hs : s.Served) {released : Prop} (hnot : ¬ released) : Cleared s released s' where
  fsm := hfsm
  setup := h.setup
  served := h.served hs
  untold hr := absurd hr hnot
  told _ af e := h.told af e
  gone hr := absurd hr hnot
  content af pfx name _ := h.content af pfx name

theorem releaseRoutes_cleared {s : Session} (hs : s.Served) : Cleared s True s.releaseRoutes := by
  have htold : ∀ af e, s.releaseRoutes.told af e = none := by
    intro af e
    unfold told releaseRoutes
    rw [Dict.get?_mapValues]
    cases s.peer.adjIn.get? af <;> rfl
  have hfam : ∀ af, s.releaseRoutes.peer.adjIn.contains af = s.peer.adjIn.contains af := by
    intro af
    unfold Dict.contains releaseRoutes
    rw [Dict.get?_mapValues, Option.isSome_map]
  cases href : s.peer.peerRef with
  | none =>
    have hribs : s.releaseRoutes.locribs = s.locribs := by simp [releaseRoutes, href]
    refine {
      fsm := rfl
      setup := ⟨rfl, rfl, rfl, rfl, rfl, hfam, fun af => by rw [hribs]⟩
      served := fun af l hl => hs af l (hribs ▸ hl)
      untold := fun _ => htold
      told := fun hno => absurd trivial hno
      gone := fun _ af pfx name howns => ?_
      content := fun af pfx name _ => by rw [Session.content, hribs, Session.content] }
    obtain ⟨-, ref, href', -⟩ := howns
    rw [href] at href'
    exact absurd href' (by simp)
  | some ref =>
    have hribs : s.releaseRoutes.locribs = s.locribs.mapValues fun af l =>
        if s.peer.adjIn.contains af then l.removePeer ref else l := by
      simp [releaseRoutes, href]
    have hcontent : ∀ af pfx name, s.releaseRoutes.content af pfx name =
        if s.peer.adjIn.contains af = true ∧ name.1 = ref.oid then none
        else s.content af pfx name := by
      intro af pfx name
      unfold Session.content
      rw [hribs, Dict.get?_mapValues]
      cases hl : s.locribs.get? af with
      | none => simp
      | some l =>
        by_cases hcarried : s.peer.adjIn.contains af = true
        · simp [hcarried, LocRib.heldContent_removePeer (hs af l hl).indexed]
        · simp [hcarried]
    refine {
      fsm := rfl
      setup := ⟨rfl, rfl, rfl, rfl, rfl, hfam, fun af => ?_⟩
      served := fun af l hl => ?_
      untold := fun _ => htold
      told := fun hno => absurd trivial hno
      gone := fun _ af pfx name howns => ?_
      content := fun af pfx name hnot => ?_ }
    · unfold Dict.contains
      rw [hribs, Dict.get?_mapValues, Option.isSome_map]
    · rw [hribs, Dict.get?_mapValues] at hl
      obtain ⟨l₀, hl₀, rfl⟩ := Option.map_eq_some_iff.mp hl
      split
      · exact (hs af l₀ hl₀).removePeer ref
      · exact hs af l₀ hl₀
    · obtain ⟨hcarried, ref', href', hname⟩ := howns
      rw [href] at href'
      cases href'
      rw [hcontent, if_pos ⟨hcarried, hname⟩]
    · rw [hcontent, if_neg fun h => hnot ⟨trivial, h.1, ref, href, h.2⟩]

theorem perform_cleared {s : Session} (hs : s.Served) (action : FsmAction) :
    Cleared s (action = .release) (s.perform action) := by
  by_cases hrelease : action = .release
  · subst hrelease
    have h := releaseRoutes_cleared hs
    exact {
      fsm := h.fsm
      setup := h.setup
      served := h.served
      untold := fun _ => h.untold trivial
      told := fun hno => absurd rfl hno
      gone := fun _ => h.gone trivial
      content := fun af pfx name hnot => h.content af pfx name fun howns => hnot ⟨rfl, howns.2⟩ }
  · have hsame : SameRoutes s (s.perform action) ∧ (s.perform action).peer.fsm = s.peer.fsm := by
      cases action <;> first
        | exact absurd rfl hrelease
        | exact ⟨⟨rfl, rfl, rfl, rfl, rfl, rfl, rfl⟩, rfl⟩
    exact .of_same hsame.1 hsame.2 hs hrelease

theorem Cleared.trans {s s' s'' : Session} {p q : Prop} (h : Cleared s p s')
    (h' : Cleared s' q s'') : Cleared s (p ∨ q) s'' where
  fsm := h'.fsm.trans h.fsm
  setup := h.setup.trans h'.setup
  served := h'.served
  untold hr af e := by
    by_cases hq : q
    · exact h'.untold hq af e
    · rw [h'.told hq, h.untold (hr.resolve_right hq)]
  told hno af e := by rw [h'.told fun hq => hno (Or.inr hq), h.told fun hp => hno (Or.inl hp)]
  gone hr af pfx name howns := by
    by_cases hq : q
    · exact h'.gone hq af pfx name ((h.setup.owns af name).mpr howns)
    · rw [h'.content af pfx name fun h => hq h.1]
      exact h.gone (hr.resolve_right hq) af pfx name howns
  content af pfx name hnot := by
    rw [h'.content af pfx name fun hq =>
        hnot ⟨Or.inr hq.1, (h.setup.owns af name).mp hq.2⟩,
      h.content af pfx name fun hp => hnot ⟨Or.inl hp.1, hp.2⟩]

theorem Cleared.of_iff {s s' : Session} {p q : Prop} (h : Cleared s p s') (hiff : p ↔ q) :
    Cleared s q s' := by
  rwa [← propext hiff]

theorem foldl_perform_cleared (actions : List FsmAction) {s : Session} (hs : s.Served) :
    Cleared s (.release ∈ actions) (actions.foldl perform s) := by
  induction actions generalizing s with
  | nil => exact .of_same (SameRoutes.refl s) rfl hs List.not_mem_nil
  | cons action rest ih =>
    have hfirst := perform_cleared hs action
    refine (hfirst.trans (ih hfirst.served)).of_iff ?_
    rw [List.mem_cons, eq_comm]

/-- The queued actions are done, and the tables released when one of them asks for it. -/
structure Drained (s s' : Session) : Prop where
  state : s'.peer.fsm.state = s.peer.fsm.state
  actions : s'.peer.fsm.actions = []
  setup : SameSetup s s'
  served : s'.Served
  untold : .release ∈ s.peer.fsm.actions → ∀ af e, s'.told af e = none
  told : .release ∉ s.peer.fsm.actions → ∀ af e, s'.told af e = s.told af e
  gone : .release ∈ s.peer.fsm.actions → ∀ af pfx name, s.Owns af name →
    s'.content af pfx name = none
  content : ∀ af pfx name, ¬ (.release ∈ s.peer.fsm.actions ∧ s.Owns af name) →
    s'.content af pfx name = s.content af pfx name

theorem performQueued_drained {s : Session} (hs : s.Served) : Drained s s.performQueued := by
  let start : Session := { s with peer.fsm := { s.peer.fsm with actions := [] } }
  have h : Cleared start (.release ∈ s.peer.fsm.actions) s.performQueued :=
    foldl_perform_cleared s.peer.fsm.actions hs
  have hstart : SameSetup s start := ⟨rfl, rfl, rfl, rfl, rfl, fun _ => rfl, fun _ => rfl⟩
  exact {
    state := by rw [h.fsm]
    actions := by rw [h.fsm]
    setup := hstart.trans h.setup
    served := h.served
    untold := h.untold
    told := h.told
    gone := fun hr af pfx name howns => h.gone hr af pfx name howns
    content := fun af pfx name hnot => h.content af pfx name hnot }

end Session

end Packets
