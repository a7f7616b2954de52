/-
What `maximum-prefix` counts (`plugins/bgp/peer.py`, `_announce_many` and `_over_limit`).

The length of the announcement is added to the number of keys held, so an entry that replaces
one, or stands there twice, is counted as new.
-/
import Packets.Bgp.SessionRuns
import Mathlib.Data.Finset.Card

namespace Packets

/-- The table of a family once every entry of an announcement is in it. -/
def storeAll (attrs : AttrSet) (table : Dict Nlri AttrSet) (entries : List Nlri) :
    Dict Nlri AttrSet :=
  entries.foldl (fun table entry => table.set entry attrs) table

/-- The entries a table has no key for yet, each of them once. -/
def freshKeys (table : Dict Nlri AttrSet) (entries : List Nlri) : Finset Nlri :=
  (entries.filter fun entry => !table.contains entry).toFinset

/-- How many entries only repeat a key: one the table holds, or one that stands earlier
in the announcement. -/
def repeats (table : Dict Nlri AttrSet) (entries : List Nlri) : Nat :=
  entries.length - (freshKeys table entries).card

theorem mem_freshKeys {table : Dict Nlri AttrSet} {entries : List Nlri} {entry : Nlri} :
    entry ∈ freshKeys table entries ↔ entry ∈ entries ∧ table.contains entry = false := by
  simp [freshKeys]

theorem card_freshKeys_le (table : Dict Nlri AttrSet) (entries : List Nlri) :
    (freshKeys table entries).card ≤ entries.length :=
  (List.toFinset_card_le _).trans (List.length_filter_le _ _)

theorem card_freshKeys_add_repeats (table : Dict Nlri AttrSet) (entries : List Nlri) :
    (freshKeys table entries).card + repeats table entries = entries.length := by
  have hle := card_freshKeys_le table entries
  rw [repeats]
  omega

/-- The first entry is fresh exactly when the table lacks it, and is fresh no more. -/
theorem card_freshKeys_cons (table : Dict Nlri AttrSet) (entry : Nlri) (rest : List Nlri)
    (attrs : AttrSet) :
    (freshKeys table (entry :: rest)).card =
      (if table.contains entry then 0 else 1) + (freshKeys (table.set entry attrs) rest).card := by
  by_cases hheld : table.contains entry = true
  · have hsame : freshKeys table (entry :: rest) = freshKeys (table.set entry attrs) rest := by
      ext e
      rw [mem_freshKeys, mem_freshKeys]
      by_cases he : e = entry
      · subst he
        simp [hheld, Dict.contains_set]
      · simp [he, Dict.contains_set]
    rw [hsame, if_pos hheld, Nat.zero_add]
  · have hsplit : freshKeys table (entry :: rest) =
        insert entry (freshKeys (table.set entry attrs) rest) := by
      ext e
      rw [Finset.mem_insert, mem_freshKeys, mem_freshKeys]
      by_cases he : e = entry
      · simp [he, hheld]
      · simp [he, Dict.contains_set]
    have hnot : entry ∉ freshKeys (table.set entry attrs) rest := by
      rw [mem_freshKeys]
      simp [Dict.contains_set]
    rw [hsplit, Finset.card_insert_of_notMem hnot, if_neg hheld, Nat.add_comm]

theorem size_storeAll (attrs : AttrSet) (table : Dict Nlri AttrSet) (entries : List Nlri) :
    (storeAll attrs table entries).size = table.size + (freshKeys table entries).card := by
  induction entries generalizing table with
  | nil => simp [storeAll, freshKeys]
  | cons entry rest ih =>
    have hset := Dict.size_set table entry attrs
    have hrest : (storeAll attrs (table.set entry attrs) rest).size =
        (table.set entry attrs).size + (freshKeys (table.set entry attrs) rest).card :=
      ih (table.set entry attrs)
    rw [card_freshKeys_cons table entry rest attrs]
    rw [storeAll, List.foldl_cons, ← storeAll, hrest, hset, Dict.contains]
    split
    · simp
    · simp [Nat.add_assoc]

namespace Session

/-- The keys the Adj-RIB-In of a session holds once an announcement is stored. -/
def heldAfter (p : Peer) (af : Family) (table : Dict Nlri AttrSet) (entries : List Nlri)
    (attrs : AttrSet) : Nat :=
  heldCount { p with adjIn := p.adjIn.set af (storeAll attrs table entries) }

theorem heldAfter_eq {p : Peer} {af : Family} {table : Dict Nlri AttrSet}
    (htable : p.adjIn.get? af = some table) (entries : List Nlri) (attrs : AttrSet) :
    heldAfter p af table entries attrs = heldCount p + (freshKeys table entries).card := by
  have hsum := Dict.sum_values_set Dict.size (storeAll attrs table entries) htable
  have hsize := size_storeAll attrs table entries
  rw [heldAfter, heldCount, heldCount]
  dsimp only
  omega

theorem perform_fsm (s : Session) (action : FsmAction) :
    (s.perform action).peer.fsm = s.peer.fsm := by
  cases action <;> rfl

theorem foldl_perform_fsm (actions : List FsmAction) (s : Session) :
    (actions.foldl perform s).peer.fsm = s.peer.fsm := by
  induction actions generalizing s with
  | nil => rfl
  | cons action rest ih => exact (ih (s.perform action)).trans (perform_fsm s action)

theorem performQueued_state (s : Session) : s.performQueued.peer.fsm.state = s.peer.fsm.state := by
  have hmachine := foldl_perform_fsm s.peer.fsm.actions
    { s with peer.fsm := { s.peer.fsm with actions := [] } }
  exact (congrArg Fsm.state hmachine).trans rfl

theorem perform_conn {s : Session} (hconn : s.peer.conn = none) (action : FsmAction) :
    (s.perform action).peer.conn = none := by
  cases action <;> first | exact hconn | rfl

theorem foldl_perform_conn {s : Session} (actions : List FsmAction)
    (h : s.peer.conn = none ∨ .drop ∈ actions) : (actions.foldl perform s).peer.conn = none := by
  induction actions generalizing s with
  | nil => simpa using h
  | cons action rest ih =>
    apply ih
    rcases h with hconn | hdrop
    · exact Or.inl (perform_conn hconn action)
    · rcases List.mem_cons.mp hdrop with rfl | hrest
      · exact Or.inl rfl
      · exact Or.inr hrest

theorem settlePending_state {env : SessionEnv} {s : Session} (held : Held)
    (hidle : s.peer.fsm.state = .idle) (hconn : s.peer.conn = none) :
    (s.settlePending env held).peer.fsm.state = .idle := by
  have hnone : (openConn s.peer).isSome = false := by simp [openConn, hconn]
  unfold settlePending
  dsimp only
  split
  · exact hidle
  · simp [hnone, hidle]

/-- An Automatic Stop ends a session that is in any state but Idle. -/
theorem eventDrained_automaticStop_state (env : SessionEnv) {s : Session}
    (hup : s.peer.fsm.state ≠ .idle) :
    (s.eventDrained env .automaticStop).peer.fsm.state = .idle := by
  have hmachine : (s.event env .automaticStop).peer.fsm =
      s.peer.fsm.notifyAndIdle env.now NOTIFY_CEASE CEASE_OTHER_CONFIG_CHANGE [] false :=
    if_pos hup
  have hstate : (s.event env .automaticStop).peer.fsm.state = .idle := by
    rw [hmachine]
    exact Fsm.state_toIdle _ _ _
  have hdrop : .drop ∈ (s.event env .automaticStop).peer.fsm.actions := by
    rw [hmachine, Fsm.notifyAndIdle, Fsm.actions_toIdle]
    simp
  have hafter := (performQueued_state (s.event env .automaticStop)).trans hstate
  have hconn : (s.event env .automaticStop).performQueued.peer.conn = none := by
    rw [performQueued]
    exact foldl_perform_conn _ (Or.inr hdrop)
  rw [eventDrained, drainActions]
  split
  · exact hafter
  · exact settlePending_state _ hafter hconn

theorem runEach_announceEntry_fsm (env : SessionEnv) (af : Family) (attrs : AttrSet)
    (entries : List Nlri) (s : Session) :
    (runEach (announceEntry env af attrs) entries s).1.peer.fsm = s.peer.fsm := by
  refine runEach_induction (motive := fun s' : Session => s'.peer.fsm = s.peer.fsm) ?_ rfl
  intro s' entry _ hs'
  exact (announceEntry_fsm s' af entry attrs).1.trans hs'

/-- The session was up in some state, and is idle now. -/
def Ends (s s' : Session) : Prop := s.peer.fsm.state ≠ .idle ∧ s'.peer.fsm.state = .idle

/-- The limit is one on keys: an announcement ends the session when there would be more than
`maximum-prefix`; repeating keys that are held never does. -/
def LimitsKeys (env : SessionEnv) (s : Session) (af : Family) (table : Dict Nlri AttrSet)
    (entries : List Nlri) (attrs : AttrSet) : Prop :=
  (s.Ends (s.announceMany env af entries attrs).1 ↔
      s.peer.config.maximumPrefix < heldAfter s.peer af table entries attrs) ∧
    (heldCount s.peer ≤ s.peer.config.maximumPrefix →
      (∀ entry ∈ entries, table.contains entry = true) →
      ¬ s.Ends (s.announceMany env af entries attrs).1)

/-- An accepted announcement ends the session when it is too long for the room left,
whatever it repeats. -/
theorem announceMany_ends_iff {env : SessionEnv} {s : Session} {af : Family}
    {table : Dict Nlri AttrSet} {entries : List Nlri} {attrs : AttrSet}
    (htable : s.peer.adjIn.get? af = some table) (hup : s.peer.fsm.state ≠ .idle)
    (hlimit : 0 < s.peer.config.maximumPrefix) (hloops : loops s.peer.config attrs = false)
    (hlong : tooLong s.peer.config attrs = false) :
    s.Ends (s.announceMany env af entries attrs).1 ↔
      s.peer.config.maximumPrefix < heldCount s.peer + entries.length := by
  simp only [announceMany, htable, hloops, hlong, Bool.or_self, Bool.false_eq_true, if_false]
  rw [overLimit]
  by_cases hover : exceeds s.peer entries.length = true
  · rw [if_pos hover]
    have hexceeds : s.peer.config.maximumPrefix < heldCount s.peer + entries.length := by
      rw [exceeds, Bool.and_eq_true] at hover
      exact of_decide_eq_true hover.2
    exact iff_of_true ⟨hup, eventDrained_automaticStop_state env hup⟩ hexceeds
  · rw [if_neg hover]
    have hwithin : ¬ s.peer.config.maximumPrefix < heldCount s.peer + entries.length := by
      intro hlt
      apply hover
      rw [exceeds, Bool.and_eq_true]
      exact ⟨decide_eq_true (by omega), decide_eq_true hlt⟩
    refine iff_of_false ?_ hwithin
    rintro ⟨-, hidle⟩
    apply hup
    simpa only [Bool.false_eq_true, if_false, runEach_announceEntry_fsm] using hidle

/-- The limit is one on keys for exactly the announcements whose new keys alone exceed
it, or whose repeats fit in the room the new keys leave. -/
theorem announceMany_limitsKeys_iff (env : SessionEnv) (s : Session) (af : Family)
    (table : Dict Nlri AttrSet) (entries : List Nlri) (attrs : AttrSet)
    (htable : s.peer.adjIn.get? af = some table) (hup : s.peer.fsm.state ≠ .idle)
    (hlimit : 0 < s.peer.config.maximumPrefix) (hloops : loops s.peer.config attrs = false)
    (hlong : tooLong s.peer.config attrs = false) :
    LimitsKeys env s af table entries attrs ↔
      s.peer.config.maximumPrefix < heldCount s.peer + (freshKeys table entries).card ∨
        repeats table entries ≤ s.peer.config.maximumPrefix -
          (heldCount s.peer + (freshKeys table entries).card) := by
  have hends : s.Ends (s.announceMany env af entries attrs).1 ↔
      s.peer.config.maximumPrefix < heldCount s.peer + entries.length :=
    announceMany_ends_iff htable hup hlimit hloops hlong
  have hlength := card_freshKeys_add_repeats table entries
  have hheld : (∀ entry ∈ entries, table.contains entry = true) →
      (freshKeys table entries).card = 0 := by
    intro hall
    rw [Finset.card_eq_zero, Finset.eq_empty_iff_forall_notMem]
    intro entry hmem
    obtain ⟨hentry, hlacks⟩ := mem_freshKeys.mp hmem
    simp [hall entry hentry] at hlacks
  rw [LimitsKeys, hends, heldAfter_eq htable]
  constructor
  · rintro ⟨hkeys, -⟩
    omega
  · intro hroom
    refine ⟨by omega, fun hfits hall => ?_⟩
    have hnone := hheld hall
    omega

/-- The neighbour's session with a limit of one prefix. -/
def limitedSession : Session :=
  { externalSession with peer.config.maximumPrefix := 1 }

/-- The handshake completed and 10.0.0.0/8 told, which is what the limit allows. -/
def filledSession : Session := run (inTurn handshake) limitedSession

/-- What the Adj-RIB-In holds then. -/
def filledTable : Dict Nlri AttrSet := (filledSession.peer.adjIn.get? IPV4_UNICAST).getD Dict.empty

theorem filledSession_table : filledSession.peer.adjIn.get? IPV4_UNICAST = some filledTable := by
  have hfound : (filledSession.peer.adjIn.get? IPV4_UNICAST).isSome = true := by decide +kernel
  obtain ⟨table, htable⟩ := Option.isSome_iff_exists.mp hfound
  rw [filledTable, htable, Option.getD_some]

def netTwenty : Prefix := .ipv4 20 0 0 0 8

/-- A second prefix is over the limit, and ends the session by itself. -/
theorem filledSession_limitsKeys :
    LimitsKeys plainEnv filledSession IPV4_UNICAST filledTable
      [(LocRib.netTen, 0), (netTwenty, 0)] {} := by
  apply (announceMany_limitsKeys_iff plainEnv filledSession IPV4_UNICAST filledTable _ {}
    filledSession_table (by decide +kernel) (by decide +kernel) (by decide +kernel)
    (by decide +kernel)).mpr
  exact Or.inl (by decide +kernel)

/-- The same prefix told again ends the session. -/
theorem not_limitsKeys_repeated :
    filledSession.peer.fsm.state = .established ∧
      (run (inTurn [.read 1 updateMessage]) filledSession).peer.fsm.state = .idle ∧
      ¬ LimitsKeys plainEnv filledSession IPV4_UNICAST filledTable [(LocRib.netTen, 0)] {} := by
  refine ⟨by decide +kernel, by decide +kernel, ?_⟩
  rintro ⟨-, hnever⟩
  apply hnever (by decide +kernel) (by decide +kernel)
  exact ⟨by decide +kernel, by decide +kernel⟩

end Session

end Packets
