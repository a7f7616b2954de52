/-
The staging area of an Adj-RIB-Out (`plugins/bgp/adjout.py`), and update groups with their
advertisement interval (`plugins/bgp/updategroup.py`).

What a neighbour held of a set the codec refuses is withdrawn.
-/
import Packets.Bgp.WireEncode
import Mathlib.Algebra.Order.Ring.Rat
import Mathlib.Tactic.Linarith
import Packets.Bgp.GroupSharing

namespace Packets

/-- `_BEST_PATH_ID`. -/
def BEST_PATH_ID : Nat := 1

/-- An encoded UPDATE, with the attributes it announces its prefixes with; a withdrawal
has none. -/
structure OutMessage where
  attrs : Option AttrSet
  bytes : Bytes
deriving DecidableEq

namespace AdjRibOut

/-- `withdraw`: only of what was advertised. -/
def withdraw (t : AdjRibOut) (p : Prefix) : AdjRibOut :=
  { t with
    announced := t.announced.erase p
    withdrawn := if t.advertised.contains p then t.withdrawn.set p () else t.withdrawn }

/-- `_stage`: unless it says what the prefix is announced with already. -/
def stage (t : AdjRibOut) (p : Prefix) (out : AttrSet) : AdjRibOut :=
  { t with
    withdrawn := t.withdrawn.erase p
    announced :=
      if (t.announced.get? p).or (t.advertised.get? p) = some out then t.announced
      else t.announced.set p out }

/-- `announce`: what is not to be told is withdrawn.  `none` is a transform that
raises. -/
def announce (rx : RegexEngine) (lists : Resolver) (t : AdjRibOut) (dest : BgpDest) :
    Option AdjRibOut :=
  match dest.best with
  | none => some (t.withdraw dest.pfx)
  | some best =>
    (outboundAttrs rx lists t dest.pfx best).map fun
      | .error _ => t.withdraw dest.pfx
      | .ok out => t.stage dest.pfx out

/-- `pending`. -/
def pending (t : AdjRibOut) : Nat := t.announced.size + t.withdrawn.size

/-- `pending_withdrawals`. -/
def pendingWithdrawals (t : AdjRibOut) : Nat := t.withdrawn.size

/-- Prefixes as the encoders are given them. -/
def nlri (prefixes : List Prefix) : List Nlri := prefixes.map fun p => (p, BEST_PATH_ID)

/-- The messages that withdraw some prefixes. -/
def withdrawals (t : AdjRibOut) (prefixes : List Prefix) : Option (List OutMessage) :=
  (encodeWithdraw (nlri prefixes) (t.afi, t.safi) t.maxSize t.addPathSend).map fun msgs =>
    msgs.map fun bytes => ⟨none, bytes⟩

/-- The messages that announce some prefixes with one attribute set. -/
def announcements (t : AdjRibOut) (out : AttrSet) (prefixes : List Prefix) :
    Option (List OutMessage) :=
  (encodeAnnounce (nlri prefixes) out (t.afi, t.safi) t.maxSize t.as4 t.addPathSend
    t.peer.isEbgp).map fun msgs => msgs.map fun bytes => ⟨some out, bytes⟩

/-- The prefixes of each attribute set, in the order the sets first occur. -/
def groupByAttrs (announced : Dict Prefix AttrSet) : Dict AttrSet (List Prefix) :=
  announced.entries.foldl
    (fun groups e => groups.set e.2 ((groups.get? e.2).getD [] ++ [e.1])) Dict.empty

/-- Encode the prefixes of one attribute set and record them.  When the codec refuses
the set, those the neighbour holds are withdrawn. -/
def encodeGroup (t : AdjRibOut) (out : AttrSet) (group : List Prefix) :
    Option (AdjRibOut × List OutMessage) :=
  match t.announcements out group with
  | some encoded =>
    some ({ t with advertised := group.foldl (fun d p => d.set p out) t.advertised }, encoded)
  | none =>
    let stale := group.filter t.advertised.contains
    (t.withdrawals stale).map fun msgs =>
      ({ t with advertised := stale.foldl Dict.erase t.advertised }, msgs)

def encodeGroups (t : AdjRibOut) :
    List (AttrSet × List Prefix) → Option (AdjRibOut × List OutMessage)
  | [] => some (t, [])
  | (out, group) :: rest =>
    (t.encodeGroup out group).bind fun (t, msgs) =>
      (t.encodeGroups rest).map fun (t, more) => (t, msgs ++ more)

/-- `encode_pending`.  `none` is the `ValueError` of a ceiling too small for a single
withdrawal. -/
def encodePending (t : AdjRibOut) (withdrawalsOnly : Bool) : Option (AdjRibOut × List OutMessage) :=
  (t.withdrawals t.withdrawn.keys).bind fun gone =>
    let t :=
      { t with
        advertised := t.withdrawn.keys.foldl Dict.erase t.advertised
        withdrawn := Dict.empty }
    if withdrawalsOnly then some (t, gone)
    else
      ({ t with announced := Dict.empty }.encodeGroups (groupByAttrs t.announced).entries).map
        fun (t, msgs) => (t, gone ++ msgs)

end AdjRibOut

theorem prefixWireLen_le (addPath : Bool) (e : Nlri) : prefixWireLen addPath e ≤ 21 := by
  have hplen := e.1.plen_le
  have hbits : pfxAddrBits e.1.afi ≤ 128 := by
    rw [pfxAddrBits]
    split
    · omega
    · split <;> omega
  rw [prefixWireLen, plenBytes]
  split <;> omega

/-- A message of the size a session allows at least has room for any prefix. -/
theorem encodeWithdraw_parts {maxSize : Nat} (hroom : MSG_SIZE ≤ maxSize) (items : List Nlri)
    (family : Family) (addPath : Bool) :
    ∃ parts : List (List Nlri), parts.flatten = items ∧
      encodeWithdraw items family maxSize addPath =
        some (parts.map (withdrawMsg family addPath)) := by
  have hroom' : 4096 ≤ maxSize := hroom
  have hfits : ∀ budget, 21 ≤ budget →
      ∃ parts, splitPrefixes addPath budget items = some parts := by
    intro budget hbudget
    apply Option.isSome_iff_exists.mp
    rw [splitPrefixes, Packing.parts_isSome_iff _ (Nat.le_refl _)]
    intro e _
    exact Nat.le_trans (prefixWireLen_le addPath e) hbudget
  rw [encodeWithdraw]
  obtain ⟨parts, hparts⟩ := hfits
    (if family = IPV4_UNICAST then maxSize - HEADER_LEN - 4
      else maxSize - HEADER_LEN - 4 - 4 - 3) (by
        have hheader : HEADER_LEN = 19 := rfl
        split <;> omega)
  refine ⟨parts, Packing.flatten_parts _ hparts, ?_⟩
  simp only [hparts, Option.map_some]

namespace AdjRibOut

variable {t : AdjRibOut}

theorem withdrawals_parts (hroom : MSG_SIZE ≤ t.maxSize) (prefixes : List Prefix) :
    ∃ parts : List (List Nlri), parts.flatten = nlri prefixes ∧
      t.withdrawals prefixes = some (parts.map fun part =>
        ⟨none, withdrawMsg (t.afi, t.safi) t.addPathSend part⟩) := by
  obtain ⟨parts, hflat, hencode⟩ := encodeWithdraw_parts hroom (nlri prefixes)
    (t.afi, t.safi) t.addPathSend
  refine ⟨parts, hflat, ?_⟩
  rw [withdrawals, hencode, Option.map_some, List.map_map]
  rfl

theorem encodeGroup_spec (hroom : MSG_SIZE ≤ t.maxSize) (out : AttrSet) (group : List Prefix) :
    ∃ advertised msgs,
      t.encodeGroup out group = some ({ t with advertised := advertised }, msgs) := by
  rw [encodeGroup]
  cases t.announcements out group with
  | some encoded => exact ⟨_, _, rfl⟩
  | none =>
    obtain ⟨parts, -, hgone⟩ := withdrawals_parts hroom (group.filter t.advertised.contains)
    dsimp only
    rw [hgone]
    exact ⟨_, _, rfl⟩

theorem encodeGroups_spec (hroom : MSG_SIZE ≤ t.maxSize) (groups : List (AttrSet × List Prefix)) :
    ∃ advertised msgs,
      t.encodeGroups groups = some ({ t with advertised := advertised }, msgs) := by
  induction groups generalizing t with
  | nil => exact ⟨t.advertised, [], rfl⟩
  | cons head rest ih =>
    obtain ⟨out, group⟩ := head
    obtain ⟨advertised, msgs, hhead⟩ := encodeGroup_spec hroom out group
    obtain ⟨advertised', more, hrest⟩ := ih (t := { t with advertised := advertised }) hroom
    refine ⟨advertised', msgs ++ more, ?_⟩
    rw [encodeGroups, hhead, Option.bind_some]
    simp only [hrest, Option.map_some]

/-- `encode_pending` sends every staged withdrawal, first of all, and leaves none; the
announcements it sends or leaves as they are. -/
theorem encodePending_spec (hroom : MSG_SIZE ≤ t.maxSize) (withdrawalsOnly : Bool) :
    ∃ (parts : List (List Nlri)) (advertised : Dict Prefix AttrSet) (more : List OutMessage),
      parts.flatten = nlri t.withdrawn.keys ∧
      t.encodePending withdrawalsOnly =
        some ({ t with
            advertised := advertised
            withdrawn := Dict.empty
            announced := if withdrawalsOnly then t.announced else Dict.empty },
          parts.map (fun part => ⟨none, withdrawMsg (t.afi, t.safi) t.addPathSend part⟩) ++ more) ∧
      (withdrawalsOnly = true → more = []) := by
  obtain ⟨parts, hflat, hgone⟩ := withdrawals_parts hroom t.withdrawn.keys
  rw [encodePending, hgone, Option.bind_some]
  cases withdrawalsOnly with
  | true =>
    exact ⟨parts, t.withdrawn.keys.foldl Dict.erase t.advertised, [], hflat, by simp, fun _ => rfl⟩
  | false =>
    obtain ⟨advertised, msgs, hgroups⟩ := encodeGroups_spec
      (t := { t with
        advertised := t.withdrawn.keys.foldl Dict.erase t.advertised
        withdrawn := Dict.empty
        announced := Dict.empty }) hroom (groupByAttrs t.announced).entries
    refine ⟨parts, advertised, msgs, hflat, ?_, by simp⟩
    simp only [Bool.false_eq_true, if_false, hgroups, Option.map_some]

end AdjRibOut

/-- An update group; times are in seconds. -/
structure UpdateGroup where
  /-- The interval of the spec, 0 for none. -/
  mrai : ℚ
  out : AdjRibOut
  members : List String
  /-- The members that owe a replay of the record. -/
  catchup : List String
  /-- Whether the group was offered the whole table once. -/
  seeded : Bool
  lastSend : ℚ

namespace UpdateGroup

/-- `_interval_open`: whether announcements may go. -/
def intervalOpen (g : UpdateGroup) (now : ℚ) : Bool :=
  if g.mrai ≤ 0 ∨ g.lastSend ≤ 0 then true else decide (g.mrai ≤ now - g.lastSend)

/-- `due`: whether anything may go. -/
def due (g : UpdateGroup) (now : ℚ) : Bool :=
  if g.out.pending = 0 then false
  else if g.mrai ≤ 0 ∨ g.lastSend ≤ 0 then true
  else if g.out.pendingWithdrawals ≠ 0 then true
  else decide (g.mrai ≤ now - g.lastSend)

/-- `flush`, and the messages every established member is sent.  `none` is an encoder
that raises. -/
def flush (g : UpdateGroup) (now : ℚ) (force : Bool) : Option (UpdateGroup × List OutMessage) :=
  if !force && !g.due now then some (g, [])
  else
    let withdrawalsOnly := !force && !g.intervalOpen now && decide (0 < g.out.pendingWithdrawals)
    (g.out.encodePending withdrawalsOnly).map fun (out, msgs) =>
      ({ g with
          out := out
          lastSend := if msgs.isEmpty || withdrawalsOnly then g.lastSend else now },
        msgs)

end UpdateGroup

/-- One flush: when, the withdrawals staged for it, and the messages. -/
structure Flushed where
  now : ℚ
  staged : List Prefix
  messages : List OutMessage

namespace Flushed

/-- A flush emits an announcement. -/
def Announces (f : Flushed) : Prop := ∃ m ∈ f.messages, m.attrs.isSome = true

/-- A flush emits every withdrawal staged for it: the messages begin with those that
withdraw these prefixes. -/
def EmitsStaged (f : Flushed) (family : Family) (addPath : Bool) : Prop :=
  ∃ parts : List (List Nlri), parts.flatten = AdjRibOut.nlri f.staged ∧
    parts.map (fun part => ⟨none, withdrawMsg family addPath part⟩) <+: f.messages

end Flushed

namespace UpdateGroup

variable {g g' : UpdateGroup} {now : ℚ}

theorem intervalOpen_iff (hmrai : 0 < g.mrai) (hlast : 0 < g.lastSend) :
    g.intervalOpen now = true ↔ g.mrai ≤ now - g.lastSend := by
  have hnot : ¬(g.mrai ≤ 0 ∨ g.lastSend ≤ 0) := by rintro (h | h) <;> linarith
  rw [intervalOpen, if_neg hnot, decide_eq_true_iff]

/-- Without a staged withdrawal, a group that is due has its interval open. -/
theorem intervalOpen_of_due (hdue : g.due now = true) (hnone : g.out.pendingWithdrawals = 0) :
    g.intervalOpen now = true := by
  rw [due] at hdue
  rw [intervalOpen]
  split at hdue
  · exact absurd hdue (by simp)
  · split at hdue
    · next hopen => rw [if_pos hopen]
    · next hopen =>
        rw [if_neg (not_not_intro hnone)] at hdue
        rw [if_neg hopen]
        exact hdue

theorem due_of_withdrawal (h : g.out.pendingWithdrawals ≠ 0) (now : ℚ) : g.due now = true := by
  have hpending : g.out.pending ≠ 0 := by
    rw [AdjRibOut.pendingWithdrawals] at h
    rw [AdjRibOut.pending]
    omega
  rw [due, if_neg hpending, if_pos h]
  split <;> rfl

/-- What a group keeps through a flush. -/
structure Kept (g g' : UpdateGroup) : Prop where
  mrai : g'.mrai = g.mrai
  maxSize : g'.out.maxSize = g.out.maxSize
  family : (g'.out.afi, g'.out.safi) = (g.out.afi, g.out.safi)
  addPath : g'.out.addPathSend = g.out.addPathSend

theorem Kept.refl (g : UpdateGroup) : Kept g g := ⟨rfl, rfl, rfl, rfl⟩

/-- An unforced flush emits all that is withdrawn.  If it announces, its interval was
open and begins again now; if not, the interval is left as it was or begins again. -/
theorem flush_spec (hroom : MSG_SIZE ≤ g.out.maxSize) (now : ℚ) :
    ∃ g' msgs, g.flush now false = some (g', msgs) ∧ Kept g g' ∧
      Flushed.EmitsStaged ⟨now, g.out.withdrawn.keys, msgs⟩ (g.out.afi, g.out.safi)
        g.out.addPathSend ∧
      (g'.lastSend = g.lastSend ∨ g'.lastSend = now) ∧
      (Flushed.Announces ⟨now, g.out.withdrawn.keys, msgs⟩ →
        g.intervalOpen now = true ∧ g'.lastSend = now) := by
  have hquiet : ∀ staged, ¬Flushed.Announces ⟨now, staged, []⟩ := by
    rintro staged ⟨m, hm, -⟩
    exact absurd hm List.not_mem_nil
  by_cases hdue : g.due now = true
  · obtain ⟨parts, advertised, more, hflat, hencode, honly⟩ :=
      AdjRibOut.encodePending_spec hroom
        (!g.intervalOpen now && decide (0 < g.out.pendingWithdrawals))
    have hfirst : ∀ m ∈ parts.map (fun part => (⟨none,
        withdrawMsg (g.out.afi, g.out.safi) g.out.addPathSend part⟩ : OutMessage)),
        m.attrs.isSome ≠ true := by
      intro m hm
      obtain ⟨part, -, rfl⟩ := List.mem_map.mp hm
      simp
    rw [flush, hdue]
    simp only [Bool.not_false, Bool.not_true, Bool.and_false, Bool.false_eq_true, if_false,
      Bool.true_and, hencode, Option.map_some]
    refine ⟨_, _, rfl, ⟨rfl, rfl, rfl, rfl⟩, ⟨parts, hflat, List.prefix_append _ _⟩, ?_, ?_⟩
    · dsimp only
      split
      · exact Or.inl rfl
      · exact Or.inr rfl
    · rintro ⟨m, hm, hattrs⟩
      dsimp only at hm
      -- Only the messages after the withdrawals announce.
      have hmore : m ∈ more := by
        rcases List.mem_append.mp hm with hgone | hmore
        · exact absurd hattrs (hfirst m hgone)
        · exact hmore
      have hopen : g.intervalOpen now = true := by
        by_contra hshut
        have hstaged : 0 < g.out.pendingWithdrawals := by
          by_contra hnone
          exact hshut (intervalOpen_of_due hdue (by omega))
        rw [honly (by simp [hshut, hstaged])] at hmore
        exact absurd hmore List.not_mem_nil
      refine ⟨hopen, ?_⟩
      simp only [hopen, Bool.not_true, Bool.false_and, Bool.or_false, List.isEmpty_iff]
      exact if_neg (List.ne_nil_of_mem hm)
  · have hnone : g.out.withdrawn.keys = [] := by
      by_contra hne
      apply hdue
      apply due_of_withdrawal
      rw [AdjRibOut.pendingWithdrawals]
      intro hzero
      apply hne
      rw [Dict.keys, List.length_eq_zero_iff.mp hzero, List.map_nil]
    have hflush : g.flush now false = some (g, []) := by
      rw [flush]
      simp [hdue]
    rw [hnone]
    exact ⟨g, [], hflush, Kept.refl g, ⟨[], rfl, List.nil_prefix⟩, Or.inl rfl,
      fun hannounces => absurd hannounces (hquiet [])⟩

/-- What a group is told: to stage, and at some time to flush. -/
inductive Told where
  | announce (lists : Resolver) (dest : BgpDest)
  | withdraw (p : Prefix)
  | flush (now : ℚ)

/-- The times of the flushes. -/
def times (calls : List Told) : List ℚ :=
  calls.filterMap fun
    | .flush now => some now
    | _ => none

/-- A run of calls, and what each flush does.  `none` is a call that raises. -/
def run (rx : RegexEngine) (g : UpdateGroup) : List Told → Option (UpdateGroup × List Flushed)
  | [] => some (g, [])
  | .announce lists dest :: rest =>
    (AdjRibOut.announce rx lists g.out dest).bind fun out => run rx { g with out := out } rest
  | .withdraw p :: rest => run rx { g with out := g.out.withdraw p } rest
  | .flush now :: rest =>
    (g.flush now false).bind fun (g', msgs) =>
      (run rx g' rest).map fun (g'', flushed) => (g'', ⟨now, g.out.withdrawn.keys, msgs⟩ :: flushed)

/-- Two flushes that both announce are an interval apart. -/
def Spaced (mrai : ℚ) (f f' : Flushed) : Prop := f.Announces → f'.Announces → mrai ≤ f'.now - f.now

/-- Staging changes neither the ceiling nor the family of a table. -/
theorem announce_spec (rx : RegexEngine) (lists : Resolver) (t : AdjRibOut) (dest : BgpDest) :
    ∃ t', t.announce rx lists dest = some t' ∧ t'.maxSize = t.maxSize ∧
      (t'.afi, t'.safi) = (t.afi, t.safi) ∧ t'.addPathSend = t.addPathSend := by
  rw [AdjRibOut.announce]
  cases dest.best with
  | none => exact ⟨_, rfl, rfl, rfl, rfl⟩
  | some best =>
    obtain ⟨verdict, hverdict⟩ := Option.isSome_iff_exists.mp
      (AdjRibOut.outboundAttrs_isSome rx lists t dest.pfx best)
    dsimp only
    rw [hverdict]
    cases verdict with
    | error reason => exact ⟨_, rfl, rfl, rfl, rfl⟩
    | ok out => exact ⟨_, rfl, rfl, rfl, rfl⟩

theorem run_spaced {rx : RegexEngine} (hmrai : 0 < g.mrai) (hroom : MSG_SIZE ≤ g.out.maxSize)
    (calls : List Told) (hpos : ∀ now ∈ times calls, 0 < now)
    (hsorted : (times calls).Pairwise (· ≤ ·)) (hsince : ∀ now ∈ times calls, g.lastSend ≤ now) :
    ∃ g' flushed, g.run rx calls = some (g', flushed) ∧ flushed.map Flushed.now = times calls ∧
      (∀ f ∈ flushed, f.EmitsStaged (g.out.afi, g.out.safi) g.out.addPathSend) ∧
      (0 < g.lastSend → ∀ f ∈ flushed, f.Announces → g.mrai ≤ f.now - g.lastSend) ∧
      flushed.Pairwise (Spaced g.mrai) := by
  induction calls generalizing g with
  | nil => exact ⟨g, [], rfl, rfl, by simp, by simp, List.Pairwise.nil⟩
  | cons c rest ih =>
    cases c with
    | announce lists dest =>
      obtain ⟨out, hout, hsize, hfamily, hpath⟩ := announce_spec rx lists g.out dest
      obtain ⟨g', flushed, hrun, htold, hemits, hapart, hspaced⟩ :=
        ih (g := { g with out := out }) hmrai (hsize ▸ hroom) hpos hsorted hsince
      rw [run, hout, Option.bind_some]
      simp only [hfamily, hpath] at hemits
      exact ⟨g', flushed, hrun, htold, hemits, hapart, hspaced⟩
    | withdraw p =>
      exact ih (g := { g with out := g.out.withdraw p }) hmrai hroom hpos hsorted hsince
    | flush now =>
      have htimes : times (.flush now :: rest) = now :: times rest := rfl
      rw [htimes] at hpos hsorted hsince ⊢
      obtain ⟨hafter, hsorted⟩ := List.pairwise_cons.mp hsorted
      obtain ⟨g₁, msgs, hflush, hkept, hstaged, hlast, hopens⟩ := flush_spec hroom now
      have hnow := hsince now List.mem_cons_self
      have hnow_pos := hpos now List.mem_cons_self
      have hlast_le : g.lastSend ≤ g₁.lastSend ∧ g₁.lastSend ≤ now := by
        rcases hlast with h | h <;> rw [h]
        · exact ⟨le_refl _, hnow⟩
        · exact ⟨hnow, le_refl _⟩
      obtain ⟨g', flushed, hrun, htold, hemits, hapart, hspaced⟩ := ih (hkept.mrai ▸ hmrai)
        (hkept.maxSize ▸ hroom) (fun t ht => hpos t (List.mem_cons_of_mem _ ht)) hsorted
        (fun t ht => le_trans hlast_le.2 (hafter t ht))
      rw [hkept.mrai] at hapart hspaced
      rw [hkept.family, hkept.addPath] at hemits
      refine ⟨g', ⟨now, g.out.withdrawn.keys, msgs⟩ :: flushed, ?_,
        congrArg (now :: ·) htold, ?_, ?_, ?_⟩
      · rw [run, hflush, Option.bind_some]
        simp only [hrun, Option.map_some]
      · intro f hf
        rcases List.mem_cons.mp hf with rfl | hf
        · exact hstaged
        · exact hemits f hf
      · intro hlast_pos f hf hannounces
        rcases List.mem_cons.mp hf with rfl | hf
        · exact (intervalOpen_iff hmrai hlast_pos).mp (hopens hannounces).1
        · have hfar := hapart (lt_of_lt_of_le hlast_pos hlast_le.1) f hf hannounces
          linarith [hlast_le.1]
      · apply List.pairwise_cons.mpr
        refine ⟨?_, hspaced⟩
        intro f hf hannounces hannounces'
        rw [(hopens hannounces).2] at hapart
        exact hapart hnow_pos f hf hannounces'

/-- A route another customer told, and one it has changed. -/
def customerDest (asns : List Nat) : BgpDest where
  pfx := siteNet
  paths := []
  best := some { customerPath with attrs.asPath := encodeSegment 4 (AS_SEQUENCE, asns) }
  queued := false

/-- A new group with an interval of 30 seconds around a table. -/
def customerGroup (out : AdjRibOut) : UpdateGroup := ⟨30, out, [], [], true, 0⟩

/-- The change waits for the interval, and the withdrawal does not. -/
def customerCalls : List Told :=
  [.announce PolicyStore.new.resolver (customerDest [65002]), .flush 100,
    .announce PolicyStore.new.resolver (customerDest [65003]), .flush 110, .flush 130,
    .withdraw siteNet, .flush 131]

end UpdateGroup

end Packets
