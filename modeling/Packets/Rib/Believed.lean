/-
What the engine's longest match believes.

A withdrawal leaves the winner of a destination until the next selection, and a new
destination has none before its first.
-/
import Packets.Rib.Resolution

namespace Packets

namespace Rib

namespace GlobalRib

/-- A prefix with a destination in a table, whether it has routes or not. -/
def Filed (g : GlobalRib) (key : Family) (p : Prefix) : Prop :=
  ∃ t, g.tables.get? key = some t ∧ ∃ d, t.trie.get? p = some d

/-- The longest destination that covers an address. -/
def LongestFiled (g : GlobalRib) (key : Family) (addr : Bytes) (p : Prefix) : Prop :=
  g.Filed key p ∧ p.ContainsAddr key.1 addr ∧
    ∀ q, g.Filed key q → q.ContainsAddr key.1 addr → q.plen ≤ p.plen

/-- Every winner over an address is a route still held, and the longest cover has a
winner if a cover has one. -/
structure Believed (g : GlobalRib) (key : Family) (addr : Bytes) : Prop where
  held : ∀ p r, p.ContainsAddr key.1 addr → g.bestAt key p = some r → r ∈ g.routesAt key p
  decided : ∀ p, g.LongestFiled key addr p → g.bestAt key p = none →
    ∀ q, q.ContainsAddr key.1 addr → g.bestAt key q = none

/-- What a lookup of an address is meant to do: whatever test it is given, the route it
answers with is still offered, and a test that takes every route changes nothing. -/
structure AnswersForOffers (g : GlobalRib) (offers : Offers) (key : Family)
    (addr : Bytes) : Prop where
  offered : ∀ accept r, g.lpm key.1 addr key.2 accept = some (some r) → r ∈ offers key r.pfx
  unfiltered : g.lpm key.1 addr key.2 none = g.lpm key.1 addr key.2 (some fun _ => true)

variable {g : GlobalRib} {offers : Offers} {key : Family} {addr : Bytes}

theorem length_of_containsAddr {p : Prefix} {afi : Nat} (h : p.ContainsAddr afi addr) :
    addr.length = pfxAddrLen afi := by
  rw [← h.1, ← p.length_addr, ← h.2, length_pfxMask]

theorem bestAt_eq_some {p : Prefix} {r : Route} (h : g.bestAt key p = some r) :
    ∃ t, g.tables.get? key = some t ∧ t.bestAt p = some r := by
  cases ht : g.tables.get? key with
  | none =>
    rw [bestAt, ht] at h
    exact absurd h (by simp)
  | some t =>
    rw [bestAt, ht] at h
    exact ⟨t, rfl, h⟩

theorem filed_of_bestAt {p : Prefix} {r : Route} (h : g.bestAt key p = some r) : g.Filed key p := by
  rcases bestAt_eq_some h with ⟨t, ht, hbest⟩
  cases hd : t.trie.get? p with
  | none =>
    rw [RouteTable.bestAt_of_none hd] at hbest
    exact absurd hbest (by simp)
  | some d => exact ⟨t, ht, d, hd⟩

theorem lpm_of_width {t : RouteTable} (ht : g.tables.get? key = some t)
    (hwidth : addr.length ≠ pfxAddrLen t.afi) (accept : Option (Route → Bool)) :
    g.lpm key.1 addr key.2 accept = none := by
  have hnone : t.lpmAddr addr = none := by rw [RouteTable.lpmAddr, if_pos hwidth]
  simp only [lpm, ht, hnone]

/-- Without a test the answer is the winner of the longest cover, if it has one. -/
theorem lpm_without (h : Faithful g offers) (hwidth : addr.length = pfxAddrLen key.1) :
    (g.lpm key.1 addr key.2 none = some none ∧ ∀ p, g.Filed key p → ¬p.ContainsAddr key.1 addr) ∨
      ∃ p, g.LongestFiled key addr p ∧ g.lpm key.1 addr key.2 none = some (g.bestAt key p) := by
  cases ht : g.tables.get? key with
  | none =>
    apply Or.inl
    constructor
    · simp only [lpm, ht]
    · rintro p ⟨t, ht', -⟩
      rw [ht] at ht'
      exact absurd ht' (by simp)
  | some t =>
    have hkept := h.kept key t ht
    have hlongest := RouteTable.longestCover_longest t (pfxAddrBits t.afi) addr
    have hlpm : g.lpm key.1 addr key.2 none =
        some (((t.longestCover (pfxAddrBits t.afi) addr).map fun e => t.cell e.2).bind
          Dest.best) := by
      have haddr : t.lpmAddr addr =
          some ((t.longestCover (pfxAddrBits t.afi) addr).map fun e => t.cell e.2) := by
        rw [RouteTable.lpmAddr, if_neg (not_not_intro (hkept.afi ▸ hwidth))]
      simp only [lpm, ht, haddr]
    have hinside : ∀ q : Prefix, q.ContainsAddr key.1 addr →
        q.plen ≤ pfxAddrBits t.afi ∧ q.ContainsAddr t.afi addr := by
      intro q hq
      rw [hkept.afi]
      exact ⟨hq.1 ▸ q.plen_le, hq⟩
    rcases hfound : t.longestCover (pfxAddrBits t.afi) addr with - | ⟨p, d⟩
    · rw [hfound] at hlongest hlpm
      refine Or.inl ⟨hlpm, ?_⟩
      rintro p ⟨t', ht', d, hd⟩ hp
      rw [ht, Option.some.injEq] at ht'
      exact hlongest p d (ht' ▸ hd) (hinside p hp)
    · rw [hfound] at hlongest hlpm
      obtain ⟨hd, hp, hmax⟩ := hlongest
      have hbest : g.bestAt key p = (t.cell d).best := by
        rw [bestAt, ht]
        exact RouteTable.bestAt_of_filed hd
      refine Or.inr ⟨p, ⟨⟨t, ht, d, hd⟩, hkept.afi ▸ hp.2, ?_⟩, hbest ▸ hlpm⟩
      rintro q ⟨t', ht', d', hd'⟩ hq
      rw [ht, Option.some.injEq] at ht'
      exact hmax q d' (ht' ▸ hd') (hinside q hq)

/-- With a test the answer is the longest winner that passes. -/
theorem lpm_with (h : Faithful g offers) (hwidth : addr.length = pfxAddrLen key.1)
    (accept : Route → Bool) :
    ∃ found, g.lpm key.1 addr key.2 (some accept) = some found ∧
      LongestUsable (g.bestAt key) (fun r => accept r = true) key.1 addr found := by
  cases ht : g.tables.get? key with
  | none =>
    have hnone : ∀ q, g.bestAt key q = none := fun q => by rw [bestAt, ht]
    refine ⟨none, by simp only [lpm, ht], fun q r hr => ?_⟩
    rw [hnone] at hr
    exact absurd hr (by simp)
  | some t =>
    have hkept := h.kept key t ht
    have hpass : ∀ q d, t.trie.get? q = some d →
        ((t.cell d).best.any accept = true ↔ ∃ r, (t.cell d).best = some r ∧ accept r = true) := by
      intro q d _
      cases (t.cell d).best <;> simp
    obtain ⟨dest, found, haddr, hwalk, husable, -⟩ := Resolver.shorterCover_usable
      hkept.wf (hkept.afi ▸ hwidth) (fun dest => dest.best.any accept) _ hpass
    have hwinners : g.bestAt key = t.bestAt := by
      funext q
      rw [bestAt, ht]
    refine ⟨found.bind Dest.best, ?_, ?_⟩
    · rw [hkept.afi] at hwalk
      simp only [lpm, ht, haddr, hwalk, Option.map_some]
    · rw [hwinners, ← hkept.afi]
      exact husable

/-- Whatever the test, a route that is the answer is the winner of its prefix, which
contains the address. -/
theorem lpm_winner (h : Faithful g offers) {accept : Option (Route → Bool)} {r : Route}
    (hlpm : g.lpm key.1 addr key.2 accept = some (some r)) :
    g.bestAt key r.pfx = some r ∧ r.pfx.ContainsAddr key.1 addr := by
  have hwidth : addr.length = pfxAddrLen key.1 := by
    by_contra hother
    cases ht : g.tables.get? key with
    | none =>
      simp only [lpm, ht] at hlpm
      exact absurd hlpm (by simp)
    | some t =>
      rw [lpm_of_width ht ((h.kept key t ht).afi ▸ hother)] at hlpm
      exact absurd hlpm (by simp)
  cases accept with
  | none =>
    rcases lpm_without h hwidth with ⟨hnone, -⟩ | ⟨p, hp, hbest⟩
    · rw [hnone] at hlpm
      exact absurd hlpm (by simp)
    · rw [hbest, Option.some.injEq] at hlpm
      have hpfx : r.pfx = p := by
        rw [← h.published] at hlpm
        exact h.bestAt_pfx hlpm
      rw [hpfx]
      exact ⟨hlpm, hp.2.1⟩
  | some accept =>
    obtain ⟨found, hfound, husable⟩ := lpm_with h hwidth accept
    rw [hfound, Option.some.injEq] at hlpm
    subst hlpm
    exact ⟨husable.1, husable.2.1⟩

theorem AnswersForOffers.believed (h : Faithful g offers)
    (hanswers : g.AnswersForOffers offers key addr) : g.Believed key addr := by
  constructor
  · intro p r hp hbest
    have hwidth := length_of_containsAddr hp
    have hpfx : r.pfx = p := by
      rw [← h.published] at hbest
      exact h.bestAt_pfx hbest
    -- A test that takes this winner alone finds it.
    obtain ⟨found, hfound, husable⟩ := lpm_with h hwidth fun r' => decide (r' = r)
    rcases found with - | r'
    · exact absurd (decide_eq_true rfl) (husable p r hbest hp)
    · have hsame : r' = r := of_decide_eq_true husable.2.2.1
      subst hsame
      rw [h.offered, ← hpfx]
      exact hanswers.offered _ r' hfound
  · intro p hlongest hnone q hq
    have hwidth := length_of_containsAddr hq
    rcases lpm_without h hwidth with ⟨-, hempty⟩ | ⟨p', hlongest', hwithout⟩
    · exact absurd hlongest.2.1 (hempty p hlongest.1)
    · have hp : p' = p := Prefix.eq_of_containsAddr hlongest'.2.1 hlongest.2.1
        (Nat.le_antisymm (hlongest.2.2 p' hlongest'.1 hlongest'.2.1)
          (hlongest'.2.2 p hlongest.1 hlongest.2.1))
      obtain ⟨found, hfound, husable⟩ := lpm_with h hwidth fun _ => true
      have hagree := hanswers.unfiltered
      rw [hwithout, hfound, hp, hnone, Option.some.injEq] at hagree
      subst hagree
      cases hbest : g.bestAt key q with
      | none => rfl
      | some r => exact absurd rfl (husable q r hbest hq)

theorem Believed.answers (h : Faithful g offers) (hbelieved : g.Believed key addr) :
    g.AnswersForOffers offers key addr := by
  constructor
  · intro accept r hlpm
    obtain ⟨hbest, hcontains⟩ := lpm_winner h hlpm
    rw [← h.offered]
    exact hbelieved.held r.pfx r hcontains hbest
  · by_cases hwidth : addr.length = pfxAddrLen key.1
    · obtain ⟨found, hfound, husable⟩ := lpm_with h hwidth fun _ => true
      rw [hfound]
      rcases lpm_without h hwidth with ⟨hnone, hempty⟩ | ⟨p, hlongest, hwithout⟩
      · rw [hnone]
        rcases found with - | r
        · rfl
        · exact absurd husable.2.1 (hempty r.pfx (filed_of_bestAt husable.1))
      · rw [hwithout, Option.some.injEq]
        cases hbest : g.bestAt key p with
        | none =>
          rcases found with - | r
          · rfl
          · have hnone := hbelieved.decided p hlongest hbest r.pfx husable.2.1
            rw [husable.1] at hnone
            exact absurd hnone (by simp)
        | some r =>
          have hpfx : r.pfx = p := by
            rw [← h.published] at hbest
            exact h.bestAt_pfx hbest
          have hwinner : LongestUsable (g.bestAt key) (fun _ => true = true) key.1 addr
              (some r) := by
            rw [LongestUsable, hpfx]
            refine ⟨hbest, hlongest.2.1, rfl, fun q r' hr' hq _ => ?_⟩
            exact hlongest.2.2 q (filed_of_bestAt hr') hq
          exact hwinner.unique husable
    · cases ht : g.tables.get? key with
      | none => simp only [lpm, ht]
      | some t =>
        have hother := (h.kept key t ht).afi ▸ hwidth
        rw [lpm_of_width ht hother, lpm_of_width ht hother]

/-- After any run, and for any address, lookups answer only for offers, and alike with
and without a test that takes every route, exactly when no cover of the address keeps a
winner that is gone and the longest has a winner if one has. -/
theorem run_answers_iff {keys : List Family} {g : GlobalRib} (h : new keys = some g)
    (ops : List RibOp) (afi safi : Nat) (addr : Bytes) :
    (g.run ops).AnswersForOffers (offersAt ops) (afi, safi) addr ↔
      (g.run ops).Believed (afi, safi) addr := by
  have hrun := run_faithful (new_faithful h) ops
  exact ⟨fun hanswers => hanswers.believed hrun, fun hbelieved => hbelieved.answers hrun⟩

/-- An offer that has been selected, and one that has not. -/
def believedRun : List RibOp := [.offer (sharedRoute 0 1) 1, .select 0, .offer (sharedRoute 1 2) 2]

theorem run_answers_believed : new [IPV4_UNICAST] = some ((new [IPV4_UNICAST]).getD empty) ∧
    ((new [IPV4_UNICAST]).getD empty |>.run believedRun).lpm 1 [10, 0, 0, 1] 1 none =
      some (some (sharedRoute 0 1)) ∧
    (((new [IPV4_UNICAST]).getD empty |>.run believedRun).AnswersForOffers
        (offersAt believedRun) (1, 1) [10, 0, 0, 1] ↔
      ((new [IPV4_UNICAST]).getD empty |>.run believedRun).Believed (1, 1) [10, 0, 0, 1]) := by
  have hnew : new [IPV4_UNICAST] = some ((new [IPV4_UNICAST]).getD empty) := rfl
  exact ⟨hnew, by decide +kernel, run_answers_iff hnew believedRun 1 1 _⟩

/-- A withdrawal that selection has not come to. -/
def withdrawnRun : List RibOp := [.offer (sharedRoute 0 1) 1, .select 0, .retract sharedPfx 1 1 1]

/-- Its route is withdrawn and the lookup still answers with it. -/
theorem not_run_answers :
    ¬((new [IPV4_UNICAST]).getD empty |>.run withdrawnRun).AnswersForOffers
        (offersAt withdrawnRun) (1, 1) [10, 0, 0, 1] := by
  have hlpm : ((new [IPV4_UNICAST]).getD empty |>.run withdrawnRun).lpm 1
      [10, 0, 0, 1] 1 none = some (some (sharedRoute 0 1)) := by
    decide +kernel
  have hgone : offersAt withdrawnRun (1, 1) sharedPfx = [] := by decide +kernel
  intro hanswers
  have hoffered := hanswers.offered none (sharedRoute 0 1) hlpm
  have hpfx : (sharedRoute 0 1).pfx = sharedPfx := rfl
  rw [hpfx, hgone] at hoffered
  exact absurd hoffered List.not_mem_nil

end GlobalRib

end Rib

end Packets
