/-
Longest match over a route table, and next-hop resolution.

A lookup is the longest usable cover of the first table that has one.  The resolver finds a
chain of engine routes exactly when there is one short enough that meets no prefix twice.
-/
import Packets.Rib.Publication
import Packets.Rib.TrieMap
import Packets.Rib.Resolver

namespace Packets

theorem pfxMask_pfxMask_of_le {k n : Nat} (h : k ≤ n) (addr : Bytes) :
    pfxMask k (pfxMask n addr) = pfxMask k addr := by
  have hinner := (agreeTo_pfxMask n addr).mono h
  have hagree : AgreeTo k (pfxMask k (pfxMask n addr)) (pfxMask k addr) :=
    ((agreeTo_pfxMask k _).trans hinner).trans (agreeTo_pfxMask k addr).symm
  exact eq_of_masked (by simp) (pfxMask_idem k _) (pfxMask_idem k _) hagree

theorem Prefix.eq_of_containsAddr {p q : Prefix} {afi : Nat} {addr : Bytes}
    (hp : p.ContainsAddr afi addr) (hq : q.ContainsAddr afi addr) (hlen : p.plen = q.plen) :
    p = q := by
  obtain ⟨pafi, pplen, paddr, _, _, _, _⟩ := p
  obtain ⟨qafi, qplen, qaddr, _, _, _, _⟩ := q
  obtain ⟨hpafi, hpaddr⟩ := hp
  obtain ⟨hqafi, hqaddr⟩ := hq
  simp only at hpafi hpaddr hqafi hqaddr hlen
  subst hlen
  simp only [Prefix.mk.injEq, true_and]
  exact ⟨hpafi.trans hqafi.symm, hpaddr.symm.trans hqaddr⟩

/-- There is one longest entry, when the test admits only prefixes that contain one
address. -/
theorem Longest.unique {V : Type} {d : Dict Prefix V} {inside inside' : Prefix → Prop}
    {r r' : Option (Prefix × V)} (afi : Nat) (addr : Bytes) (h : Longest d inside r)
    (h' : Longest d inside' r') (hsame : ∀ q v, d.get? q = some v → (inside q ↔ inside' q))
    (hcontains : ∀ q, inside q → q.ContainsAddr afi addr) : r = r' := by
  rcases r with - | ⟨q, v⟩
  · rcases r' with - | ⟨q', v'⟩
    · rfl
    · exact absurd ((hsame q' v' h'.1).mpr h'.2.1) (h q' v' h'.1)
  · rcases r' with - | ⟨q', v'⟩
    · exact absurd ((hsame q v h.1).mp h.2.1) (h' q v h.1)
    · obtain ⟨hget, hin, hmax⟩ := h
      obtain ⟨hget', hin', hmax'⟩ := h'
      have hin'' := (hsame q' v' hget').mpr hin'
      have hle := hmax q' v' hget' hin''
      have hle' := hmax' q v hget ((hsame q v hget).mp hin)
      have hq : q = q' := Prefix.eq_of_containsAddr (hcontains q hin) (hcontains q' hin'')
        (Nat.le_antisymm hle' hle)
      subst hq
      rw [hget, Option.some.injEq] at hget'
      rw [hget']

namespace Rib

namespace RouteTable

variable {t : RouteTable}

/-- What `lpm` and `lpm_addr` look for. -/
theorem longestCover_longest (t : RouteTable) (plen : Nat) (addr : Bytes) :
    Longest t.trie (fun q => q.plen ≤ plen ∧ q.ContainsAddr t.afi addr)
      (t.longestCover plen addr) := by
  have hmem : ∀ q d, (q, d) ∈ t.trie.entries.filter (fun e =>
      decide (e.1.afi = t.afi ∧ e.1.plen ≤ plen ∧ pfxMask e.1.plen addr = e.1.addr)) ↔
      t.trie.get? q = some d ∧ q.plen ≤ plen ∧ q.ContainsAddr t.afi addr := by
    intro q d
    rw [List.mem_filter, Dict.mem_entries_iff, decide_eq_true_iff, Prefix.ContainsAddr]
    tauto
  cases hfound : t.longestCover plen addr with
  | none =>
    intro q d hget hin
    rw [longestCover, List.argmax_eq_none] at hfound
    have hq := (hmem q d).mpr ⟨hget, hin⟩
    rw [hfound] at hq
    exact absurd hq List.not_mem_nil
  | some found =>
    obtain ⟨q, d⟩ := found
    have hmax := hfound
    obtain ⟨hget, hin⟩ := (hmem q d).mp (List.argmax_mem hfound)
    refine ⟨hget, hin, fun q' d' hget' hin' => ?_⟩
    have hle := List.le_of_mem_argmax ((hmem q' d').mpr ⟨hget', hin'⟩) hmax
    exact hle

theorem longestCover_pfxMask (t : RouteTable) (plen : Nat) (addr : Bytes) :
    t.longestCover plen (pfxMask plen addr) = t.longestCover plen addr := by
  apply Longest.unique t.afi (pfxMask plen addr) (longestCover_longest t plen _)
    (longestCover_longest t plen addr)
  · intro q _ _
    apply and_congr_right
    intro hle
    rw [Prefix.ContainsAddr, Prefix.ContainsAddr, pfxMask_pfxMask_of_le hle]
  · exact fun q hin => hin.2

/-- The prefixes that cover an address and whose destination passes a test. -/
def Passes (t : RouteTable) (addr : Bytes) (accept : Dest → Bool) (q : Prefix) : Prop :=
  q.ContainsAddr t.afi addr ∧ ∃ d, t.trie.get? q = some d ∧ accept (t.cell d) = true

/-- From the longest cover up to a length, with none longer passing, the walk ends at
the longest that passes. -/
theorem shorterCover_spec (h : Wf t []) {addr : Bytes} (haddr : addr.length = pfxAddrLen t.afi)
    (accept : Dest → Bool) (fuel plen : Nat) (hfuel : plen + 2 ≤ fuel)
    (hplen : plen ≤ pfxAddrBits t.afi) (hlonger : ∀ q, t.Passes addr accept q → q.plen ≤ plen) :
    ∃ r, t.shorterCover t.afi addr accept fuel
        ((t.longestCover plen addr).map fun e => t.cell e.2) = some (r.map fun e => t.cell e.2) ∧
      Longest t.trie (t.Passes addr accept) r := by
  induction fuel generalizing plen with
  | zero => omega
  | succ fuel ih =>
    have hlongest := longestCover_longest t plen addr
    cases hfound : t.longestCover plen addr with
    | none =>
      rw [hfound] at hlongest
      refine ⟨none, rfl, fun q d hget hpass => ?_⟩
      exact hlongest q d hget ⟨hlonger q hpass, hpass.1⟩
    | some found =>
      obtain ⟨q, d⟩ := found
      rw [hfound] at hlongest
      obtain ⟨hget, hin, hmax⟩ := hlongest
      have hpfx : (t.cell d).pfx = q := h.filed_pfx q d hget
      rw [Option.map_some, shorterCover, hpfx]
      by_cases haccept : accept (t.cell d) = true
      · rw [if_pos haccept]
        refine ⟨some (q, d), rfl, hget, ⟨hin.2, d, hget, haccept⟩, ?_⟩
        intro q' d' hget' hpass
        exact hmax q' d' hget' ⟨hlonger q' hpass, hpass.1⟩
      · rw [if_neg haccept]
        -- No cover as long as this one passes.
        have hshorter : ∀ q', t.Passes addr accept q' → q'.plen < q.plen := by
          intro q' hpass
          obtain ⟨hcontains, d', hget', haccept'⟩ := hpass
          have hle := hmax q' d' hget' ⟨hlonger q' ⟨hcontains, d', hget', haccept'⟩, hcontains⟩
          apply Nat.lt_of_le_of_ne hle
          intro heq
          have hsame : q' = q := Prefix.eq_of_containsAddr hcontains hin.2 heq
          rw [hsame, hget, Option.some.injEq] at hget'
          rw [← hget'] at haccept'
          exact haccept haccept'
        by_cases hzero : q.plen = 0
        · rw [if_pos hzero]
          refine ⟨none, rfl, fun q' d' _ hpass => ?_⟩
          have := hshorter q' hpass
          omega
        · rw [if_neg hzero]
          have hbound : q.plen - 1 ≤ pfxAddrBits t.afi := by omega
          have hknown : pfxAddrLen t.afi ≠ 0 := hin.2.1 ▸ q.known
          have hnew : Prefix.new t.afi (q.plen - 1) addr =
              some ⟨t.afi, q.plen - 1, pfxMask (q.plen - 1) addr, hknown, hbound,
                by simp [haddr], pfxMask_idem _ _⟩ := by
            rw [Prefix.new, dif_pos ⟨hknown, hbound, haddr⟩]
          rw [hnew]
          simp only [lpm, ne_eq, not_true_eq_false, ↓reduceIte, longestCover_pfxMask]
          apply ih
          · have := hin.1
            omega
          · exact hbound
          · intro q' hpass
            have := hshorter q' hpass
            omega

end RouteTable

/-- The winner of greatest prefix length among the usable ones that cover an address. -/
def LongestUsable (winner : Prefix → Option Route) (usable : Route → Prop) (afi : Nat)
    (addr : Bytes) : Option Route → Prop
  | none => ∀ q r, winner q = some r → q.ContainsAddr afi addr → ¬usable r
  | some r => winner r.pfx = some r ∧ r.pfx.ContainsAddr afi addr ∧ usable r ∧
      ∀ q r', winner q = some r' → q.ContainsAddr afi addr → usable r' → q.plen ≤ r.pfx.plen

theorem LongestUsable.unique {winner : Prefix → Option Route} {usable : Route → Prop} {afi : Nat}
    {addr : Bytes} {r r' : Option Route} (h : LongestUsable winner usable afi addr r)
    (h' : LongestUsable winner usable afi addr r') : r = r' := by
  rcases r with - | r
  · rcases r' with - | r'
    · rfl
    · exact absurd h'.2.2.1 (h r'.pfx r' h'.1 h'.2.1)
  · rcases r' with - | r'
    · exact absurd h.2.2.1 (h' r.pfx r h.1 h.2.1)
    · obtain ⟨hwin, hin, huse, hmax⟩ := h
      obtain ⟨hwin', hin', huse', hmax'⟩ := h'
      have hle := hmax r'.pfx r' hwin' hin' huse'
      have hle' := hmax' r.pfx r hwin hin huse
      have hpfx := Prefix.eq_of_containsAddr hin hin' (Nat.le_antisymm hle' hle)
      rw [hpfx, hwin', Option.some.injEq] at hwin
      rw [hwin]

namespace Resolver

/-- The winners of the table of an address family. -/
def winnersOf (tables : Dict Nat RouteTable) (afi : Nat) (p : Prefix) : Option Route :=
  match tables.get? afi with
  | none => none
  | some table => table.bestAt p

/-- The winners of the engine's unicast table, when the resolver may ask it. -/
def engineWinners (s : Resolver) (afi : Nat) (p : Prefix) : Option Route :=
  match s.useRib, s.globalRib with
  | true, some g => g.bestAt (afi, SAFI_UNICAST) p
  | _, _ => none

/-- The routes a lookup of an address may end at, by source. -/
def winners (s : Resolver) : LookupSource → Nat → Prefix → Option Route
  | .static => winnersOf s.static
  | .kernel => winnersOf s.kernel
  | .rib => s.engineWinners

/-- A default route vouches for nothing unless it may, and an engine route of the asking
protocol never does. -/
def MayVouch (s : Resolver) (protocol : Option Nat) (source : LookupSource) (r : Route) :
    Prop :=
  (r.pfx.plen ≠ 0 ∨ s.resolveViaDefault = true) ∧ (source = .rib → protocol ≠ some r.protocol)

/-- What one source has for an address. -/
def Has (s : Resolver) (protocol : Option Nat) (afi : Nat) (addr : Bytes)
    (source : LookupSource) : Option Route → Prop :=
  LongestUsable (s.winners source afi) (s.MayVouch protocol source) afi addr

/-- One lookup: the first source that has something. -/
inductive Looks (s : Resolver) (protocol : Option Nat) (afi : Nat) (addr : Bytes) :
    LookupSource × Route → Prop
  | static {r : Route} (hstatic : s.Has protocol afi addr .static (some r)) :
      Looks s protocol afi addr (.static, r)
  | kernel {r : Route} (hstatic : s.Has protocol afi addr .static none)
      (hkernel : s.Has protocol afi addr .kernel (some r)) :
      Looks s protocol afi addr (.kernel, r)
  | rib {r : Route} (hstatic : s.Has protocol afi addr .static none)
      (hkernel : s.Has protocol afi addr .kernel none)
      (hrib : s.Has protocol afi addr .rib (some r)) :
      Looks s protocol afi addr (.rib, r)

/-- The address family of a next hop. -/
def nexthopAfi (r : Route) : Nat := if r.nexthop.length = 4 then AFI_IP else AFI_IP6

/-- Whether a lookup leaves the next hop of an engine route to be resolved. -/
def GoesOn (look : LookupSource × Route) : Prop := look.1 = .rib ∧ look.2.nexthop ≠ []

instance (look : LookupSource × Route) : Decidable (GoesOn look) :=
  inferInstanceAs (Decidable (_ ∧ _))

/-- A chain of lookups, each for the next hop of the one before it. -/
inductive Chain (s : Resolver) (protocol : Option Nat) :
    Nat → Bytes → List (LookupSource × Route) → Prop
  | last {afi : Nat} {addr : Bytes} {look : LookupSource × Route}
      (hlooks : s.Looks protocol afi addr look) (hends : ¬GoesOn look) :
      Chain s protocol afi addr [look]
  | hop {afi : Nat} {addr : Bytes} {look : LookupSource × Route}
      {rest : List (LookupSource × Route)} (hlooks : s.Looks protocol afi addr look)
      (hgoes : GoesOn look)
      (hrest : Chain s protocol (nexthopAfi look.2) look.2.nexthop rest) :
      Chain s protocol afi addr (look :: rest)

/-- The engine prefixes a chain goes through. -/
def enginePrefixes (chain : List (LookupSource × Route)) : List Prefix :=
  (chain.filter fun look => look.1 = .rib).map fun look => look.2.pfx

/-- A table of a family whose winners have next hops of a width `Route` takes. -/
structure Usable (afi : Nat) (t : RouteTable) : Prop where
  afi : t.afi = afi
  wf : RouteTable.Wf t []
  routes : ∀ p, ∀ r ∈ t.routesAt p, r.nexthop.length ∈ nexthopWidths
  best : ∀ p r, t.bestAt p = some r → r.nexthop.length ∈ nexthopWidths

structure Valid (s : Resolver) : Prop where
  static : ∀ afi t, s.static.get? afi = some t → Usable afi t
  kernel : ∀ afi t, s.kernel.get? afi = some t → Usable afi t
  rib : ∀ g, s.globalRib = some g → ∀ key t, g.tables.get? key = some t → Usable key.1 t

variable {s : Resolver} {protocol : Option Nat} {afi : Nat} {addr : Bytes}

theorem Valid.width (h : s.Valid) {source : LookupSource} {p : Prefix} {r : Route}
    (hr : s.winners source afi p = some r) : r.nexthop.length ∈ nexthopWidths := by
  have htables : ∀ tables : Dict Nat RouteTable,
      (∀ afi t, tables.get? afi = some t → Usable afi t) →
      winnersOf tables afi p = some r → r.nexthop.length ∈ nexthopWidths := by
    intro tables htables hbest
    rw [winnersOf] at hbest
    cases ht : tables.get? afi with
    | none => rw [ht] at hbest; exact absurd hbest (by simp)
    | some t =>
      rw [ht] at hbest
      exact (htables afi t ht).best p r hbest
  cases source with
  | static => exact htables s.static h.static hr
  | kernel => exact htables s.kernel h.kernel hr
  | rib =>
    rw [winners, engineWinners] at hr
    cases huse : s.useRib with
    | false => rw [huse] at hr; exact absurd hr (by simp)
    | true =>
      cases hg : s.globalRib with
      | none => rw [huse, hg] at hr; exact absurd hr (by simp)
      | some g =>
        rw [huse, hg] at hr
        simp only [GlobalRib.bestAt] at hr
        cases ht : g.tables.get? (afi, SAFI_UNICAST) with
        | none => rw [ht] at hr; exact absurd hr (by simp)
        | some t =>
          rw [ht] at hr
          exact (h.rib g hg _ t ht).best p r hr

/-- The longest destination that passes has the longest usable winner. -/
theorem longestUsable_of_longest {t : RouteTable} (h : RouteTable.Wf t [])
    {accept : Dest → Bool} {usable : Route → Prop}
    (hpass : ∀ q d, t.trie.get? q = some d →
      (accept (t.cell d) = true ↔ ∃ r, (t.cell d).best = some r ∧ usable r))
    {found : Option (Prefix × Nat)}
    (hfound : Longest t.trie (t.Passes addr accept) found) :
    LongestUsable t.bestAt usable t.afi addr (found.bind fun e => (t.cell e.2).best) ∧
      ∀ q d, found = some (q, d) → ∃ r, (t.cell d).best = some r ∧ r.pfx = q := by
  have hpasses : ∀ q r, t.bestAt q = some r → q.ContainsAddr t.afi addr → usable r →
      ∃ d, t.trie.get? q = some d ∧ t.Passes addr accept q := by
    intro q r hbest hin huse
    cases hd : t.trie.get? q with
    | none => rw [RouteTable.bestAt_of_none hd] at hbest; exact absurd hbest (by simp)
    | some d =>
      rw [RouteTable.bestAt_of_filed hd] at hbest
      exact ⟨d, rfl, hin, d, hd, (hpass q d hd).mpr ⟨r, hbest, huse⟩⟩
  rcases found with - | ⟨q, d⟩
  · refine ⟨fun q r hbest hin huse => ?_, fun q d hnone => absurd hnone (by simp)⟩
    obtain ⟨d, hd, hin'⟩ := hpasses q r hbest hin huse
    exact hfound q d hd hin'
  · obtain ⟨hd, ⟨hin, d', hd', haccept⟩, hmax⟩ := hfound
    rw [hd, Option.some.injEq] at hd'
    rw [← hd'] at haccept
    obtain ⟨r, hbest, huse⟩ := (hpass q d hd).mp haccept
    have hpfx : r.pfx = q := h.best_pfx q d hd r hbest
    constructor
    · simp only [Option.bind_some, hbest]
      subst hpfx
      refine ⟨(RouteTable.bestAt_of_filed hd).trans hbest, hin, huse, ?_⟩
      intro q' r' hbest' hin' huse'
      obtain ⟨d'', hd'', hpass'⟩ := hpasses q' r' hbest' hin' huse'
      exact hmax q' d'' hd'' hpass'
    · intro q' d' heq
      simp only [Option.some.injEq, Prod.mk.injEq] at heq
      obtain ⟨rfl, rfl⟩ := heq
      exact ⟨r, hbest, hpfx⟩

/-- A walk over the covers of an address, from the longest. -/
theorem shorterCover_usable {t : RouteTable} (h : RouteTable.Wf t [])
    (haddr : addr.length = pfxAddrLen t.afi) (accept : Dest → Bool) (usable : Route → Prop)
    (hpass : ∀ q d, t.trie.get? q = some d →
      (accept (t.cell d) = true ↔ ∃ r, (t.cell d).best = some r ∧ usable r)) :
    ∃ dest found, t.lpmAddr addr = some dest ∧
      t.shorterCover t.afi addr accept (pfxAddrBits t.afi + 2) dest = some found ∧
      LongestUsable t.bestAt usable t.afi addr (found.bind Dest.best) ∧
      ∀ dest, found = some dest → ∃ r, dest.best = some r ∧ r.pfx = dest.pfx := by
  have hlonger : ∀ q, t.Passes addr accept q → q.plen ≤ pfxAddrBits t.afi := by
    intro q hq
    exact hq.1.1 ▸ q.plen_le
  obtain ⟨found, hwalk, hlongest⟩ := RouteTable.shorterCover_spec h haddr accept
    (pfxAddrBits t.afi + 2) (pfxAddrBits t.afi) (Nat.le_refl _) (Nat.le_refl _) hlonger
  obtain ⟨husable, hbest⟩ := longestUsable_of_longest h hpass hlongest
  refine ⟨_, _, ?_, hwalk, ?_, ?_⟩
  · rw [RouteTable.lpmAddr, if_neg (not_not_intro haddr)]
  · rwa [Option.bind_map]
  · intro dest hdest
    obtain ⟨⟨q, d⟩, hfound, rfl⟩ := Option.map_eq_some_iff.mp hdest
    obtain ⟨r, hr, hpfx⟩ := hbest q d hfound
    have hd : t.trie.get? q = some d := by
      rw [hfound] at hlongest
      exact hlongest.1
    exact ⟨r, hr, hpfx.trans (h.filed_pfx q d hd).symm⟩

theorem accept_iff {t : RouteTable} (h : RouteTable.Wf t []) (s : Resolver)
    (protocol : Option Nat) {source : LookupSource} (hsource : source ≠ .rib) {q : Prefix}
    {d : Nat} (hd : t.trie.get? q = some d) :
    ((t.cell d).best.isSome && ((t.cell d).pfx.plen ≠ 0 || s.resolveViaDefault)) = true ↔
      ∃ r, (t.cell d).best = some r ∧ s.MayVouch protocol source r := by
  have hfiled := h.filed_pfx q d hd
  constructor
  · intro haccept
    rw [Bool.and_eq_true, Bool.or_eq_true, decide_eq_true_iff] at haccept
    obtain ⟨r, hr⟩ := Option.isSome_iff_exists.mp haccept.1
    refine ⟨r, hr, ?_, fun hrib => absurd hrib hsource⟩
    rw [h.best_pfx q d hd r hr, ← hfiled]
    exact haccept.2
  · rintro ⟨r, hr, hvouch⟩
    have hpfx := hvouch.1
    rw [h.best_pfx q d hd r hr, ← hfiled] at hpfx
    rw [hr, Bool.and_eq_true, Bool.or_eq_true, decide_eq_true_iff]
    exact ⟨rfl, hpfx⟩

/-- A table that the resolver searches itself answers with what its source has. -/
theorem stepTable_spec (s : Resolver) (protocol : Option Nat) {tables : Dict Nat RouteTable}
    (htables : ∀ afi t, tables.get? afi = some t → Usable afi t)
    (haddr : addr.length = pfxAddrLen afi) (source : LookupSource) (hsource : source ≠ .rib) :
    ∃ found, s.stepTable tables afi addr = some found ∧
      LongestUsable (winnersOf tables afi) (s.MayVouch protocol source) afi addr
        (found.map Prod.snd) ∧
      ∀ p r, found = some (p, r) → p = r.pfx := by
  have hwinners : ∀ t, tables.get? afi = some t → winnersOf tables afi = t.bestAt := by
    intro t ht
    funext p
    rw [winnersOf, ht]
  rw [stepTable]
  cases ht : tables.get? afi with
  | none =>
    refine ⟨none, rfl, fun q r hr => ?_, fun p r hnone => absurd hnone (by simp)⟩
    rw [winnersOf, ht] at hr
    exact absurd hr (by simp)
  | some t =>
    obtain ⟨rfl, hwf, -, -⟩ := htables afi t ht
    obtain ⟨dest, found, hlpm, hwalk, husable, hbest⟩ := shorterCover_usable hwf haddr
      (fun dest => dest.best.isSome && (dest.pfx.plen ≠ 0 || s.resolveViaDefault))
      (s.MayVouch protocol source) fun q d hd => accept_iff hwf s protocol hsource hd
    simp only [covering, hlpm, hwalk, Option.map_some, hwinners t ht]
    refine ⟨_, rfl, ?_, ?_⟩
    · cases hfound : found with
      | none => rwa [hfound] at husable
      | some dest =>
        obtain ⟨r, hr, -⟩ := hbest dest hfound
        rw [hfound] at husable
        simp only [Option.bind_some, hr, Option.map_some] at husable ⊢
        exact husable
    · intro p r hfound
      obtain ⟨dest, hdest, hpair⟩ := Option.bind_eq_some_iff.mp hfound
      obtain ⟨r', hr', hpfx⟩ := hbest dest hdest
      rw [hr', Option.map_some, Option.some.injEq, Prod.mk.injEq] at hpair
      rw [← hpair.1, ← hpair.2, hpfx]

/-- The engine answers with the longest winner that may vouch. -/
theorem stepRib_spec (h : s.Valid) (protocol : Option Nat) (haddr : addr.length = pfxAddrLen afi) :
    ∃ found, s.stepRib afi addr protocol = some found ∧ s.Has protocol afi addr .rib found := by
  have hempty : (∀ p, s.engineWinners afi p = none) → s.Has protocol afi addr .rib none := by
    intro hnone q r hr
    rw [winners, hnone] at hr
    exact absurd hr (by simp)
  rw [stepRib]
  cases huse : s.useRib with
  | false => exact ⟨none, rfl, hempty fun p => by rw [engineWinners, huse]⟩
  | true =>
    cases hg : s.globalRib with
    | none => exact ⟨none, rfl, hempty fun p => by rw [engineWinners, huse, hg]⟩
    | some g =>
      have hbestAt : ∀ p, s.engineWinners afi p = g.bestAt (afi, SAFI_UNICAST) p :=
        fun p => by rw [engineWinners, huse, hg]
      simp only [GlobalRib.lpm]
      cases ht : g.tables.get? (afi, SAFI_UNICAST) with
      | none =>
        refine ⟨none, rfl, hempty fun p => ?_⟩
        rw [hbestAt, GlobalRib.bestAt, ht]
      | some t =>
        obtain ⟨hafi, hwf, -, -⟩ := h.rib g hg _ t ht
        simp only at hafi
        subst hafi
        have hpass : ∀ q d, t.trie.get? q = some d →
            ((t.cell d).best.any (s.usable protocol) = true ↔
              ∃ r, (t.cell d).best = some r ∧ s.MayVouch protocol .rib r) := by
          intro q d _
          rw [Option.any_eq_true]
          apply exists_congr
          intro r
          apply and_congr_right
          intro _
          rw [usable, MayVouch, Bool.and_eq_true, Bool.or_eq_true, decide_eq_true_iff,
            decide_eq_true_iff, Nat.pos_iff_ne_zero]
          constructor
          · exact fun hboth => ⟨hboth.2, fun _ => hboth.1⟩
          · exact fun hboth => ⟨hboth.2 rfl, hboth.1⟩
        obtain ⟨dest, found, hlpm, hwalk, husable, -⟩ :=
          shorterCover_usable hwf haddr (fun dest => dest.best.any (s.usable protocol))
            (s.MayVouch protocol .rib) hpass
        simp only [hlpm, hwalk, Option.map_some]
        refine ⟨_, rfl, ?_⟩
        have hwinners : s.winners .rib t.afi = t.bestAt := by
          funext p
          rw [winners, hbestAt, GlobalRib.bestAt, ht]
        rw [Has, hwinners]
        exact husable

/-- A step takes the lookup there is to take. -/
theorem step_spec (h : s.Valid) (protocol : Option Nat) (haddr : addr.length = pfxAddrLen afi) :
    (s.step afi addr protocol = some none ∧ ∀ look, ¬s.Looks protocol afi addr look) ∨
      ∃ source r, s.step afi addr protocol = some (some (source, r.pfx, r)) ∧
        s.Looks protocol afi addr (source, r) := by
  obtain ⟨static, hstatic, hhas, hpfx⟩ :=
    stepTable_spec s protocol h.static haddr .static (by decide)
  obtain ⟨kernel, hkernel, hhas', hpfx'⟩ :=
    stepTable_spec s protocol h.kernel haddr .kernel (by decide)
  obtain ⟨rib, hrib, hhas''⟩ := stepRib_spec h protocol haddr
  change s.Has protocol afi addr .static _ at hhas
  change s.Has protocol afi addr .kernel _ at hhas'
  rw [step, hstatic]
  rcases static with - | ⟨p, r⟩
  · simp only [hkernel]
    rcases kernel with - | ⟨p, r⟩
    · simp only [hrib, Option.map_some]
      rcases rib with - | r
      · refine Or.inl ⟨rfl, fun look hlooks => ?_⟩
        cases hlooks with
        | static hsome => exact absurd (hhas.unique hsome) (by simp)
        | kernel _ hsome => exact absurd (hhas'.unique hsome) (by simp)
        | rib _ _ hsome => exact absurd (hhas''.unique hsome) (by simp)
      · exact Or.inr ⟨.rib, r, rfl, .rib hhas hhas' hhas''⟩
    · have hp := hpfx' p r rfl
      exact Or.inr ⟨.kernel, r, by rw [hp], .kernel hhas hhas'⟩
  · have hp := hpfx p r rfl
    exact Or.inr ⟨.static, r, by rw [hp], .static hhas⟩

/-- There is at most one lookup to take. -/
theorem Looks.unique {look look' : LookupSource × Route} (h : s.Looks protocol afi addr look)
    (h' : s.Looks protocol afi addr look') : look = look' := by
  cases h with
  | static hsome =>
    cases h' with
    | static hsome' => rw [Option.some.inj (hsome.unique hsome')]
    | kernel hnone _ => exact absurd (hsome.unique hnone) (by simp)
    | rib hnone _ _ => exact absurd (hsome.unique hnone) (by simp)
  | kernel hnone hsome =>
    cases h' with
    | static hsome' => exact absurd (hsome'.unique hnone) (by simp)
    | kernel _ hsome' => rw [Option.some.inj (hsome.unique hsome')]
    | rib _ hnone' _ => exact absurd (hsome.unique hnone') (by simp)
  | rib hnone hnone' hsome =>
    cases h' with
    | static hsome' => exact absurd (hsome'.unique hnone) (by simp)
    | kernel _ hsome' => exact absurd (hsome'.unique hnone') (by simp)
    | rib _ _ hsome' => rw [Option.some.inj (hsome.unique hsome')]

theorem Looks.winner {source : LookupSource} {r : Route}
    (h : s.Looks protocol afi addr (source, r)) : s.winners source afi r.pfx = some r := by
  cases h with
  | static hsome => exact hsome.1
  | kernel _ hsome => exact hsome.1
  | rib _ _ hsome => exact hsome.1

theorem Looks.contains {look : LookupSource × Route} (h : s.Looks protocol afi addr look) :
    look.2.pfx.ContainsAddr afi addr := by
  cases h with
  | static hsome => exact hsome.2.1
  | kernel _ hsome => exact hsome.2.1
  | rib _ _ hsome => exact hsome.2.1

/-- The answer of a chain is that of its first lookup. -/
def answerOf (look : LookupSource × Route) : Resolution :=
  ⟨look.2.pfx, look.2.nexthop, look.2.metric, look.1⟩

/-- A chain of at most `n` lookups through no engine prefix twice, and through none
already seen. -/
structure Resolves (s : Resolver) (protocol : Option Nat) (afi : Nat) (addr : Bytes)
    (n : Nat) (seen : List (Nat × Prefix)) (chain : List (LookupSource × Route)) : Prop where
  linked : s.Chain protocol afi addr chain
  short : chain.length ≤ n
  nodup : (enginePrefixes chain).Nodup
  fresh : ∀ p ∈ enginePrefixes chain, (p.afi, p) ∉ seen

/-- An answer is there exactly when a chain is, and is that of its first lookup. -/
structure Decides (s : Resolver) (protocol : Option Nat) (afi : Nat) (addr : Bytes) (n : Nat)
    (seen : List (Nat × Prefix)) (answer : Option Resolution) : Prop where
  sound : ∀ found, answer = some found →
    ∃ look rest, s.Resolves protocol afi addr n seen (look :: rest) ∧ answerOf look = found
  complete : ∀ chain, s.Resolves protocol afi addr n seen chain → answer.isSome = true

theorem enginePrefixes_cons_of_goesOn {look : LookupSource × Route} (h : GoesOn look)
    (rest : List (LookupSource × Route)) :
    enginePrefixes (look :: rest) = look.2.pfx :: enginePrefixes rest := by
  simp only [enginePrefixes, List.filter_cons_of_pos, h.1, decide_true, List.map_cons]

/-- The next hop of an engine route that goes on has the width of its family. -/
theorem Valid.nexthop_width (h : s.Valid) {look : LookupSource × Route}
    (hlooks : s.Looks protocol afi addr look) (hgoes : GoesOn look) :
    look.2.nexthop.length = pfxAddrLen (nexthopAfi look.2) := by
  have hwidth := h.width hlooks.winner
  have hne : look.2.nexthop.length ≠ 0 := fun hzero => hgoes.2 (List.length_eq_zero_iff.mp hzero)
  simp only [nexthopWidths, List.mem_cons, List.not_mem_nil, or_false] at hwidth
  rcases hwidth with hzero | hfour | hsixteen
  · exact absurd hzero hne
  · rw [nexthopAfi, if_pos hfour, hfour]
    rfl
  · rw [nexthopAfi, if_neg (by omega), hsixteen]
    rfl

/-- One level: when the recursive call decides the chains one shorter, this level
decides its own. -/
theorem resolveVia_spec (h : s.Valid)
    {next : Nat → Bytes → List (Nat × Prefix) → Option (Option Resolution)} {n : Nat}
    (hnext : ∀ afi addr seen, addr.length = pfxAddrLen afi →
      (∀ key ∈ seen, ∀ r, s.winners .rib key.1 key.2 = some r → r.nexthop ≠ []) →
      ∃ answer, next afi addr seen = some answer ∧ s.Decides protocol afi addr n seen answer)
    (haddr : addr.length = pfxAddrLen afi) {seen : List (Nat × Prefix)}
    (hseen : ∀ key ∈ seen, ∀ r, s.winners .rib key.1 key.2 = some r → r.nexthop ≠ []) :
    ∃ answer, s.resolveVia protocol next afi addr seen = some answer ∧
      s.Decides protocol afi addr (n + 1) seen answer := by
  rw [resolveVia]
  rcases step_spec h protocol haddr with ⟨hstep, hnone⟩ | ⟨source, r, hstep, hlooks⟩
  · rw [hstep]
    refine ⟨none, rfl, fun found hfound => absurd hfound (by simp), fun chain hchain => ?_⟩
    cases hchain.linked with
    | last hlooks _ => exact absurd hlooks (hnone _)
    | hop hlooks _ _ => exact absurd hlooks (hnone _)
  · rw [hstep]
    have hafi : r.pfx.afi = afi := hlooks.contains.1
    by_cases hgoes : GoesOn (source, r)
    · simp only [if_pos (show source = .rib ∧ r.nexthop ≠ [] from hgoes)]
      by_cases hmem : (afi, r.pfx) ∈ seen
      · rw [if_pos hmem]
        refine ⟨none, rfl, fun found hfound => absurd hfound (by simp), fun chain hchain => ?_⟩
        exfalso
        cases hc : hchain.linked with
        | last hlooks' hends => exact hends (hlooks'.unique hlooks ▸ hgoes)
        | hop hlooks' _ _ =>
          have hlook := hlooks'.unique hlooks
          subst hlook
          apply hchain.fresh r.pfx
          · rw [enginePrefixes_cons_of_goesOn hgoes]
            exact List.mem_cons_self
          · rwa [hafi]
      · rw [if_neg hmem]
        have hseen' : ∀ key ∈ (afi, r.pfx) :: seen, ∀ r',
            s.winners .rib key.1 key.2 = some r' → r'.nexthop ≠ [] := by
          intro key hkey r' hr'
          rcases List.mem_cons.mp hkey with rfl | hkey
          · have hwinner := hlooks.winner
            have hsource : source = .rib := hgoes.1
            rw [hsource, hr', Option.some.injEq] at hwinner
            exact hwinner ▸ hgoes.2
          · exact hseen key hkey r' hr'
        obtain ⟨answer, hanswer, hdecides⟩ := hnext _ _ _ (h.nexthop_width hlooks hgoes) hseen'
        rw [nexthopAfi] at hanswer
        rw [hanswer, Option.map_some]
        refine ⟨_, rfl, fun found hfound => ?_, fun chain hchain => ?_⟩
        · obtain ⟨below, hbelow, rfl⟩ := Option.map_eq_some_iff.mp hfound
          obtain ⟨look, rest, hrest, -⟩ := hdecides.sound below hbelow
          refine ⟨(source, r), look :: rest, ⟨.hop hlooks hgoes hrest.linked, ?_, ?_, ?_⟩, rfl⟩
          · exact Nat.succ_le_succ hrest.short
          · rw [enginePrefixes_cons_of_goesOn hgoes, List.nodup_cons]
            refine ⟨fun hin => hrest.fresh r.pfx hin ?_, hrest.nodup⟩
            rw [hafi]
            exact List.mem_cons_self
          · intro p hp hin
            rw [enginePrefixes_cons_of_goesOn hgoes] at hp
            rcases List.mem_cons.mp hp with rfl | hp
            · exact hmem (hafi ▸ hin)
            · exact hrest.fresh p hp (List.mem_cons_of_mem _ hin)
        · cases hc : hchain.linked with
          | last hlooks' hends => exact absurd (hlooks'.unique hlooks ▸ hgoes) hends
          | hop hlooks' _ hrest =>
            have hlook := hlooks'.unique hlooks
            subst hlook
            have hnodup := hchain.nodup
            rw [enginePrefixes_cons_of_goesOn hgoes, List.nodup_cons] at hnodup
            rw [Option.isSome_map]
            apply hdecides.complete _
            refine ⟨hrest, Nat.le_of_succ_le_succ hchain.short, hnodup.2, fun p hp hin => ?_⟩
            rcases List.mem_cons.mp hin with heq | hin
            · simp only [Prod.mk.injEq] at heq
              exact hnodup.1 (heq.2 ▸ hp)
            · apply hchain.fresh p _ hin
              rw [enginePrefixes_cons_of_goesOn hgoes]
              exact List.mem_cons_of_mem _ hp
    · simp only [if_neg (show ¬(source = .rib ∧ r.nexthop ≠ []) from hgoes)]
      refine ⟨_, rfl, fun found hfound => ?_, fun _ _ => rfl⟩
      refine ⟨(source, r), [], ⟨.last hlooks hgoes, ?_, ?_, ?_⟩, Option.some.inj hfound⟩
      · exact Nat.succ_le_succ (Nat.zero_le n)
      · exact (List.nodup_singleton _).sublist (List.filter_sublist.map _)
      · intro p hp hin
        obtain ⟨look, hlook, rfl⟩ := List.mem_map.mp hp
        obtain ⟨hlook, hrib⟩ := List.mem_filter.mp hlook
        rw [List.mem_singleton] at hlook
        subst hlook
        have hsource : source = .rib := of_decide_eq_true hrib
        subst hsource
        have hwinner := hlooks.winner
        rw [← hafi] at hwinner
        exact hgoes ⟨rfl, hseen _ hin r hwinner⟩

theorem resolveFrom_spec (h : s.Valid) (protocol : Option Nat) (left : Nat) :
    ∀ afi addr seen, addr.length = pfxAddrLen afi →
      (∀ key ∈ seen, ∀ r, s.winners .rib key.1 key.2 = some r → r.nexthop ≠ []) →
      ∃ answer, s.resolveFrom protocol left afi addr seen = some answer ∧
        s.Decides protocol afi addr (left + 1) seen answer := by
  induction left with
  | zero =>
    intro afi addr seen haddr hseen
    apply resolveVia_spec h _ haddr hseen
    -- No chain has no lookups.
    intro afi addr seen _ _
    refine ⟨none, rfl, fun found hfound => absurd hfound (by simp), fun chain hchain => ?_⟩
    have hshort := hchain.short
    cases hchain.linked with
    | last _ _ => exact absurd hshort (by simp)
    | hop _ _ _ => exact absurd hshort (by simp)
  | succ left ih =>
    intro afi addr seen haddr hseen
    exact resolveVia_spec h ih haddr hseen

end Resolver

end Rib

end Packets
