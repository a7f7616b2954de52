/-
Paging through a table loses and repeats nothing.

A page names the last prefix it shows, and the next request shows what comes after it, whatever
changes between them.
-/
import Packets.Rib.AddressText
import Packets.Rib.Publication
import Packets.Rib.TrieWalk

namespace Packets

namespace Rib

/-- `items` of a table: its destinations in the order in which its trie is walked. -/
def RouteTable.items (t : RouteTable) : List (Prefix × Dest) :=
  (t.trie.keys.insertionSort (GlobalRib.pfxLe · ·)).filterMap fun p =>
    (t.trie.get? p).map fun d => (p, t.cell d)

namespace GlobalRib

/-- The loop of `as_dict`, with the items taken and the prefix of the last one. -/
def pageLoop (limit : Nat) (after : Option Prefix) :
    List (Prefix × Dest) → List Dest → Option Prefix → List Dest × Option Prefix
  | [], items, _ => (items, none)
  | (p, dest) :: rest, items, last =>
    if after.any fun a => !decide (0 < pfxCmp p a) then pageLoop limit after rest items last
    else if dest.best.isNone then pageLoop limit after rest items last
    else if limit ≠ 0 ∧ limit ≤ items.length then (items, last)
    else pageLoop limit after rest (items ++ [dest]) (some p)

/-- `as_dict`: the destinations of a page, and the text of its last prefix if a
destination with a route follows. -/
def asDict (g : GlobalRib) (afi safi limit : Nat) (after : Option Prefix) :
    List Dest × Option String :=
  match g.tables.get? (afi, safi) with
  | none => ([], none)
  | some table =>
    let page := pageLoop limit after table.items [] none
    (page.1, page.2.map Prefix.toStr)

/-- A client that asks for page after page, with the RIB at each request.  `none` is a text
refused, or pages without end. -/
def pageThrough (ribs : Nat → GlobalRib) (afi safi limit : Nat) :
    Nat → Nat → Option Prefix → Option (List Dest)
  | 0, _, _ => none
  | fuel + 1, i, after =>
    match (ribs i).asDict afi safi limit after with
    | (items, none) => some items
    | (items, some next) =>
      match parsePrefix next with
      | none => none
      | some p => (pageThrough ribs afi safi limit fuel (i + 1) (some p)).map (items ++ ·)

/-- A RIB that calls lead to. -/
def Reached (g : GlobalRib) : Prop := ∃ keys g₀ ops, new keys = some g₀ ∧ g = g₀.run ops

theorem pfxCmp_pos_iff {a b : Prefix} : 0 < pfxCmp a b ↔ prefixRank b < prefixRank a := by
  rw [pfxCmp_eq]
  exact Preference.compareRanks_pos_iff rfl

/-- Sorting keys puts them in strictly ascending order. -/
theorem sorted_pairwise {keys : List Prefix} (h : keys.Nodup) :
    (keys.insertionSort (pfxLe · ·)).Pairwise fun p q => prefixRank p < prefixRank q := by
  have hperm := List.perm_insertionSort (pfxLe · ·) keys
  have htotal : Std.Total fun p q : Prefix => pfxLe p q = true :=
    ⟨fun p q => by rw [pfxLe_iff, pfxLe_iff]; exact le_total _ _⟩
  have htrans : IsTrans Prefix fun p q => pfxLe p q = true :=
    ⟨fun p q r hpq hqr => by
      rw [pfxLe_iff] at hpq hqr ⊢
      exact le_trans hpq hqr⟩
  have hle := List.pairwise_insertionSort (fun p q : Prefix => pfxLe p q = true) keys
  have hnodup : (keys.insertionSort (pfxLe · ·)).Nodup := hperm.nodup_iff.mpr h
  apply (hle.and hnodup).imp
  rintro p q ⟨hpq, hne⟩
  exact lt_of_le_of_ne (pfxLe_iff.mp hpq) fun heq => hne (prefixRank_inj heq)

theorem mem_items {t : RouteTable} {e : Prefix × Dest} :
    e ∈ t.items ↔ ∃ d, t.trie.get? e.1 = some d ∧ e.2 = t.cell d := by
  have hperm := List.perm_insertionSort (pfxLe · ·) t.trie.keys
  rw [RouteTable.items, List.mem_filterMap]
  constructor
  · rintro ⟨p, -, hp⟩
    obtain ⟨d, hd, rfl⟩ := Option.map_eq_some_iff.mp hp
    exact ⟨d, hd, rfl⟩
  · rintro ⟨d, hd, hcell⟩
    refine ⟨e.1, hperm.mem_iff.mpr (Dict.mem_keys_iff.mpr ⟨d, hd⟩), ?_⟩
    rw [hd, Option.map_some, ← hcell]

theorem items_pairwise (t : RouteTable) :
    t.items.Pairwise fun e e' => prefixRank e.1 < prefixRank e'.1 := by
  rw [RouteTable.items, List.pairwise_filterMap]
  apply (sorted_pairwise t.trie.nodup).imp
  intro p q hlt a ha b hb
  obtain ⟨d, -, rfl⟩ := Option.map_eq_some_iff.mp ha
  obtain ⟨d', -, rfl⟩ := Option.map_eq_some_iff.mp hb
  exact hlt

/-- A prefix comes after where a client stands. -/
def Beyond (after : Option Prefix) (p : Prefix) : Prop :=
  ∀ a, after = some a → prefixRank a < prefixRank p

instance (after : Option Prefix) (p : Prefix) : Decidable (Beyond after p) :=
  match after with
  | none => isTrue fun a h => absurd h (by simp)
  | some a => decidable_of_iff (prefixRank a < prefixRank p)
      ⟨fun h b hb => Option.some.inj hb ▸ h, fun h => h a rfl⟩

/-- The winners beyond where a client stands. -/
def winnersBeyond (after : Option Prefix) (entries : List (Prefix × Dest)) : List (Prefix × Dest) :=
  entries.filter fun e => decide (Beyond after e.1) && e.2.best.isSome

theorem skipped_iff {after : Option Prefix} {p : Prefix} :
    (after.any fun a => !decide (0 < pfxCmp p a)) = true ↔ ¬Beyond after p := by
  cases after with
  | none => simp [Beyond]
  | some a => simp [Beyond, pfxCmp_pos_iff]

/-- The loop takes the winners for which there is room, and names the last one when
there are more. -/
theorem pageLoop_eq {limit : Nat} (hlimit : 1 ≤ limit) (after : Option Prefix)
    (entries : List (Prefix × Dest)) (items : List Dest) (last : Option Prefix)
    (hroom : items.length ≤ limit) :
    pageLoop limit after entries items last =
      if (winnersBeyond after entries).length ≤ limit - items.length then
        (items ++ (winnersBeyond after entries).map Prod.snd, none)
      else
        (items ++ ((winnersBeyond after entries).take (limit - items.length)).map Prod.snd,
          (((winnersBeyond after entries).take (limit - items.length)).getLast?.map
            Prod.fst).or last) := by
  induction entries generalizing items last with
  | nil => simp [pageLoop, winnersBeyond]
  | cons e rest ih =>
    obtain ⟨p, dest⟩ := e
    rw [pageLoop]
    by_cases hbeyond : Beyond after p
    · rw [if_neg fun hskip => skipped_iff.mp hskip hbeyond]
      cases hbest : dest.best with
      | none =>
        have hsame : winnersBeyond after ((p, dest) :: rest) = winnersBeyond after rest := by
          rw [winnersBeyond, List.filter_cons_of_neg (by simp [hbest]), winnersBeyond]
        rw [hsame, Option.isNone_none, if_pos rfl]
        exact ih items last hroom
      | some best =>
        have hmore : winnersBeyond after ((p, dest) :: rest) =
            (p, dest) :: winnersBeyond after rest := by
          rw [winnersBeyond, List.filter_cons_of_pos (by simp [hbest, hbeyond]), winnersBeyond]
        rw [hmore, Option.isNone_some, if_neg Bool.false_ne_true, List.length_cons]
        by_cases hfull : limit ≤ items.length
        · have hnone : limit - items.length = 0 := by omega
          rw [if_pos ⟨by omega, hfull⟩, hnone, if_neg (by omega)]
          simp
        · obtain ⟨room, hroom'⟩ : ∃ room, limit - items.length = room + 1 :=
            ⟨limit - items.length - 1, by omega⟩
          have hrest : limit - (items ++ [dest]).length = room := by
            rw [List.length_append, List.length_singleton]
            omega
          have hfits : (items ++ [dest]).length ≤ limit := by
            rw [List.length_append, List.length_singleton]
            omega
          rw [if_neg fun hboth => hfull hboth.2, ih _ _ hfits, hrest, hroom']
          by_cases hall : (winnersBeyond after rest).length ≤ room
          · rw [if_pos hall, if_pos (by omega)]
            simp
          · rw [if_neg hall, if_neg (by omega), List.take_succ_cons, List.getLast?_cons]
            simp only [List.append_assoc, List.map_cons, Option.map_some]
            cases ((winnersBeyond after rest).take room).getLast? <;> simp
    · have hsame : winnersBeyond after ((p, dest) :: rest) = winnersBeyond after rest := by
        rw [winnersBeyond, List.filter_cons_of_neg (by simp [hbeyond]), winnersBeyond]
      rw [if_pos (skipped_iff.mpr hbeyond), hsame]
      exact ih items last hroom

/-- What a page shows: winners beyond where the client stands, in order, and all of them
up to where it says to go on. -/
structure Page (winner : Prefix → Option Route) (after : Option Prefix) (items : List Dest)
    (next : Option Prefix) : Prop where
  sorted : items.Pairwise fun a b => prefixRank a.pfx < prefixRank b.pfx
  shown : ∀ dest ∈ items, Beyond after dest.pfx ∧ (winner dest.pfx).isSome = true
  all : next = none → ∀ p, Beyond after p → (winner p).isSome = true → p ∈ items.map Dest.pfx
  upTo : ∀ q, next = some q → q ∈ items.map Dest.pfx ∧
    (∀ dest ∈ items, prefixRank dest.pfx ≤ prefixRank q) ∧
    ∀ p, Beyond after p → (winner p).isSome = true → prefixRank p ≤ prefixRank q →
      p ∈ items.map Dest.pfx

variable {g : GlobalRib} {offers : Offers} {key : Family}

theorem mem_winnersBeyond {t : RouteTable} (h : RouteTable.Wf t []) {after : Option Prefix}
    {p : Prefix} {dest : Dest} :
    (p, dest) ∈ winnersBeyond after t.items → dest.pfx = p ∧ Beyond after p ∧
      (t.bestAt p).isSome = true := by
  intro hin
  rw [winnersBeyond, List.mem_filter, Bool.and_eq_true, decide_eq_true_iff, mem_items] at hin
  obtain ⟨⟨d, hd, rfl⟩, hbeyond, hbest⟩ := hin
  rw [RouteTable.bestAt_of_filed hd]
  exact ⟨h.filed_pfx p d hd, hbeyond, hbest⟩

theorem winner_mem {t : RouteTable} {after : Option Prefix} {p : Prefix}
    (hbeyond : Beyond after p) (hbest : (t.bestAt p).isSome = true) :
    ∃ dest, (p, dest) ∈ winnersBeyond after t.items := by
  cases hd : t.trie.get? p with
  | none =>
    rw [RouteTable.bestAt_of_none hd] at hbest
    exact absurd hbest (by simp)
  | some d =>
    rw [RouteTable.bestAt_of_filed hd] at hbest
    refine ⟨t.cell d, ?_⟩
    rw [winnersBeyond, List.mem_filter, mem_items, Bool.and_eq_true, decide_eq_true_iff]
    exact ⟨⟨d, hd, rfl⟩, hbeyond, hbest⟩

theorem map_pfx_winners {t : RouteTable} (h : RouteTable.Wf t []) {after : Option Prefix}
    {entries : List (Prefix × Dest)} (hsub : entries ⊆ winnersBeyond after t.items) :
    (entries.map Prod.snd).map Dest.pfx = entries.map Prod.fst := by
  rw [List.map_map]
  apply List.map_congr_left
  intro e he
  exact (mem_winnersBeyond h (hsub he)).1

theorem asDict_page (key : Family) (h : Faithful g offers) {limit : Nat} (hlimit : 1 ≤ limit)
    (after : Option Prefix) :
    ∃ next, (g.asDict key.1 key.2 limit after).2 = next.map Prefix.toStr ∧
      Page (g.bestAt key) after (g.asDict key.1 key.2 limit after).1 next := by
  cases ht : g.tables.get? key with
  | none =>
    have hpage : g.asDict key.1 key.2 limit after = ([], none) := by simp only [asDict, ht]
    have hnone : ∀ p, g.bestAt key p = none := fun p => by rw [bestAt, ht]
    refine ⟨none, by rw [hpage]; rfl, ?_⟩
    rw [hpage]
    refine ⟨.nil, by simp, fun _ p _ hbest => ?_, by simp⟩
    rw [hnone] at hbest
    exact absurd hbest (by simp)
  | some t =>
    have hwf := (h.kept key t ht).wf
    have hwinner : g.bestAt key = t.bestAt := by
      funext p
      rw [bestAt, ht]
    have hloop := pageLoop_eq hlimit after t.items [] none (Nat.zero_le _)
    have hsorted : (winnersBeyond after t.items).Pairwise
        fun e e' => prefixRank e.1 < prefixRank e'.1 := (items_pairwise t).filter _
    have hpage : g.asDict key.1 key.2 limit after =
        ((pageLoop limit after t.items [] none).1,
          (pageLoop limit after t.items [] none).2.map Prefix.toStr) := by
      simp only [asDict, ht]
    have hview : ∀ entries : List (Prefix × Dest), entries.Sublist (winnersBeyond after t.items) →
        (entries.map Prod.snd).map Dest.pfx = entries.map Prod.fst ∧
        (entries.map Prod.snd).Pairwise (fun a b => prefixRank a.pfx < prefixRank b.pfx) ∧
        ∀ dest ∈ entries.map Prod.snd, Beyond after dest.pfx ∧
          (t.bestAt dest.pfx).isSome = true := by
      intro entries hsub
      have hpfx := map_pfx_winners hwf hsub.subset
      refine ⟨hpfx, ?_, ?_⟩
      · have hfst : (entries.map Prod.fst).Pairwise fun p q => prefixRank p < prefixRank q := by
          rw [List.pairwise_map]
          exact hsorted.sublist hsub
        rw [← hpfx, List.pairwise_map] at hfst
        exact hfst
      · intro dest hdest
        obtain ⟨⟨p, _⟩, he, rfl⟩ := List.mem_map.mp hdest
        obtain ⟨hpfx', hbeyond, hbest⟩ := mem_winnersBeyond hwf (hsub.subset he)
        rw [hpfx']
        exact ⟨hbeyond, hbest⟩
    rw [hpage, hwinner, hloop]
    simp only [List.length_nil, Nat.sub_zero, List.nil_append]
    by_cases hall : (winnersBeyond after t.items).length ≤ limit
    · rw [if_pos hall]
      obtain ⟨hpfx, hasc, hshown⟩ := hview _ (List.Sublist.refl _)
      refine ⟨none, rfl, hasc, hshown, fun _ p hbeyond hbest => ?_, by simp⟩
      obtain ⟨dest, hdest⟩ := winner_mem hbeyond hbest
      rw [hpfx]
      exact List.mem_map_of_mem hdest
    · rw [if_neg hall]
      obtain ⟨hpfx, hasc, hshown⟩ := hview _ (List.take_sublist limit _)
      have hne : (winnersBeyond after t.items).take limit ≠ [] := by
        intro hnil
        have hlen := congrArg List.length hnil
        rw [List.length_take, List.length_nil] at hlen
        omega
      obtain ⟨init, ⟨q, dest⟩, hlast⟩ := List.eq_nil_or_concat _ |>.resolve_left hne
      rw [List.concat_eq_append] at hlast
      have hnext : (((winnersBeyond after t.items).take limit).getLast?.map Prod.fst).or none =
          some q := by
        rw [hlast]
        simp
      rw [hnext]
      refine ⟨some q, rfl, hasc, hshown, by simp, ?_⟩
      intro q' hq'
      obtain rfl := Option.some.inj hq'
      have hsplit : winnersBeyond after t.items =
          init ++ (q, dest) :: (winnersBeyond after t.items).drop limit := by
        conv_lhs => rw [← List.take_append_drop limit (winnersBeyond after t.items), hlast]
        simp
      have hbefore := hsorted
      rw [hsplit, List.pairwise_append, List.pairwise_cons] at hbefore
      obtain ⟨-, ⟨hafter, -⟩, hinit⟩ := hbefore
      rw [hpfx, hlast]
      refine ⟨by simp, ?_, ?_⟩
      · intro d hd
        have hd' : d.pfx ∈ (init ++ [(q, dest)]).map Prod.fst := by
          rw [← hlast, ← hpfx, hlast]
          exact List.mem_map_of_mem hd
        rw [List.map_append, List.mem_append] at hd'
        rcases hd' with hd' | hd'
        · obtain ⟨e, he, heq⟩ := List.mem_map.mp hd'
          rw [← heq]
          exact le_of_lt (hinit e he (q, dest) List.mem_cons_self)
        · have heq : d.pfx = q := by simpa using hd'
          rw [heq]
      · intro p hbeyond hbest hle
        obtain ⟨dest', hdest'⟩ := winner_mem hbeyond hbest
        rw [hsplit, List.mem_append, List.mem_cons] at hdest'
        rcases hdest' with hin | heq | hin
        · exact List.mem_map_of_mem (List.mem_append_left _ hin)
        · rw [(Prod.mk.inj heq).1]
          simp
        · exact absurd (hafter _ hin) (not_lt.mpr hle)

/-- The winners at each request. -/
def Winners (ribs : Nat → GlobalRib) (key : Family) (i : Nat) (p : Prefix) : Prop :=
  ((ribs i).bestAt key p).isSome = true

theorem pageThrough_spec (key : Family) {ribs : Nat → GlobalRib} (hribs : ∀ i, Reached (ribs i))
    {limit : Nat} (hlimit : 1 ≤ limit) {fuel i : Nat} {after : Option Prefix} {items : List Dest}
    (h : pageThrough ribs key.1 key.2 limit fuel i after = some items) :
    items.Pairwise (fun a b => prefixRank a.pfx < prefixRank b.pfx) ∧
    (∀ dest ∈ items, Beyond after dest.pfx ∧ ∃ j, j < fuel ∧ Winners ribs key (i + j) dest.pfx) ∧
    ∀ p, Beyond after p → (∀ j < fuel, Winners ribs key (i + j) p) → p ∈ items.map Dest.pfx := by
  induction fuel generalizing i after items with
  | zero => exact absurd h (by simp [pageThrough])
  | succ fuel ih =>
    obtain ⟨keys, g₀, ops, hnew, hrun⟩ := hribs i
    have hfaithful := run_faithful (new_faithful hnew) ops
    rw [← hrun] at hfaithful
    obtain ⟨next, hnext, hpage⟩ := asDict_page key hfaithful hlimit after
    rw [pageThrough] at h
    generalize hanswer : (ribs i).asDict key.1 key.2 limit after = answer at h hnext hpage
    obtain ⟨page, text⟩ := answer
    dsimp only at hnext hpage
    subst hnext
    cases next with
    | none =>
      simp only [Option.map_none, Option.some.injEq] at h
      subst h
      refine ⟨hpage.sorted, ?_, ?_⟩
      · intro dest hdest
        obtain ⟨hbeyond, hbest⟩ := hpage.shown dest hdest
        exact ⟨hbeyond, 0, Nat.succ_pos fuel, hbest⟩
      · intro p hbeyond hbest
        exact hpage.all rfl p hbeyond (hbest 0 (Nat.succ_pos fuel))
    | some q =>
      simp only [Option.map_some, parsePrefix_toStr] at h
      obtain ⟨rest, hrest, rfl⟩ := Option.map_eq_some_iff.mp h
      obtain ⟨hasc, hshown, hall⟩ := ih hrest
      obtain ⟨hq, hle, hupTo⟩ := hpage.upTo q rfl
      obtain ⟨dest, hdest, hpfx⟩ := List.mem_map.mp hq
      have hqbeyond : Beyond after q := hpfx ▸ (hpage.shown dest hdest).1
      refine ⟨?_, ?_, ?_⟩
      · rw [List.pairwise_append]
        refine ⟨hpage.sorted, hasc, fun a ha b hb => ?_⟩
        exact lt_of_le_of_lt (hle a ha) ((hshown b hb).1 q rfl)
      · intro d hd
        rcases List.mem_append.mp hd with hd | hd
        · obtain ⟨hbeyond, hbest⟩ := hpage.shown d hd
          exact ⟨hbeyond, 0, Nat.succ_pos fuel, hbest⟩
        · obtain ⟨hbeyond, j, hj, hbest⟩ := hshown d hd
          refine ⟨fun a ha => (hqbeyond a ha).trans (hbeyond q rfl), j + 1, Nat.succ_lt_succ hj, ?_⟩
          rwa [Nat.add_comm j 1, ← Nat.add_assoc]
      · intro p hbeyond hbest
        rw [List.map_append, List.mem_append]
        by_cases hp : prefixRank p ≤ prefixRank q
        · exact Or.inl (hupTo p hbeyond (hbest 0 (Nat.succ_pos fuel)) hp)
        · apply Or.inr
          apply hall p
          · intro a ha
            rw [← Option.some.inj ha]
            exact not_le.mp hp
          · intro j hj
            have hnextBest := hbest (j + 1) (Nat.succ_lt_succ hj)
            rwa [Nat.add_comm j 1, ← Nat.add_assoc] at hnextBest

/-- How many winners of a table are still to come. -/
def toCome (g : GlobalRib) (key : Family) (after : Option Prefix) : Nat :=
  match g.tables.get? key with
  | none => 0
  | some table => (winnersBeyond after table.items).length

/-- Each page shows one of them at least. -/
theorem toCome_lt {after : Option Prefix} {items : List Dest}
    {q : Prefix} (hpage : Page (g.bestAt key) after items (some q)) :
    g.toCome key (some q) < g.toCome key after := by
  obtain ⟨hq, -⟩ := hpage.upTo q rfl
  obtain ⟨dest, hdest, hpfx⟩ := List.mem_map.mp hq
  have hshown := hpage.shown dest hdest
  rw [hpfx] at hshown
  obtain ⟨hbeyond, hbest⟩ := hshown
  cases ht : g.tables.get? key with
  | none =>
    rw [bestAt, ht] at hbest
    exact absurd hbest (by simp)
  | some t =>
    rw [bestAt, ht] at hbest
    obtain ⟨dest', hdest'⟩ := winner_mem hbeyond hbest
    have hfilter : winnersBeyond (some q) t.items =
        (winnersBeyond after t.items).filter fun e => decide (Beyond (some q) e.1) := by
      rw [winnersBeyond, winnersBeyond, List.filter_filter]
      apply List.filter_congr
      intro e _
      by_cases he : Beyond (some q) e.1
      · have hfar : Beyond after e.1 := fun a ha => (hbeyond a ha).trans (he q rfl)
        simp [he, hfar]
      · simp [he]
    simp only [toCome, ht]
    rw [hfilter]
    apply List.length_filter_lt_length_iff_exists.mpr
    refine ⟨_, hdest', ?_⟩
    simp [Beyond]

/-- Over a table that stays as it is, the pages come to an end. -/
theorem pageThrough_ends (key : Family) (hreached : Reached g) {limit : Nat} (hlimit : 1 ≤ limit)
    (fuel i : Nat) (after : Option Prefix) (hfuel : g.toCome key after < fuel) :
    ∃ items, pageThrough (fun _ => g) key.1 key.2 limit fuel i after = some items := by
  obtain ⟨keys, g₀, ops, hnew, hrun⟩ := hreached
  have hfaithful := run_faithful (new_faithful hnew) ops
  rw [← hrun] at hfaithful
  induction fuel generalizing i after with
  | zero => exact absurd hfuel (Nat.not_lt_zero _)
  | succ fuel ih =>
    obtain ⟨next, hnext, hpage⟩ := asDict_page key hfaithful hlimit after
    rw [pageThrough]
    generalize g.asDict key.1 key.2 limit after = answer at hnext hpage
    obtain ⟨page, text⟩ := answer
    dsimp only at hnext hpage
    subst hnext
    cases next with
    | none => exact ⟨page, rfl⟩
    | some q =>
      have hless := toCome_lt hpage
      obtain ⟨rest, hrest⟩ := ih (i + 1) (some q) (by omega)
      simp only [Option.map_some, parsePrefix_toStr, hrest]
      exact ⟨_, rfl⟩

/-- The pages over any tables are in strictly ascending order, and show every prefix that has a
winner throughout, once.  Over a table that stays as it is they end and show nothing else. -/
theorem pages_complete {ribs : Nat → GlobalRib} (hribs : ∀ i, Reached (ribs i))
    (afi safi : Nat) {limit : Nat} (hlimit : 1 ≤ limit) :
    (∀ g, (∀ i, ribs i = g) → ∃ fuel items,
      pageThrough ribs afi safi limit fuel 0 none = some items ∧
      ∀ p, p ∈ items.map Dest.pfx ↔ (g.bestAt (afi, safi) p).isSome = true) ∧
    ∀ fuel items, pageThrough ribs afi safi limit fuel 0 none = some items →
      (items.map Dest.pfx).Pairwise (fun p q => pfxCmp p q < 0) ∧
      ∀ p, (∀ i < fuel, ((ribs i).bestAt (afi, safi) p).isSome = true) →
        (items.map Dest.pfx).count p = 1 := by
  have hstart : ∀ p, Beyond none p := fun p a ha => absurd ha (by simp)
  constructor
  · intro g hsame
    have hconst : ribs = fun _ => g := funext hsame
    subst hconst
    obtain ⟨items, hitems⟩ := pageThrough_ends (afi, safi) (hribs 0) hlimit
      (g.toCome (afi, safi) none + 1) 0 none (Nat.lt_succ_self _)
    obtain ⟨-, hshown, hall⟩ := pageThrough_spec (afi, safi) hribs hlimit hitems
    refine ⟨_, items, hitems, fun p => ⟨?_, fun hp => hall p (hstart p) fun j _ => hp⟩⟩
    intro hp
    obtain ⟨dest, hdest, rfl⟩ := List.mem_map.mp hp
    obtain ⟨-, j, -, hbest⟩ := hshown dest hdest
    exact hbest
  · intro fuel items hitems
    obtain ⟨hasc, -, hall⟩ := pageThrough_spec (afi, safi) hribs hlimit hitems
    have hpairwise : (items.map Dest.pfx).Pairwise fun p q => pfxCmp p q < 0 := by
      rw [List.pairwise_map]
      exact hasc.imp fun hlt => pfxCmp_neg_iff.mpr hlt
    have hnodup : (items.map Dest.pfx).Nodup := by
      apply hpairwise.imp
      rintro p _ hlt rfl
      rw [pfxCmp_neg_iff] at hlt
      exact lt_irrefl _ hlt
    refine ⟨hpairwise, fun p hp => ?_⟩
    apply List.count_eq_one_of_mem hnodup
    apply hall p (hstart p)
    intro j hj
    rw [Winners, Nat.zero_add]
    exact hp j hj

/-- Two routes, in pages of one. -/
def pagedOps : List RibOp :=
  [.offer (sharedRoute 0 1) 1,
    .offer ⟨1, .ipv4 10 1 0 0 16, 1, 1, 0, [192, 0, 2, 1], 1, 0⟩ 1, .select 0]

theorem pages_complete_two :
    (∀ _i : Nat, Reached ((new [IPV4_UNICAST]).getD empty |>.run pagedOps)) ∧
    ∃ fuel items, pageThrough (fun _ => (new [IPV4_UNICAST]).getD empty |>.run pagedOps) 1 1 1
        fuel 0 none = some items ∧
      ∀ p, p ∈ items.map Dest.pfx ↔
        (((new [IPV4_UNICAST]).getD empty |>.run pagedOps).bestAt (1, 1) p).isSome = true := by
  have hreached : Reached ((new [IPV4_UNICAST]).getD empty |>.run pagedOps) :=
    ⟨[IPV4_UNICAST], _, pagedOps, rfl, rfl⟩
  have hribs : ∀ i : Nat, Reached ((fun _ => (new [IPV4_UNICAST]).getD empty |>.run pagedOps) i) :=
    fun _ => hreached
  exact ⟨fun _ => hreached, (pages_complete hribs 1 1 (Nat.le_refl 1)).1 _ fun _ => rfl⟩

end GlobalRib

end Rib

end Packets
