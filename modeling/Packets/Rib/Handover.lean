/-
Selection with a sink that may raise (`rib/globalrib.py`).

A call that raises ends its step: later destinations of the batch are not handed over, and
later tables not looked at.  `behind` records which were left so, until a call succeeds.
-/
import Packets.Rib.Publication

namespace Packets

namespace Rib

/-- A RIB whose calls list what the sink accepted, with how the sink takes the next calls:
`true` raises, and with none left it raises no more. -/
structure Handover where
  rib : GlobalRib
  raises : List Bool
  raised : Bool
  behind : List (Family × Prefix)

namespace Handover

/-- One call of the sink, for a destination. -/
def call (h : Handover) (place : Family × Prefix) (call : SinkCall) : Handover :=
  if h.raises.head? = some true then
    { h with raises := h.raises.tail, raised := true, behind := place :: h.behind }
  else
    { h with
      rib := { h.rib with calls := h.rib.calls ++ [(place.1, call)] }
      raises := h.raises.tail
      behind := h.behind.filter fun other => other ≠ place }

/-- The body of `_publish` for one destination whose winner changed; after a call that raised the
destination is left behind. -/
def publishDest (key : Family) (h : Handover) (dest : Dest) : Handover :=
  if h.raised then
    if dest.best = none ∧ h.rib.published.get? (key, dest.pfx) = none then h
    else { h with behind := (key, dest.pfx) :: h.behind }
  else
    match dest.best with
    | none =>
      match h.rib.published.get? (key, dest.pfx) with
      | none => h
      | some previous =>
        { h with rib := { h.rib with
            published := h.rib.published.erase (key, dest.pfx) } }.call (key, dest.pfx)
          (.withdraw previous)
    | some best =>
      { h with rib := { h.rib with
          published := h.rib.published.set (key, dest.pfx) best } }.call (key, dest.pfx)
        (.install best)

/-- The body of `select_step` for one table. -/
def selectTable (chunk : Int) (acc : Handover × Nat) (key : Family) : Handover × Nat :=
  if acc.1.raised then acc
  else
    match acc.1.rib.tables.get? key with
    | none => acc
    | some table =>
      if table.pending = 0 then acc
      else
        let selected := table.reselect chunk
        let h := { acc.1 with
          rib := { acc.1.rib with tables := acc.1.rib.tables.set key selected.1 } }
        ((selected.2.map selected.1.cell).foldl (publishDest key) h,
          acc.2 + (table.pending - selected.1.pending))

/-- `select_step`. -/
def selectStep (h : Handover) (chunk : Int) : Handover × Nat :=
  h.rib.tables.keys.foldl (selectTable chunk) (h, 0)

/-- The loop of `select`, which an exception ends. -/
def selectLoop (chunk : Int) : Nat → Handover → Handover
  | 0, h => h
  | fuel + 1, h =>
    if (h.selectStep chunk).1.raised ∨ (h.selectStep chunk).2 = 0 then (h.selectStep chunk).1
    else selectLoop chunk fuel (h.selectStep chunk).1

/-- `select`. -/
def select (h : Handover) (limit : Int) : Handover :=
  selectLoop (if limit > 0 then limit else 2 ^ 30) (h.rib.pending + 1) h

/-- One call of the RIB, with how the sink takes the calls made in it.  What it raises is
caught, and selection tried again by a later call. -/
def act (h : Handover) (op : RibOp) (raises : List Bool) : Handover :=
  let h := { h with raises, raised := false }
  match op with
  | .selectStep chunk => (h.selectStep chunk).1
  | .select limit => h.select limit
  | op => { h with rib := h.rib.step op }

def run (h : Handover) (ops : List (RibOp × List Bool)) : Handover :=
  ops.foldl (fun h op => h.act op.1 op.2) h

def new (afiSafi : List Family) : Option Handover :=
  (GlobalRib.new afiSafi).map fun rib => ⟨rib, [], false, []⟩

/-- What one accepted call makes of the routes held. -/
def hold (held : Family × Prefix → Option Route) :
    Family × SinkCall → Family × Prefix → Option Route
  | (key, .install route) => Function.update held (key, route.pfx) (some route)
  | (key, .withdraw route) => Function.update held (key, route.pfx) none

/-- The routes the sink has accepted and not withdrawn. -/
def held (h : Handover) : Family × Prefix → Option Route := h.rib.calls.foldl hold fun _ => none

/-- What is published is filed under its prefix, and the sink holds it unless the destination
was left behind. -/
structure Agrees (h : Handover) : Prop where
  filed : ∀ key p r, h.rib.published.get? (key, p) = some r → r.pfx = p
  held : ∀ place, place ∉ h.behind → h.held place = h.rib.published.get? place

/-- What one destination of a batch changes: what is published for it, unless it is left
behind, and nothing elsewhere. -/
structure Told (h h' : Handover) (place : Family × Prefix) (best : Option Route) : Prop where
  agrees : h'.Agrees
  tables : h'.rib.tables = h.rib.tables
  here : place ∉ h'.behind → h'.rib.published.get? place = best
  elsewhere : ∀ other, other ≠ place →
    h'.rib.published.get? other = h.rib.published.get? other ∧
      (other ∈ h'.behind ↔ other ∈ h.behind)

variable {h : Handover}

theorem held_call_raised {place : Family × Prefix} {c : SinkCall}
    (hraises : h.raises.head? = some true) :
    (h.call place c).held = h.held ∧ (h.call place c).behind = place :: h.behind ∧
      (h.call place c).rib = h.rib := by
  rw [call, if_pos hraises]
  exact ⟨rfl, rfl, rfl⟩

theorem held_call_accepted {place : Family × Prefix} {c : SinkCall}
    (hraises : h.raises.head? ≠ some true) :
    (h.call place c).held = hold h.held (place.1, c) ∧
      (h.call place c).behind = h.behind.filter (fun other => other ≠ place) ∧
      (h.call place c).rib.published = h.rib.published ∧
      (h.call place c).rib.tables = h.rib.tables := by
  rw [call, if_neg hraises]
  refine ⟨?_, rfl, rfl, rfl⟩
  rw [held, List.foldl_append, List.foldl_cons, List.foldl_nil, held]

/-- A call for a place, once what is published there has been put right. -/
theorem told_call {place : Family × Prefix} {published : Dict (Family × Prefix) Route}
    {c : SinkCall} {best : Option Route} (hagrees : h.Agrees)
    (hfiled : ∀ r, best = some r → r.pfx = place.2)
    (hpublished : ∀ other, published.get? other =
      if other = place then best else h.rib.published.get? other)
    (hhold : ∀ held : Family × Prefix → Option Route,
      hold held (place.1, c) = Function.update held place best) :
    h.Told (({ h with rib := { h.rib with published } } : Handover).call place c) place best := by
  generalize hstart : ({ h with rib := { h.rib with published } } : Handover) = start
  have hrib : start.rib.published = published ∧ start.rib.tables = h.rib.tables ∧
      start.behind = h.behind ∧ start.held = h.held ∧ start.raises = h.raises := by
    rw [← hstart]
    exact ⟨rfl, rfl, rfl, rfl, rfl⟩
  obtain ⟨hpub, htables, hbehind, hheld, -⟩ := hrib
  have hfiled' : ∀ key p r, published.get? (key, p) = some r → r.pfx = p := by
    intro key p r hget
    rw [hpublished] at hget
    split at hget
    · rename_i heq
      rw [hfiled r hget, ← heq]
    · exact hagrees.filed key p r hget
  by_cases hraises : start.raises.head? = some true
  · obtain ⟨hheld', hbehind', hrib'⟩ := @held_call_raised start place c hraises
    rw [hbehind] at hbehind'
    constructor
    · constructor
      · rw [hrib', hpub]
        exact hfiled'
      · intro other hother
        rw [hbehind', List.mem_cons, not_or] at hother
        rw [hheld', hheld, hrib', hpub, hpublished, if_neg hother.1]
        exact hagrees.held other hother.2
    · rw [hrib', htables]
    · intro hnot
      rw [hbehind'] at hnot
      exact absurd List.mem_cons_self hnot
    · intro other hne
      rw [hrib', hpub, hpublished, if_neg hne, hbehind', List.mem_cons]
      exact ⟨rfl, or_iff_right hne⟩
  · obtain ⟨hheld', hbehind', hpub', htables'⟩ :=
      @held_call_accepted start place c hraises
    rw [hbehind] at hbehind'
    have hmem : ∀ other, other ∈ (start.call place c).behind ↔
        other ∈ h.behind ∧ other ≠ place := by
      intro other
      rw [hbehind', List.mem_filter, decide_eq_true_iff]
    constructor
    · constructor
      · rw [hpub', hpub]
        exact hfiled'
      · intro other hother
        rw [hheld', hhold, hheld, hpub', hpub, hpublished]
        by_cases hplace : other = place
        · rw [if_pos hplace, hplace, Function.update_self]
        · rw [if_neg hplace, Function.update_of_ne hplace]
          exact hagrees.held other fun hin => hother ((hmem other).mpr ⟨hin, hplace⟩)
    · rw [htables', htables]
    · intro _
      rw [hpub', hpub, hpublished, if_pos rfl]
    · intro other hne
      rw [hpub', hpub, hpublished, if_neg hne, hmem]
      exact ⟨rfl, and_iff_left hne⟩

theorem publishDest_told {key : Family} {dest : Dest} (hagrees : h.Agrees)
    (hbest : ∀ r, dest.best = some r → r.pfx = dest.pfx) :
    h.Told (publishDest key h dest) (key, dest.pfx) dest.best := by
  rw [publishDest]
  split
  · split
    · rename_i hnone
      exact ⟨hagrees, rfl, fun _ => hnone.2.trans hnone.1.symm, fun _ _ => ⟨rfl, Iff.rfl⟩⟩
    constructor
    · constructor
      · exact hagrees.filed
      · intro other hother
        rw [List.mem_cons, not_or] at hother
        exact hagrees.held other hother.2
    · rfl
    · exact fun hnot => absurd List.mem_cons_self hnot
    · intro other hne
      rw [List.mem_cons]
      exact ⟨rfl, or_iff_right hne⟩
  · cases hwinner : dest.best with
    | none =>
      dsimp only
      cases hold : h.rib.published.get? (key, dest.pfx) with
      | none => exact ⟨hagrees, rfl, fun _ => hold, fun _ _ => ⟨rfl, Iff.rfl⟩⟩
      | some previous =>
        apply told_call hagrees
        · rintro _ ⟨⟩
        · intro other
          exact Dict.get?_erase _ _ _
        · intro held
          rw [Handover.hold, hagrees.filed key dest.pfx previous hold]
    | some best =>
      dsimp only
      have hpfx := hbest best hwinner
      apply told_call hagrees
      · rintro r hr
        cases hr
        exact hpfx
      · intro other
        exact Dict.get?_set _ _ _ _
      · intro held
        rw [Handover.hold, hpfx]

/-- A batch, in which each destination has the winner of its prefix. -/
theorem foldl_publishDest_told (key : Family) (best : Prefix → Option Route)
    (dests : List Dest) (hagrees : h.Agrees) (hdests : ∀ dest ∈ dests, dest.best = best dest.pfx)
    (hbest : ∀ p r, best p = some r → r.pfx = p) :
    (dests.foldl (publishDest key) h).Agrees ∧
      (dests.foldl (publishDest key) h).rib.tables = h.rib.tables ∧
      (∀ p ∈ dests.map Dest.pfx, (key, p) ∉ (dests.foldl (publishDest key) h).behind →
        (dests.foldl (publishDest key) h).rib.published.get? (key, p) = best p) ∧
      ∀ k p, ¬(k = key ∧ p ∈ dests.map Dest.pfx) →
        (dests.foldl (publishDest key) h).rib.published.get? (k, p) = h.rib.published.get? (k, p) ∧
          ((k, p) ∈ (dests.foldl (publishDest key) h).behind ↔ (k, p) ∈ h.behind) := by
  induction dests generalizing h with
  | nil => exact ⟨hagrees, rfl, by simp, fun _ _ _ => ⟨rfl, Iff.rfl⟩⟩
  | cons dest dests ih =>
    rw [List.forall_mem_cons] at hdests
    have hpfx : ∀ r, dest.best = some r → r.pfx = dest.pfx := by
      intro r hr
      exact hbest _ r (hdests.1 ▸ hr)
    have hstep : h.Told (publishDest key h dest) (key, dest.pfx) dest.best :=
      publishDest_told hagrees hpfx
    obtain ⟨hagrees', htables, hhere, helsewhere⟩ := ih hstep.agrees hdests.2
    rw [List.foldl_cons]
    refine ⟨hagrees', htables.trans hstep.tables, ?_, ?_⟩
    · intro p hp hnot
      by_cases hrest : p ∈ dests.map Dest.pfx
      · exact hhere p hrest hnot
      · rw [List.map_cons, List.mem_cons] at hp
        obtain rfl := hp.resolve_right hrest
        obtain ⟨hpublished, hbehind⟩ := helsewhere key dest.pfx fun hin => hrest hin.2
        rw [hpublished, hstep.here fun hin => hnot (hbehind.mpr hin), hdests.1]
    · intro k p hnot
      rw [List.map_cons, List.mem_cons] at hnot
      have hrest : ¬(k = key ∧ p ∈ dests.map Dest.pfx) := fun hin => hnot ⟨hin.1, Or.inr hin.2⟩
      have hne : (k, p) ≠ (key, dest.pfx) := by
        intro heq
        obtain ⟨hk, hp⟩ := Prod.mk.inj heq
        exact hnot ⟨hk, Or.inl hp⟩
      obtain ⟨hpublished, hbehind⟩ := helsewhere k p hrest
      obtain ⟨hpublished', hbehind'⟩ := hstep.elsewhere (k, p) hne
      exact ⟨hpublished.trans hpublished', hbehind.trans hbehind'⟩

/-- The tables hold the offers, and what they have selected is what is published, except
for destinations left behind. -/
structure Inv (h : Handover) (offers : GlobalRib.Offers) : Prop where
  agrees : h.Agrees
  /-- The tables are those of a RIB whose sink never raised. -/
  tables : ∃ g, GlobalRib.Faithful g offers ∧ g.tables = h.rib.tables
  selected : ∀ key p, (key, p) ∉ h.behind → h.rib.published.get? (key, p) = h.rib.bestAt key p

theorem bestAt_congr {g g' : GlobalRib} (h : g.tables = g'.tables) (key : Family)
    (p : Prefix) : g.bestAt key p = g'.bestAt key p := by
  rw [GlobalRib.bestAt, GlobalRib.bestAt, h]

theorem selectTable_inv {acc : Handover × Nat} {offers : GlobalRib.Offers} (h : acc.1.Inv offers)
    (chunk : Int) (key : Family) : (selectTable chunk acc key).1.Inv offers := by
  rw [selectTable]
  split
  · exact h
  · obtain ⟨g, hg, htables⟩ := h.tables
    have hfaithful := GlobalRib.selectTable_faithful hg chunk acc.2 key
    rw [GlobalRib.selectTable] at hfaithful
    dsimp only at hfaithful
    rw [htables] at hfaithful
    cases ht : acc.1.rib.tables.get? key with
    | none => exact h
    | some t =>
      rw [ht] at hfaithful
      dsimp only at hfaithful ⊢
      split
      · exact h
      · rename_i hpending
        rw [if_neg hpending] at hfaithful
        have hkept := hg.kept key t (htables ▸ ht)
        have hsel := RouteTable.reselect_selecting hkept.wf chunk
        have hdests : ∀ dest ∈ (t.reselect chunk).2.map (t.reselect chunk).1.cell,
            dest.best = (t.reselect chunk).1.bestAt dest.pfx := by
          intro dest hdest
          obtain ⟨d, hd, rfl⟩ := List.mem_map.mp hdest
          exact hsel.changed_best hd
        have hstart : ({ acc.1 with rib := { acc.1.rib with
            tables := acc.1.rib.tables.set key (t.reselect chunk).1 } } : Handover).Agrees :=
          ⟨h.agrees.filed, h.agrees.held⟩
        obtain ⟨hagrees, htables', hhere, helsewhere⟩ := foldl_publishDest_told key
          (t.reselect chunk).1.bestAt _ hstart hdests fun p r => hsel.wf.bestAt_pfx
        refine ⟨hagrees, ⟨_, hfaithful, ?_⟩, ?_⟩
        · rw [htables']
          rw [GlobalRib.tables_foldl_publishDest]
        · intro k p hnot
          rw [GlobalRib.bestAt, htables']
          dsimp only
          rw [Dict.get?_set]
          by_cases hk : k = key
          · subst hk
            rw [if_pos rfl]
            dsimp only
            by_cases hp : p ∈ ((t.reselect chunk).2.map (t.reselect chunk).1.cell).map Dest.pfx
            · exact hhere p hp hnot
            · obtain ⟨hpublished, hbehind⟩ := helsewhere k p fun hin => hp hin.2
              rw [hpublished]
              have hold := h.selected k p fun hin => hnot (hbehind.mpr hin)
              rw [GlobalRib.bestAt, ht] at hold
              rw [hold]
              apply (hsel.unchanged p _).symm
              intro d hd heq
              apply hp
              rw [← heq]
              exact List.mem_map_of_mem (List.mem_map_of_mem hd)
          · rw [if_neg hk]
            obtain ⟨hpublished, hbehind⟩ := helsewhere k p fun hin => hk hin.1
            rw [hpublished]
            exact h.selected k p fun hin => hnot (hbehind.mpr hin)

theorem foldl_selectTable_inv {offers : GlobalRib.Offers} (chunk : Int) (keys : List Family)
    {acc : Handover × Nat} (h : acc.1.Inv offers) :
    (keys.foldl (selectTable chunk) acc).1.Inv offers := by
  induction keys generalizing acc with
  | nil => exact h
  | cons key keys ih => exact ih (selectTable_inv h chunk key)

theorem selectLoop_inv {offers : GlobalRib.Offers} (chunk : Int) (fuel : Nat)
    (hinv : h.Inv offers) : (selectLoop chunk fuel h).Inv offers := by
  induction fuel generalizing h with
  | zero => exact hinv
  | succ fuel ih =>
    have hstep : (h.selectStep chunk).1.Inv offers :=
      @foldl_selectTable_inv offers chunk h.rib.tables.keys (h, 0) hinv
    rw [selectLoop]
    split
    · exact hstep
    · exact ih hstep

/-- A call that is no selection looks at the tables only, and changes nothing else. -/
theorem step_unpublished (g : GlobalRib) {op : RibOp} (hstep : ∀ chunk, op ≠ .selectStep chunk)
    (hselect : ∀ limit, op ≠ .select limit) (published : Dict (Family × Prefix) Route)
    (calls : List (Family × SinkCall)) :
    ({ g with published, calls } : GlobalRib).step op = { g.step op with published, calls } := by
  cases op with
  | ensureTable key =>
    rw [GlobalRib.step, GlobalRib.step, GlobalRib.ensureTable, GlobalRib.ensureTable]
    by_cases hknown : pfxAddrLen key.1 = 0
    · rw [if_pos hknown, if_pos hknown]
      rfl
    · rw [if_neg hknown, if_neg hknown]
      cases g.tables.get? key <;> rfl
  | offer route safi =>
    rw [GlobalRib.step, GlobalRib.step, GlobalRib.offer, GlobalRib.offer,
      GlobalRib.ensureTable, GlobalRib.ensureTable, if_neg route.pfx.known,
      if_neg route.pfx.known]
    cases g.tables.get? (route.pfx.afi, safi) with
    | none =>
      dsimp only
      cases (RouteTable.new route.pfx.afi safi).offer route <;> rfl
    | some t =>
      dsimp only
      cases t.offer route <;> rfl
  | retract pfx protocol source safi =>
    rw [GlobalRib.step, GlobalRib.step, GlobalRib.retract, GlobalRib.retract]
    dsimp only
    cases g.tables.get? (pfx.afi, safi) <;> rfl
  | retractAll protocol source => rfl
  | selectStep chunk => exact absurd rfl (hstep chunk)
  | select limit => exact absurd rfl (hselect limit)

theorem step_inv {offers : GlobalRib.Offers} {op : RibOp} (hinv : h.Inv offers)
    (hstep : ∀ chunk, op ≠ .selectStep chunk) (hselect : ∀ limit, op ≠ .select limit) :
    ({ h with rib := h.rib.step op } : Handover).Inv (stepOffers offers op) := by
  obtain ⟨g, hg, htables⟩ := hinv.tables
  have hg' := GlobalRib.step_faithful hg op
  have hrib : h.rib.step op =
      { g.step op with published := h.rib.published, calls := h.rib.calls } := by
    rw [← step_unpublished g hstep hselect, htables]
  have hsilent : (g.step op).published = g.published := by
    have hsame : g.step op = { g.step op with published := g.published, calls := g.calls } :=
      step_unpublished g hstep hselect g.published g.calls
    rw [hsame]
  constructor
  · constructor
    · rw [hrib]
      exact hinv.agrees.filed
    · intro place hplace
      have hheld := hinv.agrees.held place hplace
      rw [held] at hheld ⊢
      rw [hrib]
      exact hheld
  · exact ⟨g.step op, hg', by rw [hrib]⟩
  · intro key p hnot
    have hbest : (h.rib.step op).bestAt key p = (g.step op).bestAt key p :=
      bestAt_congr (by rw [hrib]) key p
    calc (h.rib.step op).published.get? (key, p) = h.rib.published.get? (key, p) := by rw [hrib]
      _ = h.rib.bestAt key p := hinv.selected key p hnot
      _ = g.bestAt key p := (bestAt_congr htables key p).symm
      _ = g.published.get? (key, p) := (hg.published key p).symm
      _ = (g.step op).published.get? (key, p) := by rw [hsilent]
      _ = (g.step op).bestAt key p := hg'.published key p
      _ = (h.rib.step op).bestAt key p := hbest.symm

theorem act_inv {offers : GlobalRib.Offers} (hinv : h.Inv offers) (op : RibOp)
    (raises : List Bool) : (h.act op raises).Inv (stepOffers offers op) := by
  have hready : ({ h with raises, raised := false } : Handover).Inv offers :=
    ⟨⟨hinv.agrees.filed, hinv.agrees.held⟩, hinv.tables, hinv.selected⟩
  cases op with
  | selectStep chunk => exact @foldl_selectTable_inv offers chunk h.rib.tables.keys (_, 0) hready
  | select limit => exact selectLoop_inv _ _ hready
  | ensureTable key => exact step_inv hready (by simp) (by simp)
  | offer route safi => exact step_inv hready (by simp) (by simp)
  | retract pfx protocol source safi => exact step_inv hready (by simp) (by simp)
  | retractAll protocol source => exact step_inv hready (by simp) (by simp)

theorem run_inv {offers : GlobalRib.Offers} (hinv : h.Inv offers) (ops : List (RibOp × List Bool)) :
    (h.run ops).Inv ((ops.map Prod.fst).foldl stepOffers offers) := by
  induction ops generalizing h offers with
  | nil => exact hinv
  | cons op ops ih => exact ih (act_inv hinv op.1 op.2)

theorem new_calls {keys : List Family} {g : GlobalRib} (hnew : GlobalRib.new keys = some g) :
    g.calls = [] ∧ g.published = Dict.empty := by
  have hfold : ∀ (keys : List Family) {g₀ g : GlobalRib},
      keys.foldlM (fun g key => (g.ensureTable key).map Prod.fst) g₀ = some g →
      g.calls = g₀.calls ∧ g.published = g₀.published := by
    intro keys
    induction keys with
    | nil =>
      intro g₀ g hg
      rw [← Option.some.inj hg]
      exact ⟨rfl, rfl⟩
    | cons key keys ih =>
      intro g₀ g hg
      rw [List.foldlM_cons] at hg
      obtain ⟨g₁, hfirst, hrest⟩ := Option.bind_eq_some_iff.mp hg
      have hkept : g₁.calls = g₀.calls ∧ g₁.published = g₀.published := by
        rw [GlobalRib.ensureTable] at hfirst
        split at hfirst
        · cases hfirst
        · cases ht : g₀.tables.get? key <;> rw [ht] at hfirst <;> cases hfirst <;>
            exact ⟨rfl, rfl⟩
      obtain ⟨hcalls, hpublished⟩ := ih hrest
      exact ⟨hcalls.trans hkept.1, hpublished.trans hkept.2⟩
  exact hfold keys hnew

theorem new_inv {keys : List Family} (hnew : new keys = some h) : h.Inv fun _ _ => [] := by
  obtain ⟨g, hg, rfl⟩ := Option.map_eq_some_iff.mp hnew
  have hfaithful := GlobalRib.new_faithful hg
  obtain ⟨hcalls, hpublished⟩ := new_calls hg
  have hnone : ∀ place, g.published.get? place = none := by
    intro place
    rw [hpublished]
    rfl
  refine ⟨⟨?_, ?_⟩, ⟨g, hfaithful, rfl⟩, fun key p _ => hfaithful.published key p⟩
  · intro key p r hr
    cases (hnone _).symm.trans hr
  · intro place _
    rw [held, hcalls, hnone]
    rfl

/-- No call raises, now or later. -/
def Calm (h : Handover) : Prop := h.raised = false ∧ h.raises = []

theorem publishDest_calm (hcalm : h.Calm) (key : Family) (dest : Dest) :
    (publishDest key h dest).Calm ∧
      (publishDest key h dest).rib = GlobalRib.publishDest key h.rib dest := by
  obtain ⟨hraised, hraises⟩ := hcalm
  have hcall : ∀ (g : GlobalRib) (place : Family × Prefix) (c : SinkCall),
      (({ h with rib := g } : Handover).call place c).Calm ∧
        (({ h with rib := g } : Handover).call place c).rib =
          { g with calls := g.calls ++ [(place.1, c)] } := by
    intro g place c
    rw [call, if_neg (by simp [hraises])]
    exact ⟨⟨hraised, by simp [hraises]⟩, rfl⟩
  rw [publishDest, if_neg (by simp [hraised]), GlobalRib.publishDest]
  cases dest.best with
  | none =>
    dsimp only
    cases h.rib.published.get? (key, dest.pfx) with
    | none => exact ⟨⟨hraised, hraises⟩, rfl⟩
    | some previous => exact hcall _ _ _
  | some best => exact hcall _ _ _

theorem foldl_publishDest_calm (hcalm : h.Calm) (key : Family) (dests : List Dest) :
    (dests.foldl (publishDest key) h).Calm ∧
      (dests.foldl (publishDest key) h).rib = dests.foldl (GlobalRib.publishDest key) h.rib := by
  induction dests generalizing h with
  | nil => exact ⟨hcalm, rfl⟩
  | cons dest dests ih =>
    obtain ⟨hstep, hrib⟩ := publishDest_calm hcalm key dest
    rw [List.foldl_cons, List.foldl_cons, ← hrib]
    exact ih hstep

theorem selectTable_calm {acc : Handover × Nat} (hcalm : acc.1.Calm) (chunk : Int) (key : Family) :
    (selectTable chunk acc key).1.Calm ∧
      ((selectTable chunk acc key).1.rib, (selectTable chunk acc key).2) =
        GlobalRib.selectTable chunk (acc.1.rib, acc.2) key := by
  rw [selectTable, if_neg (by simp [hcalm.1]), GlobalRib.selectTable]
  dsimp only
  cases acc.1.rib.tables.get? key with
  | none => exact ⟨hcalm, rfl⟩
  | some t =>
    dsimp only
    split
    · exact ⟨hcalm, rfl⟩
    · have hstart : ({ acc.1 with rib := { acc.1.rib with
          tables := acc.1.rib.tables.set key (t.reselect chunk).1 } } : Handover).Calm :=
        hcalm
      obtain ⟨hbatch, hrib⟩ := foldl_publishDest_calm hstart key
        ((t.reselect chunk).2.map (t.reselect chunk).1.cell)
      exact ⟨hbatch, by rw [hrib]⟩

theorem foldl_selectTable_calm (chunk : Int) (keys : List Family) {acc : Handover × Nat}
    (hcalm : acc.1.Calm) :
    (keys.foldl (selectTable chunk) acc).1.Calm ∧
      ((keys.foldl (selectTable chunk) acc).1.rib, (keys.foldl (selectTable chunk) acc).2) =
        keys.foldl (GlobalRib.selectTable chunk) (acc.1.rib, acc.2) := by
  induction keys generalizing acc with
  | nil => exact ⟨hcalm, rfl⟩
  | cons key keys ih =>
    obtain ⟨hstep, hrib⟩ := selectTable_calm hcalm chunk key
    rw [List.foldl_cons, List.foldl_cons, ← hrib]
    exact ih hstep

theorem selectLoop_calm (hcalm : h.Calm) (chunk : Int) (fuel : Nat) :
    (selectLoop chunk fuel h).rib = GlobalRib.selectLoop chunk fuel h.rib := by
  induction fuel generalizing h with
  | zero => rfl
  | succ fuel ih =>
    obtain ⟨hstep, hrib⟩ := @foldl_selectTable_calm chunk h.rib.tables.keys (h, 0) hcalm
    have hstep' : (h.selectStep chunk).1.Calm := hstep
    have hrib' : ((h.selectStep chunk).1.rib, (h.selectStep chunk).2) =
        h.rib.selectStep chunk := hrib
    rw [selectLoop, GlobalRib.selectLoop, ← hrib', hstep'.1]
    by_cases hidle : (h.selectStep chunk).2 = 0
    · rw [if_pos (Or.inr hidle), if_pos hidle]
    · rw [if_neg (by simp [hidle]), if_neg hidle]
      exact ih hstep'

theorem select_calm (limit : Int) :
    (h.act (.select limit) []).rib = h.rib.select limit ∧
      (h.act (.select limit) []).rib.pending = 0 := by
  have hcalm : ({ h with raises := [], raised := false } : Handover).Calm := ⟨rfl, rfl⟩
  have hrib : (h.act (.select limit) []).rib = h.rib.select limit := selectLoop_calm hcalm _ _
  exact ⟨hrib, by rw [hrib, GlobalRib.select_pending]⟩

/-- After a selection in which no call raised, the sink holds the best route of every
destination that was not left behind. -/
theorem handedOver {keys : List Family} (hnew : new keys = some h)
    (ops : List (RibOp × List Bool)) (limit : Int) :
    ((h.run ops).act (.select limit) []).rib.pending = 0 ∧
      ∀ key p, (key, p) ∉ ((h.run ops).act (.select limit) []).behind →
        (((h.run ops).act (.select limit) []).held (key, p) = none ↔
            offersAt (ops.map Prod.fst) key p = []) ∧
          ∀ r, ((h.run ops).act (.select limit) []).held (key, p) = some r ↔
            FirstMinimal (offersAt (ops.map Prod.fst) key p) r := by
  have hinv := act_inv (run_inv (new_inv hnew) ops) (.select limit) []
  have hpending := (@select_calm (h.run ops) limit).2
  refine ⟨hpending, fun key p hnot => ?_⟩
  obtain ⟨g, hg, htables⟩ := hinv.tables
  have hdrained : g.pending = 0 := by
    rw [GlobalRib.pending, htables]
    exact hpending
  have hheld : ((h.run ops).act (.select limit) []).held (key, p) =
      selectRoute (offersAt (ops.map Prod.fst) key p) := by
    rw [hinv.agrees.held _ hnot, hinv.selected key p hnot, ← bestAt_congr htables,
      ← hg.published, hg.bestAt_of_drained hdrained]
    rfl
  rw [hheld]
  exact ⟨selectRoute_eq_none_iff, fun r => selectRoute_eq_some_iff⟩

def raisedRun : List (RibOp × List Bool) :=
  [(.offer (GlobalRib.sharedRoute 0 2) 1, []), (.select 0, [true])]

/-- A better offer, whose call is accepted, makes up for a call that raised. -/
theorem handedOver_repaired :
    ((((new [IPV4_UNICAST]).getD ⟨.empty, [], false, []⟩).run
      (raisedRun ++ [(.offer (GlobalRib.sharedRoute 1 1) 1, [])])).act (.select 0) []).held
        ((1, 1), GlobalRib.sharedPfx) = some (GlobalRib.sharedRoute 1 1) := by
  have hnew : new [IPV4_UNICAST] = some ((new [IPV4_UNICAST]).getD ⟨.empty, [], false, []⟩) := rfl
  obtain ⟨-, hheld⟩ := handedOver hnew (raisedRun ++ [(.offer (GlobalRib.sharedRoute 1 1) 1, [])]) 0
  rw [(hheld (1, 1) GlobalRib.sharedPfx (by decide +kernel)).2]
  exact selectRoute_eq_some_iff.mp (by decide +kernel)

/-- Nothing is waiting any more, and the sink does not hold the only route offered. -/
theorem not_handedOver_raised :
    offersAt (raisedRun.map Prod.fst) (1, 1) GlobalRib.sharedPfx = [GlobalRib.sharedRoute 0 2] ∧
      ((((new [IPV4_UNICAST]).getD ⟨.empty, [], false, []⟩).run raisedRun).act
        (.select 0) []).rib.pending = 0 ∧
      ((((new [IPV4_UNICAST]).getD ⟨.empty, [], false, []⟩).run raisedRun).act
        (.select 0) []).held ((1, 1), GlobalRib.sharedPfx) = none := by
  decide +kernel

end Handover

end Rib

end Packets
