/-
Versions and events of the cross-protocol RIB (`rib/table.pyx`, `rib/globalrib.py`).

A change of winner is stamped with the next version of its table and announced on the bus.
An offer with the content of the one its source holds changes nothing at all.
-/
import Packets.Rib.Publication

namespace Packets

namespace Rib

/-- What `_publish` says on the bus about one destination. -/
inductive RibEvent where
  | best (key : Family) (pfx : Prefix) (route : Route) (previous : Option Route) (version : Nat)
  | withdraw (key : Family) (pfx : Prefix)

/-- The destination an event is about. -/
def RibEvent.place : RibEvent → Family × Prefix
  | .best key pfx _ _ _ | .withdraw key pfx => (key, pfx)

/-- The destination a call of the sink is about. -/
def callPlace : Family × SinkCall → Family × Prefix
  | (key, .install route) | (key, .withdraw route) => (key, route.pfx)

/-- The RIB with the versions of its tables, of their destinations and of the routes. -/
structure Announcer where
  rib : GlobalRib
  version : Family → Nat
  destVersion : Family → Nat → Nat
  routeVersion : Route → Nat
  events : List RibEvent

namespace Announcer

def new (afiSafi : List Family) : Option Announcer :=
  (GlobalRib.new afiSafi).map fun rib => ⟨rib, fun _ => 0, fun _ _ => 0, fun _ => 0, []⟩

/-- `offer`.  `none` is its `ValueError`. -/
def offer (a : Announcer) (route : Route) (safi : Nat) : Option Announcer :=
  (a.rib.offer route safi).map fun rib => { a with rib }

/-- The stamps of `reselect` for a destination whose winner changed. -/
def stamp (key : Family) (table : RouteTable) (a : Announcer) (d : Nat) : Announcer :=
  let version := a.version key + 1
  { a with
    version := Function.update a.version key version
    destVersion := Function.update a.destVersion key (Function.update (a.destVersion key) d version)
    routeVersion :=
      match (table.cell d).best with
      | none => a.routeVersion
      | some winner => Function.update a.routeVersion winner version }

/-- The body of `_publish`. -/
def announce (key : Family) (table : RouteTable) (a : Announcer) (d : Nat) : Announcer :=
  let dest := table.cell d
  { a with
    rib := GlobalRib.publishDest key a.rib dest
    events := a.events ++ [match dest.best with
      | none => .withdraw key dest.pfx
      | some best =>
        .best key dest.pfx best (a.rib.published.get? (key, dest.pfx)) (a.destVersion key d)] }

/-- The body of `select_step` for one table. -/
def selectTable (chunk : Int) (acc : Announcer × Nat) (key : Family) : Announcer × Nat :=
  match acc.1.rib.tables.get? key with
  | none => acc
  | some table =>
    if table.pending = 0 then acc
    else
      let (table', changed) := table.reselect chunk
      let a := changed.foldl (stamp key table') acc.1
      let a := { a with rib := { a.rib with tables := a.rib.tables.set key table' } }
      (changed.foldl (announce key table') a, acc.2 + (table.pending - table'.pending))

/-- `select_step`. -/
def selectStep (a : Announcer) (chunk : Int) : Announcer × Nat :=
  a.rib.tables.keys.foldl (selectTable chunk) (a, 0)

/-- The loop of `select`. -/
def selectLoop (chunk : Int) : Nat → Announcer → Announcer
  | 0, a => a
  | fuel + 1, a =>
    if (a.selectStep chunk).2 = 0 then (a.selectStep chunk).1
    else selectLoop chunk fuel (a.selectStep chunk).1

/-- `select`. -/
def select (a : Announcer) (limit : Int) : Announcer :=
  selectLoop (if limit > 0 then limit else 2 ^ 30) (a.rib.pending + 1) a

/-- One call.  One that raises changes nothing. -/
def step (a : Announcer) : RibOp → Announcer
  | .ensureTable key => { a with rib := a.rib.step (.ensureTable key) }
  | .offer route safi => (a.offer route safi).getD a
  | .retract pfx protocol source safi =>
    { a with rib := a.rib.step (.retract pfx protocol source safi) }
  | .retractAll protocol source => { a with rib := a.rib.step (.retractAll protocol source) }
  | .selectStep chunk => (a.selectStep chunk).1
  | .select limit => a.select limit

def run (a : Announcer) (ops : List RibOp) : Announcer := ops.foldl step a

theorem rib_foldl_stamp (key : Family) (table : RouteTable) (ds : List Nat) (a : Announcer) :
    (ds.foldl (stamp key table) a).rib = a.rib := by
  induction ds generalizing a with
  | nil => rfl
  | cons d ds ih => exact ih (stamp key table a d)

theorem rib_foldl_announce (key : Family) (table : RouteTable) (ds : List Nat)
    (a : Announcer) : (ds.foldl (announce key table) a).rib =
      (ds.map table.cell).foldl (GlobalRib.publishDest key) a.rib := by
  induction ds generalizing a with
  | nil => rfl
  | cons d ds ih => exact ih (announce key table a d)

theorem rib_selectTable (chunk : Int) (acc : Announcer × Nat) (key : Family) :
    ((selectTable chunk acc key).1.rib, (selectTable chunk acc key).2) =
      GlobalRib.selectTable chunk (acc.1.rib, acc.2) key := by
  rw [selectTable, GlobalRib.selectTable]
  dsimp only
  cases acc.1.rib.tables.get? key with
  | none => rfl
  | some table =>
    dsimp only
    split
    · rfl
    · rw [rib_foldl_announce, rib_foldl_stamp]

theorem rib_foldl_selectTable (chunk : Int) (keys : List Family) (acc : Announcer × Nat) :
    ((keys.foldl (selectTable chunk) acc).1.rib, (keys.foldl (selectTable chunk) acc).2) =
      keys.foldl (GlobalRib.selectTable chunk) (acc.1.rib, acc.2) := by
  induction keys generalizing acc with
  | nil => rfl
  | cons key keys ih => rw [List.foldl_cons, List.foldl_cons, ih, rib_selectTable]

theorem rib_selectStep (a : Announcer) (chunk : Int) :
    ((a.selectStep chunk).1.rib, (a.selectStep chunk).2) = a.rib.selectStep chunk :=
  rib_foldl_selectTable chunk a.rib.tables.keys (a, 0)

theorem rib_selectLoop (chunk : Int) (fuel : Nat) (a : Announcer) :
    (selectLoop chunk fuel a).rib = GlobalRib.selectLoop chunk fuel a.rib := by
  induction fuel generalizing a with
  | zero => rfl
  | succ fuel ih =>
    rw [selectLoop, GlobalRib.selectLoop, ← rib_selectStep]
    dsimp only
    split
    · rfl
    · exact ih _

theorem rib_step (a : Announcer) (op : RibOp) : (a.step op).rib = a.rib.step op := by
  cases op with
  | ensureTable key => rfl
  | offer route safi =>
    rw [step, offer, GlobalRib.step]
    cases a.rib.offer route safi <;> rfl
  | retract pfx protocol source safi => rfl
  | retractAll protocol source => rfl
  | selectStep chunk => exact (Prod.mk.inj (rib_selectStep a chunk)).1
  | select limit => exact rib_selectLoop _ _ a

theorem rib_run (a : Announcer) (ops : List RibOp) : (a.run ops).rib = a.rib.run ops := by
  induction ops generalizing a with
  | nil => rfl
  | cons op ops ih =>
    rw [run, GlobalRib.run, List.foldl_cons, List.foldl_cons, ← rib_step]
    exact ih (a.step op)

end Announcer

theorem isFrom_iff {r : Route} {protocol source : Nat} :
    r.isFrom protocol source = true ↔ r.protocol = protocol ∧ r.source = source := by
  simp [Route.isFrom]

/-- No two offers of a list are of one origin. -/
def OriginsDiffer (routes : List Route) : Prop := (routes.map fun r => (r.protocol, r.source)).Nodup

theorem replaceOffer_eq {r old : Route} {pre post : List Route}
    (hpre : ∀ x ∈ pre, x.isFrom r.protocol r.source = false)
    (hold : old.isFrom r.protocol r.source = true) :
    RouteTable.replaceOffer r (pre ++ old :: post) = pre ++ r :: post := by
  induction pre with
  | nil => rw [List.nil_append, RouteTable.replaceOffer, if_pos hold, List.nil_append]
  | cons x pre ih =>
    rw [List.forall_mem_cons] at hpre
    rw [List.cons_append, RouteTable.replaceOffer, if_neg (by simp [hpre.1]), ih hpre.2,
      List.cons_append]

/-- Where the offer of an origin stands among the others. -/
theorem OriginsDiffer.split {routes : List Route} (h : OriginsDiffer routes) {r old : Route}
    (hmem : old ∈ routes) (hold : old.isFrom r.protocol r.source = true) :
    ∃ pre post, routes = pre ++ old :: post ∧ (∀ x ∈ pre, x.isFrom r.protocol r.source = false) ∧
      routes.find? (fun x => x.isFrom r.protocol r.source) = some old := by
  obtain ⟨pre, post, rfl⟩ := List.append_of_mem hmem
  rw [OriginsDiffer, List.map_append, List.map_cons, List.nodup_append] at h
  have hpre : ∀ x ∈ pre, x.isFrom r.protocol r.source = false := by
    intro x hx
    by_contra hne
    rw [Bool.not_eq_false, isFrom_iff] at hne
    rw [isFrom_iff] at hold
    refine h.2.2 (x.protocol, x.source) (List.mem_map.mpr ⟨x, hx, rfl⟩)
      (old.protocol, old.source) List.mem_cons_self ?_
    rw [hne.1, hne.2, hold.1, hold.2]
  refine ⟨pre, post, rfl, hpre, ?_⟩
  rw [List.find?_append, List.find?_eq_none.mpr fun x hx => by simp [hpre x hx], Option.none_or]
  exact List.find?_cons_of_pos hold

theorem putOffer_originsDiffer {routes : List Route} (h : OriginsDiffer routes) (r : Route) :
    OriginsDiffer (RouteTable.putOffer r routes) := by
  rw [RouteTable.putOffer]
  cases hfind : routes.find? fun old => old.isFrom r.protocol r.source with
  | none =>
    dsimp only
    rw [OriginsDiffer, List.map_append, List.nodup_append]
    refine ⟨h, by simp, ?_⟩
    rintro _ hx _ hr rfl
    obtain ⟨x, hx, heq⟩ := List.mem_map.mp hx
    rw [List.map_singleton, List.mem_singleton] at hr
    have hnot := List.find?_eq_none.mp hfind x hx
    rw [hr] at heq
    exact hnot (isFrom_iff.mpr (Prod.mk.inj heq))
  | some old =>
    dsimp only
    split
    · exact h
    · have hold := List.find?_some hfind
      obtain ⟨pre, post, rfl, hpre, -⟩ := h.split (List.mem_of_find?_eq_some hfind) hold
      rw [replaceOffer_eq hpre hold]
      rw [isFrom_iff] at hold
      rw [OriginsDiffer, List.map_append, List.map_cons] at h ⊢
      rw [hold.1, hold.2] at h
      exact h

theorem dropOffer_originsDiffer {routes : List Route} (h : OriginsDiffer routes)
    (protocol source : Nat) : OriginsDiffer (RouteTable.dropOffer protocol source routes) :=
  h.sublist (List.eraseP_sublist.map _)

/-- In every run each source holds one offer for a prefix at most. -/
theorem offersAt_originsDiffer (ops : List RibOp) (key : Family) (p : Prefix) :
    OriginsDiffer (offersAt ops key p) := by
  have hfold : ∀ (ops : List RibOp) (offers : GlobalRib.Offers),
      (∀ k q, OriginsDiffer (offers k q)) → OriginsDiffer (ops.foldl stepOffers offers key p) := by
    intro ops
    induction ops with
    | nil => exact fun offers h => h key p
    | cons op ops ih =>
      intro offers h
      apply ih
      intro k q
      cases op with
      | offer route safi =>
        rw [stepOffers]
        dsimp only
        split
        · exact putOffer_originsDiffer (h k q) route
        · exact h k q
      | retract pfx protocol source safi =>
        rw [stepOffers]
        dsimp only
        split
        · exact dropOffer_originsDiffer (h k q) protocol source
        · exact h k q
      | retractAll protocol source => exact dropOffer_originsDiffer (h k q) protocol source
      | _ => exact h k q
  exact hfold ops (fun _ _ => []) fun _ _ => List.nodup_nil

theorem set_get? {K V : Type} [DecidableEq K] {d : Dict K V} {k : K} {v : V}
    (h : d.get? k = some v) : d.set k v = d := by
  have hset : ∀ l : List (K × V), Dict.getEntries k l = some v → Dict.setEntries k v l = l := by
    intro l
    induction l with
    | nil => exact nofun
    | cons e rest ih =>
      obtain ⟨k', v'⟩ := e
      intro hget
      rw [Dict.getEntries] at hget
      rw [Dict.setEntries]
      split at hget
      · rename_i hk
        cases hget
        rw [if_pos hk, hk]
      · rename_i hk
        rw [if_neg hk, ih hget]
  obtain ⟨entries, nodup⟩ := d
  simp only [Dict.set, Dict.mk.injEq]
  exact hset entries h

/-- An offer that is held already leaves the table as it is. -/
theorem RouteTable.offer_of_same {t : RouteTable} {r old : Route} (hafi : r.pfx.afi = t.afi)
    (hfind : (t.routesAt r.pfx).find? (fun x => x.isFrom r.protocol r.source) = some old)
    (hsame : sameContent old r = true) : t.offer r = some t := by
  rw [RouteTable.routesAt] at hfind
  cases hd : t.trie.get? r.pfx with
  | none =>
    rw [hd] at hfind
    cases hfind
  | some d =>
    rw [hd] at hfind
    dsimp only at hfind
    rw [RouteTable.offer, RouteTable.dest, if_neg (by simp [hafi]), hd]
    dsimp only
    rw [hfind]
    dsimp only
    rw [if_pos hsame]

/-- An offer that is held already leaves the whole RIB as it is. -/
theorem Announcer.offer_of_same {a : Announcer} {offers : GlobalRib.Offers}
    (h : GlobalRib.Faithful a.rib offers) {r old : Route} {safi : Nat}
    (hfind : (offers (r.pfx.afi, safi) r.pfx).find?
      (fun x => x.isFrom r.protocol r.source) = some old)
    (hsame : sameContent old r = true) : a.offer r safi = some a := by
  rw [← h.offered, GlobalRib.routesAt] at hfind
  cases ht : a.rib.tables.get? (r.pfx.afi, safi) with
  | none =>
    rw [ht] at hfind
    cases hfind
  | some t =>
    rw [ht] at hfind
    have hoffer := RouteTable.offer_of_same (h.kept _ t ht).afi.symm hfind hsame
    have hrib : a.rib.offer r safi = some a.rib := by
      rw [GlobalRib.offer, GlobalRib.ensureTable, if_neg r.pfx.known, ht]
      dsimp only
      rw [hoffer, Option.map_some, set_get? ht]
    rw [Announcer.offer, hrib, Option.map_some]

/-- What is known of a destination: its cell and its version, the events and the sink calls
about it. -/
def known (a : Announcer) (key : Family) (p : Prefix) (d : Nat) :
    Option Dest × Nat × List RibEvent × List (Family × SinkCall) :=
  ((a.rib.tables.get? key).map fun t => t.cell d, a.destVersion key d,
    a.events.filter fun e => e.place = (key, p),
    a.rib.calls.filter fun c => callPlace c = (key, p))

/-- A destination of a table that is not in its queue. -/
def Resting (a : Announcer) (key : Family) (p : Prefix) (d : Nat) : Prop :=
  ∃ t, a.rib.tables.get? key = some t ∧ t.trie.get? p = some d ∧ d ∉ t.queue

namespace RouteTable

/-- Selecting one destination leaves another as it is. -/
theorem reselectDest_other {t₀ : RouteTable} {acc : RouteTable × List Nat} {x : Nat}
    {rest : List Nat} (h : Selecting t₀ acc (x :: rest)) {p : Prefix} {d : Nat}
    (hd : acc.1.trie.get? p = some d) (hne : x ≠ d) :
    (reselectDest acc x).1.cell d = acc.1.cell d ∧ (reselectDest acc x).1.trie.get? p = some d ∧
      (d ∈ (reselectDest acc x).2 → d ∈ acc.2) := by
  have hfiled := h.wf.line_filed x List.mem_cons_self
  have hpfx : p ≠ (acc.1.cell x).pfx := by
    intro heq
    rw [← heq, hd, Option.some.injEq] at hfiled
    exact hne hfiled.symm
  simp only [reselectDest]
  refine ⟨?_, ?_, ?_⟩
  · split
    · exact if_neg hne.symm
    · exact if_neg hne.symm
  · split
    · exact (Dict.get?_erase _ _ _).trans ((if_neg hpfx).trans hd)
    · exact hd
  · split
    · intro hin
      rcases List.mem_append.mp hin with hin | hin
      · exact hin
      · exact absurd (List.mem_singleton.mp hin).symm hne
    · exact id

theorem foldl_reselectDest_other {t₀ : RouteTable} {acc : RouteTable × List Nat}
    {todo : List Nat} (h : Selecting t₀ acc todo) {p : Prefix} {d : Nat}
    (hd : acc.1.trie.get? p = some d) (hrest : d ∉ todo) :
    (todo.foldl reselectDest acc).1.cell d = acc.1.cell d ∧
      (todo.foldl reselectDest acc).1.trie.get? p = some d ∧
      (d ∈ (todo.foldl reselectDest acc).2 → d ∈ acc.2) := by
  induction todo generalizing acc with
  | nil => exact ⟨rfl, hd, id⟩
  | cons x rest ih =>
    rw [List.mem_cons, not_or] at hrest
    obtain ⟨hcell, hfiled, hmem⟩ := reselectDest_other h hd fun heq => hrest.1 heq.symm
    obtain ⟨hcell', hfiled', hmem'⟩ := ih (reselectDest_selecting h) hfiled hrest.2
    exact ⟨hcell'.trans hcell, hfiled', fun hin => hmem (hmem' hin)⟩

/-- A pass leaves a destination that is not in the queue as it is, and reports others. -/
theorem reselect_other {t : RouteTable} (h : Wf t []) {p : Prefix} {d : Nat}
    (hd : t.trie.get? p = some d) (hrest : d ∉ t.queue) (limit : Int) :
    (t.reselect limit).1.cell d = t.cell d ∧ (t.reselect limit).1.trie.get? p = some d ∧
      d ∉ (t.reselect limit).1.queue ∧ d ∉ (t.reselect limit).2 ∧
      ∀ x ∈ (t.reselect limit).2, ((t.reselect limit).1.cell x).pfx ≠ p := by
  have hsel := reselect_selecting h limit
  obtain ⟨hcell, hfiled, hmem⟩ := foldl_reselectDest_other (selecting_take h
    (if limit ≤ 0 then t.queue.length else min limit.toNat t.queue.length)) hd
    fun hin => hrest (List.mem_of_mem_take hin)
  change (t.reselect limit).1.cell d = t.cell d at hcell
  change (t.reselect limit).1.trie.get? p = some d at hfiled
  change d ∈ (t.reselect limit).2 → d ∈ [] at hmem
  have hsettled : (t.cell d).queued = false := by
    by_contra hq
    exact hrest ((h.line_queued p d hd).mp (by simpa using hq))
  have hqueue : d ∉ (t.reselect limit).1.queue := by
    intro hin
    have hq := (hsel.wf.line_queued p d hfiled).mpr hin
    rw [hcell, hsettled] at hq
    cases hq
  have hnot : d ∉ (t.reselect limit).2 := fun hin => absurd (hmem hin) List.not_mem_nil
  refine ⟨hcell, hfiled, hqueue, hnot, fun x hx heq => ?_⟩
  rcases hsel.changed_filed x hx with hx' | ⟨hnone, -⟩
  · rw [heq, hfiled, Option.some.injEq] at hx'
    exact hnot (hx' ▸ hx)
  · rw [heq, hfiled] at hnone
    cases hnone

end RouteTable

namespace Announcer

theorem foldl_stamp_other (key : Family) (table : RouteTable) {ds : List Nat} {k : Family}
    {d : Nat} (hd : k = key → d ∉ ds) (a : Announcer) :
    (ds.foldl (stamp key table) a).destVersion k d = a.destVersion k d ∧
      (ds.foldl (stamp key table) a).events = a.events := by
  induction ds generalizing a with
  | nil => exact ⟨rfl, rfl⟩
  | cons x ds ih =>
    have hrest : k = key → d ∉ ds := fun hk hin => hd hk (List.mem_cons_of_mem x hin)
    obtain ⟨hversion, hevents⟩ := ih hrest (stamp key table a x)
    refine ⟨hversion.trans ?_, hevents⟩
    rw [stamp]
    dsimp only
    by_cases hk : k = key
    · have hne : d ≠ x := fun heq => hd hk (heq ▸ List.mem_cons_self)
      rw [hk, Function.update_self, Function.update_of_ne hne]
    · rw [Function.update_of_ne hk]

/-- What is announced of one place is silence about another. -/
theorem announce_other {key : Family} {table : RouteTable} {x : Nat} {place : Family × Prefix}
    (hplace : (key, (table.cell x).pfx) ≠ place)
    (hbest : ∀ r, (table.cell x).best = some r → r.pfx = (table.cell x).pfx) {a : Announcer}
    (hold : ∀ q r, a.rib.published.get? (key, q) = some r → r.pfx = q) :
    (announce key table a x).events.filter (fun e => e.place = place) =
        a.events.filter (fun e => e.place = place) ∧
      (announce key table a x).rib.calls.filter (fun c => callPlace c = place) =
        a.rib.calls.filter fun c => callPlace c = place := by
  constructor
  · rw [announce]
    dsimp only
    rw [List.filter_append]
    cases (table.cell x).best with
    | none => simp [RibEvent.place, hplace]
    | some r => simp [RibEvent.place, hplace]
  · rw [announce]
    dsimp only
    rw [GlobalRib.publishDest]
    cases hwinner : (table.cell x).best with
    | none =>
      dsimp only
      cases hprev : a.rib.published.get? (key, (table.cell x).pfx) with
      | none => rfl
      | some r =>
        have hpfx := hold _ r hprev
        simp [List.filter_append, callPlace, hpfx, hplace]
    | some r =>
      have hpfx := hbest r hwinner
      simp [List.filter_append, callPlace, hpfx, hplace]

theorem foldl_announce_other {key : Family} {table : RouteTable} {ds : List Nat}
    {place : Family × Prefix} (hplace : ∀ x ∈ ds, (key, (table.cell x).pfx) ≠ place)
    (hbest : ∀ x ∈ ds, ∀ r, (table.cell x).best = some r → r.pfx = (table.cell x).pfx)
    {a : Announcer} (hold : ∀ q r, a.rib.published.get? (key, q) = some r → r.pfx = q) :
    (ds.foldl (announce key table) a).events.filter (fun e => e.place = place) =
        a.events.filter (fun e => e.place = place) ∧
      (ds.foldl (announce key table) a).rib.calls.filter (fun c => callPlace c = place) =
        a.rib.calls.filter (fun c => callPlace c = place) ∧
      (ds.foldl (announce key table) a).destVersion = a.destVersion ∧
      (ds.foldl (announce key table) a).rib.tables = a.rib.tables := by
  induction ds generalizing a with
  | nil => exact ⟨rfl, rfl, rfl, rfl⟩
  | cons x ds ih =>
    rw [List.forall_mem_cons] at hplace hbest
    have hnext : ∀ q r, (announce key table a x).rib.published.get? (key, q) = some r →
        r.pfx = q := by
      intro q r hget
      change (GlobalRib.publishDest key a.rib (table.cell x)).published.get? (key, q) =
        some r at hget
      rw [GlobalRib.published_publishDest] at hget
      split at hget
      · rename_i heq
        rw [(Prod.mk.inj heq).2]
        exact hbest.1 r hget
      · exact hold q r hget
    obtain ⟨hevents, hcalls⟩ := announce_other hplace.1 hbest.1 hold
    obtain ⟨hevents', hcalls', hversion, htables⟩ := ih hplace.2 hbest.2 hnext
    exact ⟨hevents'.trans hevents, hcalls'.trans hcalls, hversion,
      htables.trans (GlobalRib.tables_publishDest key a.rib _)⟩

/-- Selecting in a table leaves a resting destination as it is, and says nothing of it. -/
theorem selectTable_resting {acc : Announcer × Nat} {offers : GlobalRib.Offers}
    (h : GlobalRib.Faithful acc.1.rib offers) {k : Family} {p : Prefix} {d : Nat}
    (hrest : Resting acc.1 k p d) (chunk : Int) (key : Family) :
    Resting (selectTable chunk acc key).1 k p d ∧
      known (selectTable chunk acc key).1 k p d = known acc.1 k p d := by
  obtain ⟨t, ht, hd, hqueue⟩ := hrest
  rw [selectTable]
  dsimp only
  cases htable : acc.1.rib.tables.get? key with
  | none => exact ⟨⟨t, ht, hd, hqueue⟩, rfl⟩
  | some table =>
    dsimp only
    split
    · exact ⟨⟨t, ht, hd, hqueue⟩, rfl⟩
    have hkept := h.kept key table htable
    have hsel := RouteTable.reselect_selecting hkept.wf chunk
    have hbest : ∀ x ∈ (table.reselect chunk).2, ∀ r,
        ((table.reselect chunk).1.cell x).best = some r →
          r.pfx = ((table.reselect chunk).1.cell x).pfx := by
      intro x hx r hr
      rw [hsel.changed_best hx] at hr
      exact hsel.wf.bestAt_pfx hr
    have hother : (k = key → d ∉ (table.reselect chunk).2) ∧
        ∀ x ∈ (table.reselect chunk).2, (key, ((table.reselect chunk).1.cell x).pfx) ≠ (k, p) := by
      by_cases hk : k = key
      · subst hk
        rw [ht, Option.some.injEq] at htable
        subst htable
        obtain ⟨-, -, -, hnot, hpfx⟩ := RouteTable.reselect_other hkept.wf hd hqueue chunk
        exact ⟨fun _ => hnot, fun x hx heq => hpfx x hx (Prod.mk.inj heq).2⟩
      · exact ⟨fun heq => absurd heq hk, fun x _ heq => hk (Prod.mk.inj heq).1.symm⟩
    obtain ⟨hversion, hevents⟩ := foldl_stamp_other key (table.reselect chunk).1 hother.1 acc.1
    have hrib := rib_foldl_stamp key (table.reselect chunk).1 (table.reselect chunk).2 acc.1
    generalize hstamped : (table.reselect chunk).2.foldl (stamp key (table.reselect chunk).1)
      acc.1 = stamped at hversion hevents hrib
    obtain ⟨hevents', hcalls, hversion', htables⟩ := @foldl_announce_other key
      (table.reselect chunk).1 (table.reselect chunk).2 (k, p) hother.2 hbest
      { stamped with
        rib := { stamped.rib with
          tables := stamped.rib.tables.set key (table.reselect chunk).1 } }
      (by rw [hrib]; exact fun q r => h.bestAt_pfx)
    have hget : ∀ {b : Announcer}, b.rib.tables =
        stamped.rib.tables.set key (table.reselect chunk).1 →
        ∃ t', b.rib.tables.get? k = some t' ∧ t'.cell d = t.cell d ∧
          t'.trie.get? p = some d ∧ d ∉ t'.queue := by
      intro b hb
      rw [hb, Dict.get?_set, hrib]
      by_cases hk : k = key
      · subst hk
        rw [ht, Option.some.injEq] at htable
        subst htable
        obtain ⟨hcell, hfiled, hnot, -⟩ := RouteTable.reselect_other hkept.wf hd hqueue chunk
        exact ⟨_, if_pos rfl, hcell, hfiled, hnot⟩
      · rw [if_neg hk]
        exact ⟨t, ht, rfl, hd, hqueue⟩
    obtain ⟨t', ht', hcell, hfiled, hnot⟩ := hget htables
    refine ⟨⟨t', ht', hfiled, hnot⟩, ?_⟩
    rw [known, known, ht', ht, Option.map_some, Option.map_some, hcell, hversion', hevents', hcalls]
    dsimp only
    rw [hversion, hevents, hrib]

theorem foldl_selectTable_resting {acc : Announcer × Nat} {offers : GlobalRib.Offers}
    (h : GlobalRib.Faithful acc.1.rib offers) {k : Family} {p : Prefix} {d : Nat}
    (hrest : Resting acc.1 k p d) (chunk : Int) (keys : List Family) :
    Resting (keys.foldl (selectTable chunk) acc).1 k p d ∧
      known (keys.foldl (selectTable chunk) acc).1 k p d = known acc.1 k p d := by
  induction keys generalizing acc with
  | nil => exact ⟨hrest, rfl⟩
  | cons key keys ih =>
    obtain ⟨hrest', hknown⟩ := selectTable_resting h hrest chunk key
    have hfaithful := GlobalRib.selectTable_faithful h chunk acc.2 key
    rw [← rib_selectTable] at hfaithful
    obtain ⟨hrest'', hknown'⟩ := ih hfaithful hrest'
    exact ⟨hrest'', hknown'.trans hknown⟩

theorem selectLoop_resting {a : Announcer} {offers : GlobalRib.Offers}
    (h : GlobalRib.Faithful a.rib offers) {k : Family} {p : Prefix} {d : Nat}
    (hrest : Resting a k p d) (chunk : Int) (fuel : Nat) :
    known (selectLoop chunk fuel a) k p d = known a k p d := by
  induction fuel generalizing a with
  | zero => rfl
  | succ fuel ih =>
    obtain ⟨hrest', hknown⟩ := @foldl_selectTable_resting (a, 0) offers h k p d hrest chunk
      a.rib.tables.keys
    have hfaithful := GlobalRib.selectStep_faithful h chunk
    rw [← rib_selectStep] at hfaithful
    rw [selectLoop]
    split
    · exact hknown
    · exact (ih hfaithful hrest').trans hknown

/-- The offer makes no difference: every later call goes as without it, and a destination
nothing is waiting for is after a selection what it was. -/
structure Unnoticed (a : Announcer) (r : Route) (safi : Nat) : Prop where
  later : ∀ ops, (a.step (.offer r safi)).run ops = a.run ops
  resting : ∀ d limit, Resting a (r.pfx.afi, safi) r.pfx d →
    known ((a.step (.offer r safi)).select limit) (r.pfx.afi, safi) r.pfx d =
      known a (r.pfx.afi, safi) r.pfx d

/-- The offer takes the place of one route, and waits for selection. -/
structure Replaces (a : Announcer) (r old : Route) (safi : Nat) : Prop where
  place : ∃ pre post, a.rib.routesAt (r.pfx.afi, safi) r.pfx = pre ++ old :: post ∧
    (a.step (.offer r safi)).rib.routesAt (r.pfx.afi, safi) r.pfx = pre ++ r :: post
  others : ∀ k q, (k, q) ≠ ((r.pfx.afi, safi), r.pfx) →
    (a.step (.offer r safi)).rib.routesAt k q = a.rib.routesAt k q
  best : ∀ k q, (a.step (.offer r safi)).rib.bestAt k q = a.rib.bestAt k q
  silent : (a.step (.offer r safi)).events = a.events ∧
    (a.step (.offer r safi)).rib.calls = a.rib.calls
  selected : ∀ limit, ((a.step (.offer r safi)).select limit).rib.bestAt (r.pfx.afi, safi)
      r.pfx = selectRoute ((a.step (.offer r safi)).rib.routesAt (r.pfx.afi, safi) r.pfx)

theorem rib_offer_silent {g g' : GlobalRib} {r : Route} {safi : Nat}
    (h : g.offer r safi = some g') : g'.calls = g.calls ∧ g'.published = g.published := by
  rw [GlobalRib.offer, GlobalRib.ensureTable, if_neg r.pfx.known] at h
  cases ht : g.tables.get? (r.pfx.afi, safi) with
  | none =>
    rw [ht] at h
    obtain ⟨t, -, rfl⟩ := Option.map_eq_some_iff.mp h
    exact ⟨rfl, rfl⟩
  | some t =>
    rw [ht] at h
    obtain ⟨t', -, rfl⟩ := Option.map_eq_some_iff.mp h
    exact ⟨rfl, rfl⟩

variable {a : Announcer} {offers : GlobalRib.Offers} {r old : Route} {safi : Nat}

theorem unnoticed_of_same (h : GlobalRib.Faithful a.rib offers)
    (hfind : (offers (r.pfx.afi, safi) r.pfx).find?
      (fun x => x.isFrom r.protocol r.source) = some old)
    (hsame : sameContent old r = true) : a.Unnoticed r safi := by
  have hstep : a.step (.offer r safi) = a := by
    rw [step, offer_of_same h hfind hsame, Option.getD_some]
  constructor
  · intro ops
    rw [hstep]
  · intro d limit hrest
    rw [hstep]
    exact selectLoop_resting h hrest _ _

theorem replaces_of_other (h : GlobalRib.Faithful a.rib offers)
    (hdiffer : OriginsDiffer (offers (r.pfx.afi, safi) r.pfx))
    (hmem : old ∈ offers (r.pfx.afi, safi) r.pfx) (hold : old.isFrom r.protocol r.source = true)
    (hother : sameContent old r = false) : a.Replaces r old safi := by
  obtain ⟨pre, post, hsplit, hpre, hfind⟩ := hdiffer.split hmem hold
  obtain ⟨g, hoffer, hg⟩ := GlobalRib.offer_faithful h r safi
  have hstep : a.step (.offer r safi) = { a with rib := g } := by
    rw [step, offer, hoffer, Option.map_some, Option.getD_some]
  have hput : RouteTable.putOffer r (offers (r.pfx.afi, safi) r.pfx) = pre ++ r :: post := by
    rw [RouteTable.putOffer, hfind]
    dsimp only
    rw [if_neg (by simp [hother]), hsplit, replaceOffer_eq hpre hold]
  obtain ⟨hcalls, hpublished⟩ := rib_offer_silent hoffer
  have hroutes : g.routesAt (r.pfx.afi, safi) r.pfx = pre ++ r :: post := by
    rw [hg.offered, if_pos ⟨rfl, rfl⟩, hput]
  constructor
  · exact ⟨pre, post, (h.offered _ _).trans hsplit, by rw [hstep]; exact hroutes⟩
  · intro k q hne
    rw [hstep]
    dsimp only
    rw [hg.offered, h.offered, if_neg]
    rintro ⟨rfl, rfl⟩
    exact hne rfl
  · intro k q
    rw [hstep]
    dsimp only
    rw [← hg.published, ← h.published, hpublished]
  · rw [hstep]
    exact ⟨rfl, hcalls⟩
  · intro limit
    rw [hstep, select, rib_selectLoop]
    dsimp only
    have hselected := GlobalRib.selectLoop_faithful (if limit > 0 then limit else 2 ^ 30)
      (g.pending + 1) hg
    rw [← hselected.published, hselected.bestAt_of_drained (GlobalRib.select_pending g limit),
      hg.offered]

theorem new_faithful {keys : List Family} (h : new keys = some a) :
    GlobalRib.Faithful a.rib fun _ _ => [] := by
  obtain ⟨rib, hrib, rfl⟩ := Option.map_eq_some_iff.mp h
  exact GlobalRib.new_faithful hrib

/-- In every state a RIB can reach, offering what is offered makes no difference, and an
offer with other content replaces the one of its source and nothing else. -/
theorem reoffer {keys : List Family} (h : new keys = some a) (ops : List RibOp)
    (hmem : old ∈ (a.run ops).rib.routesAt (r.pfx.afi, safi) r.pfx)
    (hold : old.isFrom r.protocol r.source = true) :
    (sameContent old r = true → (a.run ops).Unnoticed r safi) ∧
      (sameContent old r = false → (a.run ops).Replaces r old safi) := by
  have hrun := GlobalRib.run_faithful (new_faithful h) ops
  rw [← rib_run] at hrun
  rw [hrun.offered] at hmem
  have hdiffer := offersAt_originsDiffer ops (r.pfx.afi, safi) r.pfx
  obtain ⟨-, -, -, -, hfind⟩ := hdiffer.split hmem hold
  exact ⟨unnoticed_of_same hrun hfind, replaces_of_other hrun hdiffer hmem hold⟩

/-- A route is offered, selected and offered again with a later receive time. -/
theorem reoffer_shared :
    (((new [IPV4_UNICAST]).getD ⟨.empty, fun _ => 0, fun _ _ => 0, fun _ => 0, []⟩).run
      [.offer (GlobalRib.sharedRoute 0 1) 1, .select 0]).Unnoticed
        { GlobalRib.sharedRoute 1 1 with recvTime := 9 } 1 := by
  have hnew : new [IPV4_UNICAST] =
      some ((new [IPV4_UNICAST]).getD ⟨.empty, fun _ => 0, fun _ _ => 0, fun _ => 0, []⟩) := rfl
  exact (@reoffer _ { GlobalRib.sharedRoute 1 1 with recvTime := 9 }
    (GlobalRib.sharedRoute 0 1) 1 _ hnew
    [.offer (GlobalRib.sharedRoute 0 1) 1, .select 0] (by decide +kernel) (by decide)).1
    (by decide)

end Announcer

end Rib

end Packets
