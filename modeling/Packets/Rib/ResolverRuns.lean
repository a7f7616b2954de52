/-
Next-hop resolution over runs: every table stays well formed and every winner has a next hop
`Route` takes, so a lookup never fails and resolution always ends.
-/
import Mathlib.Data.List.TakeWhile
import Packets.Rib.Resolution

namespace Packets

namespace Rib

namespace RouteTable

theorem mem_replaceOffer {r q : Route} {routes : List Route} (hq : q ∈ replaceOffer r routes) :
    q ∈ routes ∨ q = r := by
  induction routes with
  | nil => exact Or.inl hq
  | cons old rest ih =>
    rw [replaceOffer] at hq
    split at hq
    · rcases List.mem_cons.mp hq with rfl | hq
      · exact Or.inr rfl
      · exact Or.inl (List.mem_cons_of_mem _ hq)
    · rcases List.mem_cons.mp hq with rfl | hq
      · exact Or.inl List.mem_cons_self
      · rcases ih hq with hq | hq
        · exact Or.inl (List.mem_cons_of_mem _ hq)
        · exact Or.inr hq

theorem mem_putOffer {r q : Route} {routes : List Route} (hq : q ∈ putOffer r routes) :
    q ∈ routes ∨ q = r := by
  rw [putOffer] at hq
  split at hq
  · split at hq
    · exact Or.inl hq
    · exact mem_replaceOffer hq
  · rcases List.mem_append.mp hq with hq | hq
    · exact Or.inl hq
    · exact Or.inr (List.mem_singleton.mp hq)

/-- A winner is one of the routes, or has not been selected again. -/
theorem bestAt_reselect {t : RouteTable} (h : Wf t []) (limit : Int) {p : Prefix} {r : Route}
    (hr : (t.reselect limit).1.bestAt p = some r) : r ∈ t.routesAt p ∨ t.bestAt p = some r := by
  have hsel := reselect_selecting h limit
  generalize t.reselect limit = acc at hr hsel
  by_cases hchanged : ∀ d ∈ acc.2, (acc.1.cell d).pfx ≠ p
  · right
    rwa [← hsel.unchanged p hchanged]
  · left
    push Not at hchanged
    obtain ⟨d, hd, rfl⟩ := hchanged
    rcases hsel.changed_filed d hd with hfiled | ⟨hnone, -⟩
    · have hsettled := hsel.wf.settled _ d hfiled (hsel.changed_idle d hd)
      rw [bestAt_of_filed hfiled, hsettled] at hr
      obtain ⟨earlier, later, hroutes, -⟩ := selectRoute_eq_some_iff.mp hr
      rw [← hsel.routes, routesAt_of_filed hfiled, hroutes]
      simp
    · rw [bestAt_of_none hnone] at hr
      exact absurd hr (by simp)

end RouteTable

namespace Resolver

theorem usable_new (afi safi : Nat) : Usable afi (RouteTable.new afi safi) :=
  ⟨rfl, RouteTable.new_wf afi safi, fun _ r hr => absurd hr (by simp [RouteTable.routesAt,
      RouteTable.new, Dict.empty, Dict.get?, Dict.getEntries]),
    fun _ r hr => absurd hr (by simp [RouteTable.bestAt, RouteTable.new, Dict.empty,
      Dict.get?, Dict.getEntries])⟩

variable {afi : Nat} {t t' : RouteTable}

theorem Usable.edited (h : Usable afi t) {edit : Prefix → List Route → List Route}
    (hedit : RouteTable.Edited t t' edit)
    (hroutes : ∀ p, ∀ r ∈ edit p (t.routesAt p),
      r ∈ t.routesAt p ∨ r.nexthop.length ∈ nexthopWidths) : Usable afi t' := by
  refine ⟨hedit.afi.trans h.afi, hedit.wf, fun p r hr => ?_, fun p r hr => ?_⟩
  · rw [hedit.routes] at hr
    rcases hroutes p r hr with hold | hwidth
    · exact h.routes p r hold
    · exact hwidth
  · rw [hedit.best] at hr
    exact h.best p r hr

theorem Usable.offer (h : Usable afi t) {r : Route} (hafi : r.pfx.afi = afi)
    (hwidth : r.nexthop.length ∈ nexthopWidths) : ∃ t', t.offer r = some t' ∧ Usable afi t' := by
  obtain ⟨t', hoffer, hedit⟩ := RouteTable.offer_edited h.wf (hafi.trans h.afi.symm)
  refine ⟨t', hoffer, h.edited hedit fun p q hq => ?_⟩
  by_cases hp : p = r.pfx
  · rw [if_pos hp] at hq
    rcases RouteTable.mem_putOffer hq with hq | rfl
    · exact Or.inl hq
    · exact Or.inr hwidth
  · rw [if_neg hp] at hq
    exact Or.inl hq

theorem Usable.retract (h : Usable afi t) (pfx : Prefix) (protocol source : Nat) :
    Usable afi (t.retract pfx protocol source) := by
  apply h.edited (RouteTable.retract_edited h.wf pfx protocol source)
  intro p r hr
  by_cases hp : p = pfx
  · rw [if_pos hp] at hr
    exact Or.inl (List.mem_of_mem_eraseP hr)
  · rw [if_neg hp] at hr
    exact Or.inl hr

theorem Usable.retractEach (h : Usable afi t) (protocol source : Nat) :
    Usable afi (GlobalRib.retractEach protocol source t) := by
  apply h.edited (GlobalRib.retractEach_edited protocol source h.wf)
  exact fun p r hr => Or.inl (List.mem_of_mem_eraseP hr)

theorem Usable.reselect (h : Usable afi t) (limit : Int) : Usable afi (t.reselect limit).1 := by
  have hsel := RouteTable.reselect_selecting h.wf limit
  refine ⟨hsel.afi.trans h.afi, hsel.wf, fun p r hr => ?_, fun p r hr => ?_⟩
  · rw [hsel.routes] at hr
    exact h.routes p r hr
  · rcases RouteTable.bestAt_reselect h.wf limit hr with hr | hr
    · exact h.routes p r hr
    · exact h.best p r hr

/-- Every table of a RIB is usable. -/
def UsableRib (g : GlobalRib) : Prop := ∀ key t, g.tables.get? key = some t → Usable key.1 t

theorem UsableRib.setTable {g : GlobalRib} (h : UsableRib g) {key : Family} (ht : Usable key.1 t)
    {g' : GlobalRib} (hg : g'.tables = g.tables.set key t) : UsableRib g' := by
  intro k u hu
  rw [hg, Dict.get?_set] at hu
  by_cases hk : k = key
  · rw [if_pos hk, Option.some.injEq] at hu
    rw [hk, ← hu]
    exact ht
  · rw [if_neg hk] at hu
    exact h k u hu

theorem UsableRib.ensureTable {g : GlobalRib} (h : UsableRib g) (key : Family) {g' : GlobalRib}
    (hensured : g.ensureTable key = some (g', t)) : UsableRib g' ∧ g'.tables.get? key = some t := by
  rw [GlobalRib.ensureTable] at hensured
  by_cases hknown : pfxAddrLen key.1 = 0
  · rw [if_pos hknown] at hensured
    exact absurd hensured (by simp)
  · rw [if_neg hknown] at hensured
    cases ht : g.tables.get? key with
    | some table =>
      rw [ht, Option.some.injEq, Prod.mk.injEq] at hensured
      obtain ⟨rfl, rfl⟩ := hensured
      exact ⟨h, ht⟩
    | none =>
      rw [ht, Option.some.injEq, Prod.mk.injEq] at hensured
      obtain ⟨rfl, rfl⟩ := hensured
      refine ⟨h.setTable (usable_new key.1 key.2) rfl, ?_⟩
      rw [Dict.get?_set, if_pos rfl]

theorem UsableRib.selectStep {g : GlobalRib} (h : UsableRib g) (chunk : Int) :
    UsableRib (g.selectStep chunk).1 := by
  have hfold : ∀ (keys : List Family) (acc : GlobalRib × Nat), UsableRib acc.1 →
      UsableRib (keys.foldl (GlobalRib.selectTable chunk) acc).1 := by
    intro keys
    induction keys with
    | nil => exact fun _ hacc => hacc
    | cons key keys ih =>
      intro acc hacc
      apply ih
      rw [GlobalRib.selectTable]
      cases ht : acc.1.tables.get? key with
      | none => exact hacc
      | some table =>
        by_cases hidle : table.pending = 0
        · simp only [if_pos hidle]
          exact hacc
        · simp only [if_neg hidle]
          apply hacc.setTable ((hacc key table ht).reselect chunk)
          exact GlobalRib.tables_foldl_publishDest key _ _
  exact hfold g.tables.keys (g, 0) h

/-- A call whose route `Route` accepts. -/
def Built : RibOp → Prop
  | .offer route _ => route.nexthop.length ∈ nexthopWidths
  | .ensureTable _ => True
  | .retract _ _ _ _ => True
  | .retractAll _ _ => True
  | .selectStep _ => True
  | .select _ => True

theorem UsableRib.step {g : GlobalRib} (h : UsableRib g) {op : RibOp} (hop : Built op) :
    UsableRib (g.step op) := by
  cases op with
  | ensureTable key =>
    rw [GlobalRib.step]
    cases hensured : g.ensureTable key with
    | none => exact h
    | some found => exact (h.ensureTable key hensured).1
  | offer route safi =>
    rw [GlobalRib.step, GlobalRib.offer]
    cases hensured : g.ensureTable (route.pfx.afi, safi) with
    | none => exact h
    | some found =>
      obtain ⟨h', ht⟩ := h.ensureTable _ hensured
      obtain ⟨table, hoffer, htable⟩ := (h' _ _ ht).offer rfl hop
      simp only [hoffer, Option.map_some, Option.getD_some]
      exact h'.setTable htable rfl
  | retract pfx protocol source safi =>
    rw [GlobalRib.step, GlobalRib.retract]
    cases ht : g.tables.get? (pfx.afi, safi) with
    | none => exact h
    | some table => exact h.setTable ((h _ table ht).retract pfx protocol source) rfl
  | retractAll protocol source =>
    intro k u hu
    rw [GlobalRib.step, GlobalRib.retractAll, Dict.get?_mapValues] at hu
    obtain ⟨table, ht, rfl⟩ := Option.map_eq_some_iff.mp hu
    exact (h k table ht).retractEach protocol source
  | selectStep chunk => exact h.selectStep chunk
  | select limit =>
    have hloop : ∀ (chunk : Int) (fuel : Nat) (g : GlobalRib), UsableRib g →
        UsableRib (GlobalRib.selectLoop chunk fuel g) := by
      intro chunk fuel
      induction fuel with
      | zero => exact fun _ hg => hg
      | succ fuel ih =>
        intro g hg
        rw [GlobalRib.selectLoop]
        split
        · exact hg.selectStep chunk
        · exact ih _ (hg.selectStep chunk)
    exact hloop _ _ g h

theorem usableRib_new {keys : List Family} {g : GlobalRib} (h : GlobalRib.new keys = some g) :
    UsableRib g := by
  have hfold : ∀ (keys : List Family) (g₀ : GlobalRib), UsableRib g₀ →
      keys.foldlM (fun g key => (g.ensureTable key).map Prod.fst) g₀ = some g →
      UsableRib g := by
    intro keys
    induction keys with
    | nil =>
      intro g₀ h₀ hg
      rw [← Option.some.inj hg]
      exact h₀
    | cons key keys ih =>
      intro g₀ h₀ hg
      rw [List.foldlM_cons] at hg
      cases hensured : g₀.ensureTable key with
      | none => rw [hensured] at hg; exact absurd hg (by simp)
      | some found =>
        rw [hensured] at hg
        exact ih _ (h₀.ensureTable key hensured).1 hg
  exact hfold keys GlobalRib.empty (fun _ _ ht => absurd ht (by simp [GlobalRib.empty])) h

/-- Every table of a dictionary by family is usable. -/
def UsableTables (tables : Dict Nat RouteTable) : Prop :=
  ∀ afi t, tables.get? afi = some t → Usable afi t

theorem UsableTables.set {tables : Dict Nat RouteTable} (h : UsableTables tables)
    (ht : Usable afi t) : UsableTables (tables.set afi t) := by
  intro k u hu
  rw [Dict.get?_set] at hu
  by_cases hk : k = afi
  · rw [if_pos hk, Option.some.injEq] at hu
    rw [hk, ← hu]
    exact ht
  · rw [if_neg hk] at hu
    exact h k u hu

theorem usableTables_fresh : UsableTables freshTables := by
  have hempty : UsableTables Dict.empty := fun _ _ ht => absurd ht (by simp)
  exact (hempty.set (usable_new AFI_IP SAFI_UNICAST)).set (usable_new AFI_IP6 SAFI_UNICAST)

theorem UsableTables.offerTo {tables : Dict Nat RouteTable} (h : UsableTables tables) {r : Route}
    (hwidth : r.nexthop.length ∈ nexthopWidths) : UsableTables (offerTo tables r) := by
  rw [Resolver.offerTo]
  cases ht : tables.get? r.pfx.afi with
  | none => exact h
  | some table =>
    obtain ⟨table', hoffer, htable⟩ := (h _ table ht).offer rfl hwidth
    simp only [hoffer]
    exact h.set htable

theorem UsableTables.foldl_offerTo {tables : Dict Nat RouteTable} (h : UsableTables tables)
    {routes : List Route} (hwidth : ∀ r ∈ routes, r.nexthop.length ∈ nexthopWidths) :
    UsableTables (routes.foldl Resolver.offerTo tables) := by
  induction routes generalizing tables with
  | nil => exact h
  | cons r routes ih =>
    apply ih (h.offerTo (hwidth r List.mem_cons_self))
    exact fun q hq => hwidth q (List.mem_cons_of_mem _ hq)

theorem UsableTables.reselectAll {tables : Dict Nat RouteTable} (h : UsableTables tables) :
    UsableTables (reselectAll tables) := by
  intro k u hu
  rw [Resolver.reselectAll, Dict.get?_mapValues] at hu
  obtain ⟨table, ht, rfl⟩ := Option.map_eq_some_iff.mp hu
  exact (h k table ht).reselect 0

/-- A next hop packed from text is empty or an address. -/
theorem packNexthop_width {text : String} {packed : Bytes} (h : packNexthop text = some packed) :
    packed.length ∈ nexthopWidths := by
  rw [packNexthop] at h
  by_cases htext : text = ""
  · rw [if_pos htext, Option.some.injEq] at h
    rw [← h]
    decide
  · rw [if_neg htext] at h
    cases hp : parsePrefix text with
    | none => rw [hp] at h; exact absurd h (by simp)
    | some p =>
      rw [hp] at h
      simp only [Option.ite_none_right_eq_some, Option.some.injEq] at h
      rw [← h.2, p.length_addr]
      have hknown := p.known
      simp only [pfxAddrLen, nexthopWidths] at hknown ⊢
      split_ifs at hknown ⊢ <;> simp_all

/-- A parsed entry has a next hop of a width `Route` takes. -/
theorem parseStatic_width {item : String × StaticEntry} {row : StaticRow}
    (h : parseStatic item = some row) : (staticRoute row).nexthop.length ∈ nexthopWidths := by
  rw [parseStatic] at h
  cases hp : parsePrefix item.1 with
  | none => rw [hp] at h; exact absurd h (by simp)
  | some p =>
    cases hnh : packNexthop item.2.nextHop with
    | none => rw [hp, hnh] at h; exact absurd h (by simp)
    | some packed =>
      rw [hp, hnh, Option.some.injEq] at h
      rw [← h]
      exact packNexthop_width hnh

theorem mapM_parseStatic_width {entries : List (String × StaticEntry)} {rows : List StaticRow}
    (h : entries.mapM parseStatic = some rows) :
    ∀ r ∈ rows.map staticRoute, r.nexthop.length ∈ nexthopWidths := by
  induction entries generalizing rows with
  | nil =>
    rw [List.mapM_nil] at h
    rw [← Option.some.inj h]
    exact fun r hr => absurd hr List.not_mem_nil
  | cons item entries ih =>
    rw [List.mapM_cons] at h
    obtain ⟨row, hrow, h⟩ := Option.bind_eq_some_iff.mp h
    obtain ⟨others, hothers, h⟩ := Option.bind_eq_some_iff.mp h
    rw [← Option.some.inj h]
    intro r hr
    rcases List.mem_cons.mp hr with rfl | hr
    · exact parseStatic_width hrow
    · exact ih hothers r hr

/-- What can happen to a resolver and the RIB behind it. -/
inductive Op where
  | addStatic (text : String) (entry : StaticEntry)
  | removeStatic (text : String)
  | loadStatic (entries : List (String × StaticEntry))
  | loadKernel (found : List KernelRoute)
  | clearKernel
  | setEnabled (value : Bool)
  | setKernelImport (value : Bool)
  | setResolveViaDefault (value : Bool)
  | setUseRib (value : Bool)
  | rib (op : RibOp)

/-- One of them.  A call that raises a `ValueError` changes nothing. -/
def act (s : Resolver) : Op → Resolver
  | .addStatic text entry => (s.addStatic text entry).getD s
  | .removeStatic text => (s.removeStatic text).getD s
  | .loadStatic entries => (s.loadStatic entries).getD s
  | .loadKernel found => (s.loadKernel found).1
  | .clearKernel => s.clearKernel
  | .setEnabled value => s.setEnabled value
  | .setKernelImport value => s.setKernelImport value
  | .setResolveViaDefault value => s.setResolveViaDefault value
  | .setUseRib value => { s with useRib := value }
  | .rib op => { s with globalRib := s.globalRib.map fun g => g.step op }

def run (s : Resolver) (ops : List Op) : Resolver := ops.foldl act s

/-- The routes offered to the engine are ones `Route` accepts. -/
def Op.Built : Op → Prop
  | .rib op => Resolver.Built op
  | .addStatic _ _ => True
  | .removeStatic _ => True
  | .loadStatic _ => True
  | .loadKernel _ => True
  | .clearKernel => True
  | .setEnabled _ => True
  | .setKernelImport _ => True
  | .setResolveViaDefault _ => True
  | .setUseRib _ => True

theorem act_valid {s : Resolver} (h : s.Valid) {op : Op} (hop : op.Built) : (s.act op).Valid := by
  cases op with
  | addStatic text entry =>
    simp only [act, addStatic]
    cases hp : parsePrefix text with
    | none => exact h
    | some p =>
      cases hnh : packNexthop entry.nextHop with
      | none => exact h
      | some packed =>
        have hwidth := packNexthop_width hnh
        have hoffered : UsableTables (offerTo s.static
            (staticRoute (p, packed, entry.distance.toNat, entry.metric.toNat))) :=
          UsableTables.offerTo h.static hwidth
        simp only
        split
        · exact h
        · rename_i table ht
          exact ⟨hoffered.set ((hoffered _ table ht).reselect 0), h.kernel, h.rib⟩
  | removeStatic text =>
    simp only [act, removeStatic]
    cases hp : parsePrefix text with
    | none => exact h
    | some p =>
      simp only [Option.map_some, Option.getD_some]
      cases ht : s.static.get? p.afi with
      | none => exact h
      | some table =>
        have htable := ((h.static _ table ht).retract p PROTO_STATIC 0).reselect 0
        have hset : UsableTables (s.static.set p.afi
            ((table.retract p PROTO_STATIC 0).reselect 0).1) :=
          UsableTables.set h.static htable
        simp only
        split
        · exact ⟨hset, h.kernel, h.rib⟩
        · exact ⟨hset, h.kernel, h.rib⟩
  | loadStatic entries =>
    simp only [act, loadStatic]
    cases hrows : entries.mapM parseStatic with
    | none => exact h
    | some rows =>
      have hloaded := (usableTables_fresh.foldl_offerTo (mapM_parseStatic_width hrows)).reselectAll
      simp only [Option.map_some, Option.getD_some]
      split
      · exact ⟨hloaded, h.kernel, h.rib⟩
      · exact ⟨hloaded, h.kernel, h.rib⟩
  | loadKernel found =>
    rw [act, loadKernel]
    split
    · exact h
    · generalize found.filterMap (fun k => k.pfx.map fun p => (p, k)) = parsed
      have hwidths : ∀ r ∈ (parsed.takeWhile fun item : Prefix × KernelRoute =>
          decide (item.2.gateway.length ∈ nexthopWidths)).map kernelRoute,
          r.nexthop.length ∈ nexthopWidths := by
        intro r hr
        obtain ⟨item, hitem, rfl⟩ := List.mem_map.mp hr
        have hfits := List.mem_takeWhile_imp hitem
        rw [decide_eq_true_iff] at hfits
        exact hfits
      have hoffered := usableTables_fresh.foldl_offerTo hwidths
      simp only
      split
      · exact ⟨h.static, hoffered.reselectAll, h.rib⟩
      · exact ⟨h.static, hoffered, h.rib⟩
  | clearKernel => exact ⟨h.static, usableTables_fresh, h.rib⟩
  | setEnabled value =>
    rw [act, setEnabled]
    split <;> exact ⟨h.static, h.kernel, h.rib⟩
  | setKernelImport value =>
    rw [act, setKernelImport]
    split <;> exact ⟨h.static, h.kernel, h.rib⟩
  | setResolveViaDefault value =>
    rw [act, setResolveViaDefault]
    split <;> exact ⟨h.static, h.kernel, h.rib⟩
  | setUseRib value => exact ⟨h.static, h.kernel, h.rib⟩
  | rib op =>
    refine ⟨h.static, h.kernel, fun g hg => ?_⟩
    obtain ⟨g₀, hg₀, rfl⟩ := Option.map_eq_some_iff.mp hg
    exact UsableRib.step (h.rib g₀ hg₀) hop

theorem run_valid {s : Resolver} (h : s.Valid) {ops : List Op} (hops : ∀ op ∈ ops, op.Built) :
    (s.run ops).Valid := by
  induction ops generalizing s with
  | nil => exact h
  | cons op ops ih =>
    apply ih (act_valid h (hops op List.mem_cons_self))
    exact fun other hother => hops other (List.mem_cons_of_mem _ hother)

theorem new_valid {globalRib : Option GlobalRib}
    (hrib : ∀ g ∈ globalRib, ∃ keys, GlobalRib.new keys = some g) :
    (Resolver.new globalRib).Valid := by
  refine ⟨usableTables_fresh, usableTables_fresh, fun g hg => ?_⟩
  obtain ⟨keys, hkeys⟩ := hrib g hg
  exact usableRib_new hkeys

/-- Resolving an address of its family ends, and answers with the first lookup of a chain of at
most `MAX_DEPTH + 1` that meets no engine prefix twice, when there is one. -/
theorem resolve_iff_chain {globalRib : Option GlobalRib}
    (hrib : ∀ g ∈ globalRib, ∃ keys, GlobalRib.new keys = some g) {ops : List Op}
    (hops : ∀ op ∈ ops, op.Built) {afi : Nat} {addr : Bytes} (hafi : pfxAddrLen afi ≠ 0)
    (haddr : addr.length = pfxAddrLen afi) (protocol : Option Nat) :
    ∃ answer, ((Resolver.new globalRib).run ops).resolve afi addr protocol = some answer ∧
      (answer.isSome = true ↔
        ∃ chain, ((Resolver.new globalRib).run ops).Chain protocol afi addr chain ∧
          chain.length ≤ MAX_DEPTH + 1 ∧ (enginePrefixes chain).Nodup) ∧
      ∀ found, answer = some found →
        ∃ look, ((Resolver.new globalRib).run ops).Looks protocol afi addr look ∧
          answerOf look = found := by
  have hvalid := run_valid (new_valid hrib) hops
  obtain ⟨answer, hanswer, hdecides⟩ := resolveFrom_spec hvalid protocol MAX_DEPTH afi addr []
    haddr (fun key hkey => absurd hkey List.not_mem_nil)
  refine ⟨answer, ?_, ⟨fun hsome => ?_, ?_⟩, ?_⟩
  · rw [resolve, if_neg (by simp [hafi, haddr]), hanswer]
  · obtain ⟨found, hfound⟩ := Option.isSome_iff_exists.mp hsome
    obtain ⟨look, rest, hchain, -⟩ := hdecides.sound found hfound
    exact ⟨look :: rest, hchain.linked, hchain.short, hchain.nodup⟩
  · rintro ⟨chain, hlinked, hshort, hnodup⟩
    exact hdecides.complete chain ⟨hlinked, hshort, hnodup, fun _ _ => List.not_mem_nil⟩
  · intro found hfound
    obtain ⟨look, rest, hchain, hhead⟩ := hdecides.sound found hfound
    refine ⟨look, ?_, hhead⟩
    cases hchain.linked with
    | last hlooks _ => exact hlooks
    | hop hlooks _ _ => exact hlooks

/-- 10.0.0.0/8 learned by BGP through 192.0.2.1. -/
def learnedRoute : Route :=
  ⟨1, .ipv4 10 0 0 0 8, 3, 20, 0, [192, 0, 2, 1], 7, 0⟩

/-- The next hop is covered by a static entry. -/
def learnedOps : List Op :=
  [.rib (.ensureTable IPV4_UNICAST), .rib (.offer learnedRoute SAFI_UNICAST),
    .rib (.select 0), .loadStatic [("192.0.2.0/24", ⟨"", 1, 5⟩)]]

theorem resolve_iff_chain_learned :
    ∃ chain, ((Resolver.new (some GlobalRib.empty)).run learnedOps).Chain none AFI_IP
        [10, 1, 2, 3] chain ∧
      chain.length ≤ MAX_DEPTH + 1 ∧ (enginePrefixes chain).Nodup := by
  have hrib : ∀ g ∈ some GlobalRib.empty, ∃ keys, GlobalRib.new keys = some g := by
    intro g hg
    exact ⟨[], hg⟩
  have hops : ∀ op ∈ learnedOps, op.Built := by
    simp [learnedOps, Op.Built, Built, learnedRoute, nexthopWidths]
  obtain ⟨answer, hanswer, hchain, -⟩ := resolve_iff_chain hrib hops
    (show pfxAddrLen AFI_IP ≠ 0 by decide)
    (show ([10, 1, 2, 3] : Bytes).length = pfxAddrLen AFI_IP by decide) none
  have hfound : ((Resolver.new (some GlobalRib.empty)).run learnedOps).resolve AFI_IP
      [10, 1, 2, 3] none = some (some ⟨learnedRoute.pfx, [192, 0, 2, 1], 0, .rib⟩) := by
    decide +kernel
  rw [hfound, Option.some.injEq] at hanswer
  exact hchain.mp (by rw [← hanswer]; rfl)

end Resolver

end Rib

end Packets
