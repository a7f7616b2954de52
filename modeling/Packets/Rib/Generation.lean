/-
The generation of a resolver (`rib/resolver.py`).

A call that leaves `generation` as it was leaves what an answer depends on as it was, except
where a section's rows come in an order that puts another last, or an import fails half way.
-/
import Packets.Rib.LoadedTables

namespace Packets

namespace Rib

/-- What an answer tells of the route it found. -/
def reply (r : Route) : Bytes × Nat := (r.nexthop, r.metric)

/-- Winners that reply alike are found alike. -/
theorem LongestUsable.alike {winner winner' : Prefix → Option Route}
    {usable usable' : Route → Prop} {afi : Nat} {addr : Bytes} {found : Option Route}
    (hpfx : ∀ p r, winner p = some r → r.pfx = p) (hpfx' : ∀ p r, winner' p = some r → r.pfx = p)
    (halike : ∀ p, (winner p).map reply = (winner' p).map reply)
    (husable : ∀ r r', r.pfx = r'.pfx → (usable r ↔ usable' r'))
    (h : LongestUsable winner usable afi addr found) :
    ∃ found', LongestUsable winner' usable' afi addr found' ∧
      found'.map (fun r => (r.pfx, reply r)) = found.map fun r => (r.pfx, reply r) := by
  have hback : ∀ p r', winner' p = some r' →
      ∃ r, winner p = some r ∧ r.pfx = r'.pfx ∧ reply r = reply r' := by
    intro p r' hr'
    have hsame := halike p
    rw [hr', Option.map_some] at hsame
    obtain ⟨r, hr, hreply⟩ := Option.map_eq_some_iff.mp hsame
    exact ⟨r, hr, (hpfx p r hr).trans (hpfx' p r' hr').symm, hreply⟩
  rcases found with - | r
  · refine ⟨none, ?_, rfl⟩
    intro q r' hr' hin huse
    obtain ⟨r, hr, hsame, -⟩ := hback q r' hr'
    exact h q r hr hin ((husable r r' hsame).mpr huse)
  · obtain ⟨hwin, hin, huse, hmax⟩ := h
    have hsame := halike r.pfx
    rw [hwin, Option.map_some] at hsame
    obtain ⟨r', hr', hreply⟩ := Option.map_eq_some_iff.mp hsame.symm
    have heq : r'.pfx = r.pfx := hpfx' _ _ hr'
    refine ⟨some r', ⟨?_, ?_, (husable r r' heq.symm).mp huse, ?_⟩, ?_⟩
    · rw [heq]
      exact hr'
    · rw [heq]
      exact hin
    · intro q r'' hr'' hin'' huse''
      obtain ⟨r₀, hr₀, hsame₀, -⟩ := hback q r'' hr''
      rw [heq]
      exact hmax q r₀ hr₀ hin'' ((husable r₀ r'' hsame₀).mpr huse'')
    · rw [Option.map_some, Option.map_some, heq, hreply]

namespace Resolver

/-- Two resolvers answer from the same knobs, the same RIB, and winners that reply
alike. -/
structure Alike (s s' : Resolver) : Prop where
  viaDefault : s'.resolveViaDefault = s.resolveViaDefault
  useRib : s'.useRib = s.useRib
  globalRib : s'.globalRib = s.globalRib
  static : ∀ p : Prefix,
    (winnersOf s'.static p.afi p).map reply = (winnersOf s.static p.afi p).map reply
  kernel : ∀ p : Prefix,
    (winnersOf s'.kernel p.afi p).map reply = (winnersOf s.kernel p.afi p).map reply

theorem Alike.refl (s : Resolver) : Alike s s := ⟨rfl, rfl, rfl, fun _ => rfl, fun _ => rfl⟩

theorem Alike.trans {s s' s'' : Resolver} (h : Alike s s') (h' : Alike s' s'') : Alike s s'' where
  viaDefault := h'.viaDefault.trans h.viaDefault
  useRib := h'.useRib.trans h.useRib
  globalRib := h'.globalRib.trans h.globalRib
  static p := (h'.static p).trans (h.static p)
  kernel p := (h'.kernel p).trans (h.kernel p)

variable {s s' : Resolver} {protocol : Option Nat} {afi : Nat} {addr : Bytes}

theorem winnersOf_afi {tables : Dict Nat RouteTable} (h : UsableTables tables) {p : Prefix}
    {r : Route} (hr : winnersOf tables afi p = some r) : p.afi = afi ∧ r.pfx = p := by
  rw [winnersOf] at hr
  cases ht : tables.get? afi with
  | none =>
    rw [ht] at hr
    exact absurd hr (by simp)
  | some t =>
    rw [ht] at hr
    have husable := h afi t ht
    exact ⟨(husable.wf.bestAt_afi hr).trans husable.afi, husable.wf.bestAt_pfx hr⟩

/-- Tables whose winners reply alike are searched alike. -/
theorem stepTable_alike {tables tables' : Dict Nat RouteTable} (h : UsableTables tables)
    (h' : UsableTables tables') (hdefault : s'.resolveViaDefault = s.resolveViaDefault)
    (halike : ∀ p : Prefix,
      (winnersOf tables' p.afi p).map reply = (winnersOf tables p.afi p).map reply)
    (haddr : addr.length = pfxAddrLen afi) :
    ∃ found found', s.stepTable tables afi addr = some found ∧
      s'.stepTable tables' afi addr = some found' ∧
      found'.map (fun e => (e.1, reply e.2)) = found.map fun e => (e.1, reply e.2) := by
  obtain ⟨found, hfound, hlongest, hpfx⟩ := stepTable_spec s none h haddr .static (by decide)
  obtain ⟨found', hfound', hlongest', hpfx'⟩ := stepTable_spec s' none h' haddr .static (by decide)
  have hreply : ∀ p, (winnersOf tables afi p).map reply = (winnersOf tables' afi p).map reply := by
    intro p
    by_cases hafi : p.afi = afi
    · rw [← hafi]
      exact (halike p).symm
    · have hnone : ∀ {tables : Dict Nat RouteTable}, UsableTables tables →
          winnersOf tables afi p = none := by
        intro tables husable
        apply Option.eq_none_iff_forall_ne_some.mpr
        intro r hr
        exact hafi (winnersOf_afi husable hr).1
      rw [hnone h, hnone h']
  have hvouch : ∀ r r' : Route, r.pfx = r'.pfx →
      (s.MayVouch none .static r ↔ s'.MayVouch none .static r') := by
    intro r r' heq
    rw [MayVouch, MayVouch, heq, hdefault]
    exact and_congr_right fun _ => ⟨fun _ hrib => absurd hrib (by decide),
      fun _ hrib => absurd hrib (by decide)⟩
  obtain ⟨other, hother, hsame⟩ := hlongest.alike (fun p r hr => (winnersOf_afi h hr).2)
    (fun p r hr => (winnersOf_afi h' hr).2) hreply hvouch
  have hunique := hother.unique hlongest'
  rw [hunique] at hsame
  refine ⟨found, found', hfound, hfound', ?_⟩
  have hown : ∀ {found : Option (Prefix × Route)}, (∀ p r, found = some (p, r) → p = r.pfx) →
      found.map (fun e => (e.1, reply e.2)) =
        (found.map Prod.snd).map fun r => (r.pfx, reply r) := by
    intro found hpfx
    rcases found with - | ⟨p, r⟩
    · rfl
    · rw [hpfx p r rfl]
      rfl
  rw [hown hpfx, hown hpfx', hsame]

theorem Alike.stepRib (h : Alike s s') (afi : Nat) (addr : Bytes) (protocol : Option Nat) :
    s'.stepRib afi addr protocol = s.stepRib afi addr protocol := by
  have husable : s'.usable protocol = s.usable protocol := by
    funext route
    rw [usable, usable, h.viaDefault]
  rw [Resolver.stepRib, Resolver.stepRib, h.useRib, h.globalRib, husable]

/-- What resolution reads of a lookup. -/
def seen (look : LookupSource × Prefix × Route) : LookupSource × Prefix × Bytes × Nat :=
  (look.1, look.2.1, reply look.2.2)

/-- Lookups see alike. -/
theorem Alike.step (h : Alike s s') (hs : s.Valid) (hs' : s'.Valid) (protocol : Option Nat)
    (haddr : addr.length = pfxAddrLen afi) :
    ∃ look look', s.step afi addr protocol = some look ∧
      s'.step afi addr protocol = some look' ∧ look'.map seen = look.map seen := by
  obtain ⟨static, static', hstatic, hstatic', hsame⟩ := stepTable_alike hs.static
    hs'.static h.viaDefault h.static haddr
  obtain ⟨kernel, kernel', hkernel, hkernel', hsame'⟩ := stepTable_alike hs.kernel
    hs'.kernel h.viaDefault h.kernel haddr
  obtain ⟨rib, hrib, -⟩ := stepRib_spec hs protocol haddr
  have hrib' : s'.stepRib afi addr protocol = some rib := (h.stepRib afi addr protocol).trans hrib
  rw [Resolver.step, Resolver.step, hstatic, hstatic', hkernel, hkernel', hrib, hrib']
  rcases static with - | ⟨p, r⟩
  · rcases static' with - | e
    · rcases kernel with - | ⟨p, r⟩
      · rcases kernel' with - | e
        · exact ⟨_, _, rfl, rfl, rfl⟩
        · exact absurd hsame' (by simp)
      · rcases kernel' with - | ⟨p', r'⟩
        · exact absurd hsame' (by simp)
        · refine ⟨_, _, rfl, rfl, ?_⟩
          simp only [Option.map_some, Option.some.injEq, Prod.mk.injEq] at hsame'
          simp only [Option.map_some, seen, hsame'.1, hsame'.2]
    · exact absurd hsame (by simp)
  · rcases static' with - | ⟨p', r'⟩
    · exact absurd hsame (by simp)
    · refine ⟨_, _, rfl, rfl, ?_⟩
      simp only [Option.map_some, Option.some.injEq, Prod.mk.injEq] at hsame
      simp only [Option.map_some, seen, hsame.1, hsame.2]

/-- A level answers alike when the levels below do. -/
theorem Alike.resolveVia (h : Alike s s') (hs : s.Valid) (hs' : s'.Valid) (protocol : Option Nat)
    {next next' : Nat → Bytes → List (Nat × Prefix) → Option (Option Resolution)}
    (hnext : ∀ afi addr seen, addr.length = pfxAddrLen afi →
      next' afi addr seen = next afi addr seen)
    (haddr : addr.length = pfxAddrLen afi) (path : List (Nat × Prefix)) :
    s'.resolveVia protocol next' afi addr path = s.resolveVia protocol next afi addr path := by
  obtain ⟨look, look', hlook, hlook', hsame⟩ := h.step hs hs' protocol haddr
  rw [Resolver.resolveVia, Resolver.resolveVia, hlook, hlook']
  rcases look with - | ⟨source, p, r⟩
  · rcases look' with - | e
    · rfl
    · exact absurd hsame (by simp)
  · rcases look' with - | ⟨source', p', r'⟩
    · exact absurd hsame (by simp)
    · simp only [Option.map_some, seen, reply, Option.some.injEq, Prod.mk.injEq] at hsame
      obtain ⟨rfl, rfl, hnexthop, hmetric⟩ := hsame
      simp only [hnexthop, hmetric]
      by_cases hgoes : source' = .rib ∧ r.nexthop ≠ []
      · simp only [if_pos hgoes]
        by_cases hmem : (afi, p') ∈ path
        · simp only [if_pos hmem]
        · have hwidth : r.nexthop.length =
              pfxAddrLen (if r.nexthop.length = 4 then AFI_IP else AFI_IP6) := by
            rcases step_spec hs protocol haddr with ⟨hnone, -⟩ | ⟨source, r₀, hsome, hlooks⟩
            · rw [hlook] at hnone
              exact absurd hnone (by simp)
            · rw [hlook] at hsome
              simp only [Option.some.injEq, Prod.mk.injEq] at hsome
              obtain ⟨rfl, -, rfl⟩ := hsome
              exact hs.nexthop_width hlooks hgoes
          simp only [if_neg hmem, hnext _ _ _ hwidth]
      · simp only [if_neg hgoes]

theorem Alike.resolveFrom (h : Alike s s') (hs : s.Valid) (hs' : s'.Valid)
    (protocol : Option Nat) (left : Nat) : ∀ (afi : Nat) (addr : Bytes)
    (path : List (Nat × Prefix)), addr.length = pfxAddrLen afi →
      s'.resolveFrom protocol left afi addr path = s.resolveFrom protocol left afi addr path := by
  induction left with
  | zero =>
    intro afi addr path haddr
    exact h.resolveVia hs hs' protocol (fun _ _ _ _ => rfl) haddr path
  | succ left ih =>
    intro afi addr path haddr
    exact h.resolveVia hs hs' protocol ih haddr path

theorem Alike.resolve (h : Alike s s') (hs : s.Valid) (hs' : s'.Valid) (afi : Nat) (addr : Bytes)
    (protocol : Option Nat) : s'.resolve afi addr protocol = s.resolve afi addr protocol := by
  rw [Resolver.resolve, Resolver.resolve]
  by_cases hbad : pfxAddrLen afi = 0 ∨ addr.length ≠ pfxAddrLen afi
  · rw [if_pos hbad, if_pos hbad]
  · rw [if_neg hbad, if_neg hbad]
    have haddr : addr.length = pfxAddrLen afi := by
      by_contra hne
      exact hbad (Or.inr hne)
    exact h.resolveFrom hs hs' protocol MAX_DEPTH afi addr [] haddr

/-- Static tables are selected at once, and tables of kernel routes count them. -/
structure Tidy (s : Resolver) : Prop where
  drained : ∀ afi t, s.static.get? afi = some t → t.queue = []
  counted : ∀ afi t, s.kernel.get? afi = some t → RouteTable.Counted t
  elected : ∀ afi t, s.kernel.get? afi = some t → RouteTable.Elected t

theorem drained_reselectAll {tables : Dict Nat RouteTable} :
    ∀ afi t, (reselectAll tables).get? afi = some t → t.queue = [] := by
  intro afi t ht
  rw [reselectAll, Dict.get?_mapValues] at ht
  obtain ⟨table, -, rfl⟩ := Option.map_eq_some_iff.mp ht
  exact RouteTable.queue_reselect_zero table

theorem drained_set {tables : Dict Nat RouteTable} (table : RouteTable) (key : Nat)
    (h : ∀ afi t, tables.get? afi = some t → afi ≠ key → t.queue = []) :
    ∀ afi t, (tables.set key (table.reselect 0).1).get? afi = some t → t.queue = [] := by
  intro afi t ht
  rw [Dict.get?_set] at ht
  by_cases hafi : afi = key
  · rw [if_pos hafi, Option.some.injEq] at ht
    rw [← ht]
    exact RouteTable.queue_reselect_zero table
  · rw [if_neg hafi] at ht
    exact h afi t ht hafi

theorem get?_offerTo_of_ne {tables : Dict Nat RouteTable} {r : Route} {afi : Nat}
    (hafi : afi ≠ r.pfx.afi) : (offerTo tables r).get? afi = tables.get? afi := by
  rw [offerTo]
  split
  · rfl
  · split
    · rfl
    · rw [Dict.get?_set, if_neg hafi]

/-- Loaded tables count their routes and, selected or not, elect only these. -/
theorem Loaded.tidy {tables : Dict Nat RouteTable} (h : Loaded tables) :
    (∀ afi t, tables.get? afi = some t → RouteTable.Elected t) ∧
      (∀ afi t, (reselectAll tables).get? afi = some t → RouteTable.Counted t) ∧
      ∀ afi t, (reselectAll tables).get? afi = some t → RouteTable.Elected t := by
  refine ⟨?_, ?_, ?_⟩
  · intro afi t ht p r hr
    have hwf := h.usable afi t ht
    have hafi : p.afi = afi := (hwf.wf.bestAt_afi hr).trans hwf.afi
    have hnone := h.unselected p
    rw [winnersOf, hafi, ht] at hnone
    change t.bestAt p = none at hnone
    rw [hnone] at hr
    exact absurd hr (by simp)
  · intro afi t ht
    rw [reselectAll, Dict.get?_mapValues] at ht
    obtain ⟨table, htable, rfl⟩ := Option.map_eq_some_iff.mp ht
    exact (h.counted afi table htable).reselect (h.usable afi table htable).wf 0
  · intro afi t ht
    rw [reselectAll, Dict.get?_mapValues] at ht
    obtain ⟨table, htable, rfl⟩ := Option.map_eq_some_iff.mp ht
    exact RouteTable.elected_reselect_zero (h.usable afi table htable).wf

theorem loaded_kernel (parsed : List (Prefix × KernelRoute)) :
    Loaded (((parsed.takeWhile fun item : Prefix × KernelRoute =>
      decide (item.2.gateway.length ∈ nexthopWidths)).map kernelRoute).foldl offerTo
        freshTables) := by
  apply loaded_fresh.foldl
  intro r hr
  obtain ⟨item, hitem, rfl⟩ := List.mem_map.mp hr
  have hfits := List.mem_takeWhile_imp hitem
  rw [decide_eq_true_iff] at hfits
  exact hfits

theorem act_tidy (h : s.Tidy) (op : Op) : (s.act op).Tidy := by
  cases op with
  | addStatic text entry =>
    simp only [act, addStatic]
    cases hp : parsePrefix text with
    | none => exact h
    | some p =>
      cases hnh : packNexthop entry.nextHop with
      | none => exact h
      | some packed =>
        simp only
        split
        · exact h
        · refine ⟨drained_set _ _ ?_, h.counted, h.elected⟩
          intro afi t ht hne
          rw [get?_offerTo_of_ne hne] at ht
          exact h.drained afi t ht
  | removeStatic text =>
    simp only [act, removeStatic]
    cases hp : parsePrefix text with
    | none => exact h
    | some p =>
      simp only [Option.map_some, Option.getD_some]
      cases ht : s.static.get? p.afi with
      | none => exact h
      | some table =>
        have hset := drained_set (table.retract p PROTO_STATIC 0) p.afi
          fun afi t ht _ => h.drained afi t ht
        simp only
        split
        · exact ⟨hset, h.counted, h.elected⟩
        · exact ⟨hset, h.counted, h.elected⟩
  | loadStatic entries =>
    simp only [act, loadStatic]
    cases hrows : entries.mapM parseStatic with
    | none => exact h
    | some rows =>
      simp only [Option.map_some, Option.getD_some]
      split
      · exact ⟨drained_reselectAll, h.counted, h.elected⟩
      · exact ⟨drained_reselectAll, h.counted, h.elected⟩
  | loadKernel found =>
    rw [act, loadKernel]
    split
    · exact h
    · have hloaded := loaded_kernel (found.filterMap fun k => k.pfx.map fun p => (p, k))
      obtain ⟨helected, hcounted, helected'⟩ := hloaded.tidy
      simp only
      split
      · exact ⟨h.drained, hcounted, helected'⟩
      · exact ⟨h.drained, hloaded.counted, helected⟩
  | clearKernel => exact ⟨h.drained, loaded_fresh.counted, loaded_fresh.tidy.1⟩
  | setEnabled value =>
    rw [act, setEnabled]
    split <;> exact ⟨h.drained, h.counted, h.elected⟩
  | setKernelImport value =>
    rw [act, setKernelImport]
    split <;> exact ⟨h.drained, h.counted, h.elected⟩
  | setResolveViaDefault value =>
    rw [act, setResolveViaDefault]
    split <;> exact ⟨h.drained, h.counted, h.elected⟩
  | setUseRib value => exact ⟨h.drained, h.counted, h.elected⟩
  | rib op => exact ⟨h.drained, h.counted, h.elected⟩

/-- The calls that leave the engine's RIB alone, made where what they change is seen: a section
with the rows it last came with leaves every next hop and metric in force, and an import does
not fail once it has dropped winners. -/
def Steady (s : Resolver) : Op → Prop
  | .loadStatic entries => ∀ rows, entries.mapM parseStatic = some rows →
      (s.staticSignature.any fun old => old.isPerm rows) = true →
        ∀ p : Prefix, (lastRow rows p).map (fun row => reply (staticRoute row)) =
          (winnersOf s.static p.afi p).map reply
  | .loadKernel found => s.kernelImport = true →
      (∃ k ∈ found, k.pfx.isSome = true ∧ k.gateway.length ∉ nexthopWidths) →
        ∀ p : Prefix, winnersOf s.kernel p.afi p = none
  | .addStatic _ _ => True
  | .removeStatic _ => True
  | .clearKernel => True
  | .setEnabled _ => True
  | .setKernelImport _ => True
  | .setResolveViaDefault _ => True
  | .setUseRib _ => False
  | .rib _ => False

/-- Every call of a sequence is steady where it is made. -/
def Steadily (s : Resolver) : List Op → Prop
  | [] => True
  | op :: rest => s.Steady op ∧ Steadily (s.act op) rest

/-- What a call may do: move the generation, or leave it and every answer. -/
def Moves (s s' : Resolver) : Prop :=
  s.generation < s'.generation ∨ s'.generation = s.generation ∧ Alike s s'

theorem Moves.refl (s : Resolver) : Moves s s := Or.inr ⟨rfl, Alike.refl s⟩

theorem Moves.trans {s s' s'' : Resolver} (h : Moves s s') (h' : Moves s' s'') : Moves s s'' := by
  rcases h with hlt | ⟨heq, halike⟩
  · left
    rcases h' with hlt' | ⟨heq', -⟩ <;> omega
  · rcases h' with hlt' | ⟨heq', halike'⟩
    · left
      omega
    · exact Or.inr ⟨heq'.trans heq, halike.trans halike'⟩

/-- Withdrawing a static entry that is not there changes no winner. -/
theorem removeStatic_moves (h : s.Tidy) (text : String) : Moves s (s.act (.removeStatic text)) := by
  simp only [act, removeStatic]
  cases hp : parsePrefix text with
  | none => exact Moves.refl s
  | some p =>
    simp only [Option.map_some, Option.getD_some]
    cases ht : s.static.get? p.afi with
    | none => exact Moves.refl s
    | some table =>
      simp only
      split
      · exact Or.inl (Nat.lt_succ_self _)
      · next hnone =>
          refine Or.inr ⟨rfl, rfl, rfl, rfl, ?_, fun _ => rfl⟩
          intro q
          rw [Bool.not_eq_true] at hnone
          simp only [RouteTable.retract_of_not_retracts hnone,
            RouteTable.reselect_of_drained (h.drained _ table ht), winnersOf, Dict.get?_set]
          by_cases hafi : q.afi = p.afi
          · simp only [hafi, if_true, ht]
          · simp only [hafi, if_false]

/-- A section replaces the winners by the last rows. -/
theorem loadStatic_moves {entries : List (String × StaticEntry)}
    (hsteady : s.Steady (.loadStatic entries)) : Moves s (s.act (.loadStatic entries)) := by
  simp only [act, loadStatic]
  cases hrows : entries.mapM parseStatic with
  | none => exact Moves.refl s
  | some rows =>
    simp only [Option.map_some, Option.getD_some]
    split
    · next hsame =>
        refine Or.inr ⟨rfl, rfl, rfl, rfl, ?_, fun _ => rfl⟩
        intro p
        dsimp only
        rw [winnersOf_rows (mapM_parseStatic_width hrows), ← hsteady rows hrows hsame p,
          Option.map_map]
        rfl
    · exact Or.inl (Nat.lt_succ_self _)

/-- An import either succeeds, or has nothing to drop. -/
theorem loadKernel_moves {found : List KernelRoute} (hsteady : s.Steady (.loadKernel found)) :
    Moves s (s.act (.loadKernel found)) := by
  rw [act, loadKernel]
  split
  · exact Moves.refl s
  · next himport =>
      have hloaded := loaded_kernel (found.filterMap fun k => k.pfx.map fun p => (p, k))
      simp only
      split
      · exact Or.inl (Nat.lt_succ_self _)
      · next hbad =>
          have hwide : ∃ k ∈ found, k.pfx.isSome = true ∧ k.gateway.length ∉ nexthopWidths := by
            simp only [List.all_eq_true, not_forall, List.mem_filterMap] at hbad
            obtain ⟨⟨p, k⟩, ⟨k', hk', hpair⟩, hwidth⟩ := hbad
            obtain ⟨p', hp', heq⟩ := Option.map_eq_some_iff.mp hpair
            simp only [Prod.mk.injEq] at heq
            obtain ⟨rfl, rfl⟩ := heq
            refine ⟨k', hk', by rw [hp']; rfl, ?_⟩
            simpa using hwidth
          have himport' : s.kernelImport = true := by simpa using himport
          refine Or.inr ⟨rfl, rfl, rfl, rfl, fun _ => rfl, ?_⟩
          intro p
          dsimp only
          rw [hloaded.unselected, hsteady himport' hwide p]

/-- Dropping no kernel route drops no winner. -/
theorem clearKernel_moves (h : s.Tidy) : Moves s (s.act .clearKernel) := by
  by_cases hdropped : (s.kernel.values.map RouteTable.routeCount).sum = 0
  · have hgeneration : (s.act .clearKernel).generation = s.generation := by
      simp only [act, clearKernel, hdropped, ne_eq, not_true_eq_false, if_false]
    refine Or.inr ⟨hgeneration, rfl, rfl, rfl, fun _ => rfl, ?_⟩
    intro p
    change (winnersOf freshTables p.afi p).map reply = _
    have hnone : winnersOf s.kernel p.afi p = none := by
      rw [winnersOf]
      cases ht : s.kernel.get? p.afi with
      | none => rfl
      | some t =>
        have hmem : t ∈ s.kernel.values := Dict.mem_values_iff.mpr ⟨p.afi, ht⟩
        have hzero : t.routeCount = 0 :=
          List.sum_eq_zero_iff_forall_eq_nat.mp hdropped _ (List.mem_map_of_mem hmem)
        apply Option.eq_none_iff_forall_ne_some.mpr
        intro r hr
        have hroute := h.elected _ t ht p r hr
        rw [h.counted _ t ht hzero p] at hroute
        exact absurd hroute List.not_mem_nil
    rw [hnone, loaded_fresh.unselected]
  · left
    simp only [act, clearKernel, hdropped, ne_eq, not_false_eq_true, if_true]
    exact Nat.lt_succ_self _

theorem act_moves (h : s.Tidy) {op : Op} (hsteady : s.Steady op) : Moves s (s.act op) := by
  cases op with
  | addStatic text entry =>
    simp only [act, addStatic]
    cases parsePrefix text with
    | none => exact Moves.refl s
    | some p =>
      cases packNexthop entry.nextHop with
      | none => exact Moves.refl s
      | some packed =>
        simp only
        split
        · exact Moves.refl s
        · exact Or.inl (Nat.lt_succ_self _)
  | removeStatic text => exact removeStatic_moves h text
  | loadStatic entries => exact loadStatic_moves hsteady
  | loadKernel found => exact loadKernel_moves hsteady
  | clearKernel => exact clearKernel_moves h
  | setEnabled value =>
    rw [act, setEnabled]
    split
    · exact Moves.refl s
    · exact Or.inl (Nat.lt_succ_self _)
  | setKernelImport value =>
    rw [act, setKernelImport]
    split
    · exact Moves.refl s
    · exact Or.inl (Nat.lt_succ_self _)
  | setResolveViaDefault value =>
    rw [act, setResolveViaDefault]
    split
    · exact Moves.refl s
    · exact Or.inl (Nat.lt_succ_self _)
  | setUseRib value => exact absurd hsteady id
  | rib op => exact absurd hsteady id

theorem Steady.built {op : Op} (h : s.Steady op) : op.Built := by
  cases op with
  | rib op => exact absurd h id
  | addStatic _ _ => trivial
  | removeStatic _ => trivial
  | loadStatic _ => trivial
  | loadKernel _ => trivial
  | clearKernel => trivial
  | setEnabled _ => trivial
  | setKernelImport _ => trivial
  | setResolveViaDefault _ => trivial
  | setUseRib _ => trivial

theorem run_moves (hs : s.Valid) (ht : s.Tidy) {ops : List Op} (hops : s.Steadily ops) :
    Moves s (s.run ops) ∧ (s.run ops).Valid := by
  induction ops generalizing s with
  | nil => exact ⟨Moves.refl s, hs⟩
  | cons op rest ih =>
    obtain ⟨hsteady, hrest⟩ := hops
    obtain ⟨hmoves, hvalid⟩ := ih (act_valid hs hsteady.built) (act_tidy ht op) hrest
    exact ⟨(act_moves ht hsteady).trans hmoves, hvalid⟩

theorem new_tidy (globalRib : Option GlobalRib) : (Resolver.new globalRib).Tidy := by
  refine ⟨?_, loaded_fresh.counted, loaded_fresh.tidy.1⟩
  intro afi t ht
  change freshTables.get? afi = some t at ht
  simp only [freshTables, Dict.get?_set, Dict.get?_empty] at ht
  split at ht
  · cases ht
    rfl
  · split at ht
    · cases ht
      rfl
    · exact absurd ht (by simp)

theorem run_tidy (h : s.Tidy) (ops : List Op) : (s.run ops).Tidy := by
  induction ops generalizing s with
  | nil => exact h
  | cons op rest ih => exact ih (act_tidy h op)

/-- Between two moments of a run whose calls are steady, an answer that is not what it
was comes with a generation that is not what it was. -/
theorem run_generation {globalRib : Option GlobalRib}
    (hrib : ∀ g ∈ globalRib, ∃ keys, GlobalRib.new keys = some g) {before ops : List Op}
    (hbefore : ∀ op ∈ before, op.Built)
    (hops : ((Resolver.new globalRib).run before).Steadily ops) {afi : Nat} {addr : Bytes}
    {protocol : Option Nat}
    (hdiffers : ((Resolver.new globalRib).run (before ++ ops)).resolve afi addr protocol ≠
      ((Resolver.new globalRib).run before).resolve afi addr protocol) :
    ((Resolver.new globalRib).run (before ++ ops)).generation ≠
      ((Resolver.new globalRib).run before).generation := by
  have hvalid := run_valid (new_valid hrib) hbefore
  have htidy := run_tidy (new_tidy globalRib) before
  have hrun : (Resolver.new globalRib).run (before ++ ops) =
      ((Resolver.new globalRib).run before).run ops := List.foldl_append
  rw [hrun] at hdiffers ⊢
  obtain ⟨hmoves, hvalid'⟩ := run_moves hvalid htidy hops
  rcases hmoves with hlt | ⟨-, halike⟩
  · exact Nat.ne_of_gt hlt
  · exact absurd (halike.resolve hvalid hvalid' afi addr protocol) hdiffers

/-- Two spellings of one prefix, with two next hops. -/
def firstSpelling : String × StaticEntry := ("10.0.0.0/8", ⟨"192.0.2.1", 1, 0⟩)

def secondSpelling : String × StaticEntry := ("10.1.0.0/8", ⟨"192.0.2.2", 1, 0⟩)

/-- A section with the second spelling alone has other rows than one with the first. -/
theorem run_generation_respelled :
    ((Resolver.new none).run [.loadStatic [firstSpelling], .loadStatic [secondSpelling]]).generation ≠
      ((Resolver.new none).run [.loadStatic [firstSpelling]]).generation := by
  have hrows : [secondSpelling].mapM parseStatic =
      some [(⟨AFI_IP, 8, [10, 0, 0, 0], by decide, by decide, by decide, by decide⟩,
        [192, 0, 2, 2], 1, 0)] := by
    decide +kernel
  have hsteady : ((Resolver.new none).run [.loadStatic [firstSpelling]]).Steadily
      [.loadStatic [secondSpelling]] := by
    refine ⟨?_, trivial⟩
    intro rows hsome hsame
    rw [hrows, Option.some.injEq] at hsome
    subst hsome
    exact absurd hsame (by decide +kernel)
  exact @run_generation none (by simp) [.loadStatic [firstSpelling]]
    [.loadStatic [secondSpelling]] (by simp [Op.Built]) hsteady AFI_IP [10, 1, 2, 3] none
    (by decide +kernel)

/-- The section reloaded with its two rows the other way round: another next hop
answers, and the generation is what it was. -/
theorem not_run_generation :
    ((Resolver.new none).run [.loadStatic [firstSpelling, secondSpelling],
        .loadStatic [secondSpelling, firstSpelling]]).resolve AFI_IP [10, 1, 2, 3] none ≠
      ((Resolver.new none).run [.loadStatic [firstSpelling, secondSpelling]]).resolve AFI_IP
        [10, 1, 2, 3] none ∧
    ((Resolver.new none).run [.loadStatic [firstSpelling, secondSpelling],
        .loadStatic [secondSpelling, firstSpelling]]).generation =
      ((Resolver.new none).run [.loadStatic [firstSpelling, secondSpelling]]).generation := by
  constructor
  · decide +kernel
  · decide +kernel

end Resolver

end Rib

end Packets
