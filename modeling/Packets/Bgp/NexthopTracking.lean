/-
Next-hop tracking of the Loc-RIB.

`revalidate` compares each new answer with the one cached for the next hop.  An arrival
overwrites the cache, so a path that was given an older answer can be masked by it.
-/
import Packets.Bgp.LocRibInvariant

namespace Packets

namespace LocRib

/-- A pass keeps the destinations, and queues each one it changes. -/
structure Requeues (s s' : LocRib) : Prop where
  dests : s'.dests = s.dests
  afi : s'.afi = s.afi
  mono : ∀ d ∈ s.queue, d ∈ s'.queue
  changed : ∀ {q d}, s.dests.get? q = some d → s'.pathsFor q ≠ s.pathsFor q → d ∈ s'.queue

theorem Requeues.of_same {s s' : LocRib} (ht : SameTable s s') : Requeues s s' where
  dests := ht.dests
  afi := ht.afi
  mono d hd := by rwa [ht.queue]
  changed _ hne := absurd (ht.pathsFor _) hne

theorem Requeues.trans {s s' s'' : LocRib} (h : Requeues s s')
    (h' : Requeues s' s'') : Requeues s s'' where
  dests := h'.dests.trans h.dests
  afi := h'.afi.trans h.afi
  mono d hd := h'.mono d (h.mono d hd)
  changed {q d} hd hne := by
    by_cases hfirst : s'.pathsFor q = s.pathsFor q
    · rw [← hfirst] at hne
      exact h'.changed (by rwa [h.dests]) hne
    · exact h'.mono d (h.changed hd hfirst)

theorem pruneNexthop_sameTable (s : LocRib) (nexthop : Bytes)
    (dests : Dict Prefix DestId) : SameTable s (s.pruneNexthop nexthop dests) :=
  fileNexthop_sameTable s nexthop _

theorem files_pruneNexthop {s : LocRib} {nexthop nh : Bytes} {dests : Dict Prefix DestId}
    {q : Prefix} {x : DestId} (hget : s.nhDests.get? nexthop = some dests) :
    (s.pruneNexthop nexthop dests).Files nh q x ↔
      s.Files nh q x ∧ (nh = nexthop → s.dests.get? q = some x ∧
        usesNexthop (s.cell x) nexthop = true) := by
  unfold pruneNexthop
  rw [files_fileNexthop]
  by_cases hnh : nh = nexthop
  · subst hnh
    simp only [↓reduceIte, Dict.get?_filter, Option.filter_eq_some_iff,
      Bool.and_eq_true, beq_iff_eq, Files, hget, Option.some.injEq, true_implies]
    constructor
    · rintro ⟨hx, hlive⟩
      exact ⟨⟨dests, rfl, hx⟩, hlive⟩
    · rintro ⟨⟨found, rfl, hx⟩, hlive⟩
      exact ⟨hx, hlive⟩
  · simp [hnh]

theorem pruneNexthop_wf {s : LocRib} (hw : s.Wf) {nexthop : Bytes} {dests : Dict Prefix DestId}
    (hget : s.nhDests.get? nexthop = some dests) : (s.pruneNexthop nexthop dests).Wf := by
  have ht := pruneNexthop_sameTable s nexthop dests
  constructor
  · intro q x hx
    rw [ht.dests] at hx
    rw [ht.heap]
    exact hw.allocated hx
  · intro q x hx
    rw [ht.dests] at hx
    rw [ht.cell]
    exact hw.pfx_eq hx
  · intro q x hx hq
    rw [ht.dests] at hx
    rw [ht.cell] at hq
    rw [ht.queue]
    exact hw.queued hx hq
  · intro q x hx p hp hnh
    rw [ht.dests] at hx
    rw [ht.cell] at hp
    refine Or.inr ((files_pruneNexthop hget).mpr ⟨hw.files hx hp hnh, ?_⟩)
    intro heq
    exact ⟨hx, List.any_eq_true.mpr ⟨p, hp, by simp [heq]⟩⟩
  · have hne : ([] : Bytes) ≠ nexthop := by
      rintro rfl
      rw [hw.named] at hget
      simp at hget
    unfold pruneNexthop fileNexthop
    split <;> simp [hne, hw.named]

theorem nhState_pruneNexthop {s : LocRib} {nexthop nh : Bytes} {dests : Dict Prefix DestId}
    {q : Prefix} {x : DestId} (h : (s.pruneNexthop nexthop dests).Files nh q x) :
    (s.pruneNexthop nexthop dests).nhState.get? nh = s.nhState.get? nh :=
  nhState_fileNexthop h

theorem pruneNexthop_of_ne (s : LocRib) (dests : Dict Prefix DestId)
    {nexthop nh : Bytes} (hne : nh ≠ nexthop) :
    (s.pruneNexthop nexthop dests).nhDests.get? nh = s.nhDests.get? nh ∧
      (s.pruneNexthop nexthop dests).nhState.get? nh = s.nhState.get? nh := by
  unfold pruneNexthop fileNexthop
  split <;> simp [hne]

/-- A path with the answer of its next hop. -/
def reanswer (nexthop : Bytes) (answer : Bool × Nat) (p : BgpPath) : BgpPath :=
  if p.attrs.nexthop = nexthop then BgpPath.setAnswer answer p else p

@[simp] theorem reanswer_attrs (nexthop : Bytes) (answer : Bool × Nat)
    (p : BgpPath) : (reanswer nexthop answer p).attrs = p.attrs := by
  unfold reanswer
  split <;> rfl

theorem setAnswers_paths (nexthop : Bytes) (answer : Bool × Nat) (dest : BgpDest) :
    (setAnswers nexthop answer dest).paths = dest.paths.map (reanswer nexthop answer) :=
  rfl

theorem map_eq_self {f : BgpPath → BgpPath} {paths : List BgpPath}
    (h : ∀ p ∈ paths, f p = p) : paths.map f = paths :=
  (List.map_congr_left h).trans (List.map_id paths)

/-- When no path disagrees, giving out the answer changes nothing. -/
theorem map_reanswer_of_not_moves {nexthop : Bytes} {answer : Bool × Nat}
    {dest : BgpDest} (h : ¬ answerMoves nexthop answer dest = true) :
    dest.paths.map (reanswer nexthop answer) = dest.paths := by
  apply map_eq_self
  intro p hp
  unfold reanswer
  split
  · rename_i hnh
    have hsame : p.answer = answer := by
      by_contra hne
      exact h (List.any_eq_true.mpr ⟨p, hp, by simp [hnh, hne]⟩)
    rw [← hsame]
    rfl
  · rfl

theorem revalidateDest_spec (nexthop : Bytes) (answer : Bool × Nat) {s : LocRib}
    (hw : s.Wf) (entry : Prefix × DestId) :
    (revalidateDest nexthop answer s entry).Wf ∧
      SameNexthops s (revalidateDest nexthop answer s entry) ∧
      Requeues s (revalidateDest nexthop answer s entry) ∧
      ∀ q, (revalidateDest nexthop answer s entry).pathsFor q =
        if q = entry.1 ∧ s.dests.get? q = some entry.2 then
          (s.pathsFor q).map (reanswer nexthop answer)
        else s.pathsFor q := by
  obtain ⟨pfx, d⟩ := entry
  unfold revalidateDest
  split
  · rename_i hgone
    refine ⟨hw, SameNexthops.refl s, Requeues.of_same (SameTable.refl s), ?_⟩
    intro q
    split
    · rename_i hq
      rw [hq.1] at hq
      exact absurd hq.2 hgone
    · rfl
  · rename_i hlive
    have hd : s.dests.get? pfx = some d := not_not.mp hlive
    split
    · have hset : (s.setDest d (setAnswers nexthop answer (s.cell d))).Wf := by
        refine hw.setDest d _ _ (fun _ _ h => h) rfl Or.inl ?_
        intro q hx p hp hnh
        rw [setAnswers_paths] at hp
        obtain ⟨old, hold, rfl⟩ := List.mem_map.mp hp
        rw [reanswer_attrs] at hnh ⊢
        exact Or.inr (hw.files hx hold hnh)
      have hfor : ∀ q, ((s.setDest d (setAnswers nexthop answer (s.cell d))).enqueue
          d).pathsFor q = if q = pfx ∧ s.dests.get? q = some d then
            (s.pathsFor q).map (reanswer nexthop answer) else s.pathsFor q := by
        intro q
        rw [pathsFor_enqueue, Wf.pathsFor_setDest hw hd, setAnswers_paths]
        by_cases hq : q = pfx
        · rw [if_pos hq, if_pos ⟨hq, hq ▸ hd⟩, hq, pathsFor_of_dests hd]
        · rw [if_neg hq, if_neg fun h => hq h.1]
      refine ⟨hset.enqueue d, ?_, ?_, hfor⟩
      · have hn : SameNexthops s (s.setDest d (setAnswers nexthop answer (s.cell d))) := ⟨rfl, rfl⟩
        exact hn.trans (enqueue_sameNexthops _ d)
      · refine ⟨enqueue_dests _ d, enqueue_afi _ d, fun x hx => mem_queue_enqueue_of_mem hx, ?_⟩
        intro q x hx hne
        rw [hfor q] at hne
        split at hne
        · rename_i hq
          rw [hq.2] at hx
          have hdx : d = x := Option.some.inj hx
          rw [← hdx]
          refine mem_queue_enqueue_self fun hqueued => ?_
          rw [cell_setDest, if_pos rfl] at hqueued
          exact hw.mem_queue hd hqueued
        · exact absurd rfl hne
    · rename_i hsame
      refine ⟨hw, SameNexthops.refl s, Requeues.of_same (SameTable.refl s), ?_⟩
      intro q
      split
      · rename_i hq
        rw [pathsFor_of_dests hq.2]
        exact (map_reanswer_of_not_moves hsame).symm
      · rfl

/-- The inner loop: every destination filed under the next hop is answered. -/
theorem foldl_revalidateDest_spec (nexthop : Bytes) (answer : Bool × Nat)
    (entries : List (Prefix × DestId)) (hnodup : (entries.map Prod.fst).Nodup)
    {s : LocRib} (hw : s.Wf) :
    (entries.foldl (revalidateDest nexthop answer) s).Wf ∧
      SameNexthops s (entries.foldl (revalidateDest nexthop answer) s) ∧
      Requeues s (entries.foldl (revalidateDest nexthop answer) s) ∧
      ∀ q, ((∃ d, (q, d) ∈ entries ∧ s.dests.get? q = some d) →
          (entries.foldl (revalidateDest nexthop answer) s).pathsFor q =
            (s.pathsFor q).map (reanswer nexthop answer)) ∧
        ((¬ ∃ d, (q, d) ∈ entries ∧ s.dests.get? q = some d) →
          (entries.foldl (revalidateDest nexthop answer) s).pathsFor q = s.pathsFor q) := by
  induction entries generalizing s with
  | nil =>
    exact ⟨hw, SameNexthops.refl s, Requeues.of_same (SameTable.refl s),
      fun q => ⟨fun ⟨_, hmem, _⟩ => absurd hmem (by simp), fun _ => rfl⟩⟩
  | cons entry entries ih =>
    simp only [List.map_cons, List.nodup_cons] at hnodup
    obtain ⟨hw₁, hn₁, hr₁, hfor₁⟩ := revalidateDest_spec nexthop answer hw entry
    obtain ⟨hw₂, hn₂, hr₂, hfor₂⟩ := ih hnodup.2 hw₁
    refine ⟨hw₂, hn₁.trans hn₂, hr₁.trans hr₂, ?_⟩
    intro q
    obtain ⟨hin, hout⟩ := hfor₂ q
    rw [hr₁.dests] at hin hout
    rw [hfor₁ q] at hin hout
    rw [List.foldl_cons]
    by_cases hq : q = entry.1
    · have hrest : ¬ ∃ d, (q, d) ∈ entries ∧ s.dests.get? q = some d := by
        rintro ⟨d, hmem, _⟩
        exact hnodup.1 (List.mem_map.mpr ⟨(q, d), hmem, hq⟩)
      constructor
      · rintro ⟨d, hmem, hd⟩
        rw [hout hrest, if_pos]
        rcases List.mem_cons.mp hmem with heq | hmem
        · exact ⟨hq, by rw [hd, ← heq]⟩
        · exact absurd ⟨d, hmem, hd⟩ hrest
      · intro hnot
        rw [hout hrest, if_neg]
        rintro ⟨_, hlive⟩
        exact hnot ⟨entry.2, by simp [hq], hlive⟩
    · have hhead : ∀ d, (q, d) ≠ entry := by
        rintro d rfl
        exact hq rfl
      rw [if_neg fun h => hq h.1] at hin hout
      constructor
      · rintro ⟨d, hmem, hd⟩
        rcases List.mem_cons.mp hmem with heq | hmem
        · exact absurd heq (hhead d)
        · exact hin ⟨d, hmem, hd⟩
      · intro hnot
        exact hout fun ⟨d, hmem, hd⟩ => hnot ⟨d, List.mem_cons_of_mem entry hmem, hd⟩

/-- What a pass makes of a path: its next hop's answer, unless the cached answer
already was that one. -/
def refresh (check : Check) (afi : Nat) (cached : Dict Bytes (Bool × Nat))
    (nexthops : List Bytes) (p : BgpPath) : BgpPath :=
  if p.attrs.nexthop ∈ nexthops ∧
      cached.get? p.attrs.nexthop ≠ some (check afi p.attrs.nexthop) then
    BgpPath.setAnswer (check afi p.attrs.nexthop) p
  else p

@[simp] theorem refresh_attrs (check : Check) (afi : Nat)
    (cached : Dict Bytes (Bool × Nat)) (nexthops : List Bytes) (p : BgpPath) :
    (refresh check afi cached nexthops p).attrs = p.attrs := by
  unfold refresh
  split <;> rfl

theorem map_eq_self_of_unused {s : LocRib} (hw : s.Wf) {nexthop : Bytes} {answer : Bool × Nat}
    {dests : Dict Prefix DestId} (hget : s.nhDests.get? nexthop = some dests) {q : Prefix}
    (hnot : ¬ ∃ d, (q, d) ∈ dests.entries ∧ s.dests.get? q = some d) :
    (s.pathsFor q).map (reanswer nexthop answer) = s.pathsFor q := by
  apply map_eq_self
  intro p hp
  unfold reanswer
  split
  · rename_i hnh
    obtain ⟨d, hd, hpd⟩ := mem_pathsFor.mp hp
    have hne : p.attrs.nexthop ≠ [] := by
      intro hnil
      rw [← hnh, hnil, hw.named] at hget
      simp at hget
    obtain ⟨found, hfound, hx⟩ := hw.files hd hpd hne
    rw [hnh, hget, Option.some.injEq] at hfound
    subst hfound
    exact absurd ⟨d, Dict.mem_entries_iff.mpr hx, hd⟩ hnot
  · rfl

/-- One next hop of a pass: what becomes of its paths and of the indexes. -/
theorem revalidateNexthop_spec (check : Check) {s : LocRib} (hw : s.Wf) {nexthop : Bytes}
    {dests : Dict Prefix DestId} (hget : s.nhDests.get? nexthop = some dests) :
    (revalidateNexthop check s nexthop).Wf ∧ Requeues s (revalidateNexthop check s nexthop) ∧
      (∀ q, (revalidateNexthop check s nexthop).pathsFor q =
        (s.pathsFor q).map (refresh check s.afi s.nhState [nexthop])) ∧
      (∀ nh, nh ≠ nexthop →
        (revalidateNexthop check s nexthop).nhDests.get? nh = s.nhDests.get? nh ∧
        (revalidateNexthop check s nexthop).nhState.get? nh = s.nhState.get? nh) ∧
      ∀ q x, (revalidateNexthop check s nexthop).Files nexthop q x →
        (revalidateNexthop check s nexthop).nhState.get? nexthop = some (check s.afi nexthop) := by
  unfold revalidateNexthop
  rw [hget]
  dsimp only
  split
  · rename_i hcached
    have ht := pruneNexthop_sameTable s nexthop dests
    refine ⟨pruneNexthop_wf hw hget, Requeues.of_same ht, ?_,
      fun nh hne => pruneNexthop_of_ne s dests hne, ?_⟩
    · intro q
      rw [ht.pathsFor]
      refine (map_eq_self ?_).symm
      intro p _
      unfold refresh
      split
      · rename_i hp
        have hnh : p.attrs.nexthop = nexthop := List.mem_singleton.mp hp.1
        rw [hnh] at hp
        exact absurd hcached hp.2
      · rfl
    · intro q x hfiles
      rw [nhState_pruneNexthop hfiles]
      exact hcached
  · rename_i hmoved
    let s₁ := { s with nhState := s.nhState.set nexthop (check s.afi nexthop) }
    have ht₁ : SameTable s s₁ := ⟨rfl, rfl, rfl, rfl⟩
    have hw₁ : s₁.Wf := ⟨hw.allocated, hw.pfx_eq, hw.queued, hw.filed, hw.named⟩
    obtain ⟨hw₂, hn₂, hr₂, hfor₂⟩ := foldl_revalidateDest_spec nexthop
      (check s.afi nexthop) dests.entries dests.nodup hw₁
    have hget₂ : (dests.entries.foldl
        (revalidateDest nexthop (check s.afi nexthop)) s₁).nhDests.get? nexthop = some dests := by
      rw [hn₂.nhDests]
      exact hget
    have ht₃ := pruneNexthop_sameTable (dests.entries.foldl
      (revalidateDest nexthop (check s.afi nexthop)) s₁) nexthop dests
    refine ⟨pruneNexthop_wf hw₂ hget₂,
      ((Requeues.of_same ht₁).trans hr₂).trans (Requeues.of_same ht₃), ?_, ?_, ?_⟩
    · intro q
      have hmap : (s.pathsFor q).map (refresh check s.afi s.nhState [nexthop]) =
          (s.pathsFor q).map (reanswer nexthop (check s.afi nexthop)) := by
        apply List.map_congr_left
        intro p _
        unfold refresh reanswer
        by_cases hnh : p.attrs.nexthop = nexthop
        · simp [hnh, hmoved]
        · simp [hnh]
      rw [ht₃.pathsFor, hmap]
      by_cases hfiled : ∃ d, (q, d) ∈ dests.entries ∧ s.dests.get? q = some d
      · exact (hfor₂ q).1 hfiled
      · rw [map_eq_self_of_unused hw hget hfiled]
        exact (hfor₂ q).2 hfiled
    · intro nh hne
      obtain ⟨hdests, hstate⟩ := pruneNexthop_of_ne (dests.entries.foldl
        (revalidateDest nexthop (check s.afi nexthop)) s₁) dests hne
      rw [hdests, hstate, hn₂.nhDests, hn₂.nhState]
      simp [s₁, hne]
    · intro q x hfiles
      rw [nhState_pruneNexthop hfiles, hn₂.nhState]
      simp [s₁]

/-- The outer loop over the next hops known when the pass began. -/
theorem foldl_revalidateNexthop_spec (check : Check) (nexthops : List Bytes)
    (hnodup : nexthops.Nodup) {s : LocRib} (hw : s.Wf)
    (hfiled : ∀ nh ∈ nexthops, ∃ dests, s.nhDests.get? nh = some dests) :
    (nexthops.foldl (revalidateNexthop check) s).Wf ∧
      Requeues s (nexthops.foldl (revalidateNexthop check) s) ∧
      (∀ q, (nexthops.foldl (revalidateNexthop check) s).pathsFor q =
        (s.pathsFor q).map (refresh check s.afi s.nhState nexthops)) ∧
      (∀ nh, nh ∉ nexthops →
        (nexthops.foldl (revalidateNexthop check) s).nhDests.get? nh = s.nhDests.get? nh ∧
        (nexthops.foldl (revalidateNexthop check) s).nhState.get? nh = s.nhState.get? nh) ∧
      ∀ nh ∈ nexthops, ∀ q x,
        (nexthops.foldl (revalidateNexthop check) s).Files nh q x →
          (nexthops.foldl (revalidateNexthop check) s).nhState.get? nh = some (check s.afi nh) := by
  induction nexthops generalizing s with
  | nil =>
    refine ⟨hw, Requeues.of_same (SameTable.refl s), ?_, fun _ _ => ⟨rfl, rfl⟩,
      fun nh hnh => absurd hnh (by simp)⟩
    intro q
    exact (map_eq_self fun p _ => by simp [refresh]).symm
  | cons nexthop nexthops ih =>
    simp only [List.nodup_cons] at hnodup
    obtain ⟨dests, hget⟩ := hfiled nexthop List.mem_cons_self
    obtain ⟨hw₁, hr₁, hfor₁, hother₁, hnow₁⟩ := revalidateNexthop_spec check hw hget
    have hne : ∀ nh ∈ nexthops, nh ≠ nexthop := by
      rintro nh hmem rfl
      exact hnodup.1 hmem
    have hfiled₁ : ∀ nh ∈ nexthops,
        ∃ dests, (revalidateNexthop check s nexthop).nhDests.get? nh = some dests := by
      intro nh hmem
      rw [(hother₁ nh (hne nh hmem)).1]
      exact hfiled nh (List.mem_cons_of_mem nexthop hmem)
    obtain ⟨hw₂, hr₂, hfor₂, hother₂, hnow₂⟩ := ih hnodup.2 hw₁ hfiled₁
    refine ⟨hw₂, hr₁.trans hr₂, ?_, ?_, ?_⟩
    · intro q
      rw [List.foldl_cons, hfor₂ q, hfor₁ q, List.map_map, hr₁.afi]
      apply List.map_congr_left
      intro p _
      simp only [Function.comp_apply, refresh, List.mem_cons]
      by_cases hp : p.attrs.nexthop = nexthop
      · have hrest : nexthop ∉ nexthops := hnodup.1
        by_cases hmoved : s.nhState.get? nexthop = some (check s.afi nexthop)
        · simp [hp, hmoved, hrest]
        · simp [hp, hmoved, hrest, BgpPath.setAnswer]
      · by_cases hmem : p.attrs.nexthop ∈ nexthops
        · simp [hp, hmem, (hother₁ p.attrs.nexthop hp).2]
        · simp [hp, hmem]
    · intro nh hnh
      simp only [List.mem_cons, not_or] at hnh
      obtain ⟨hdests, hstate⟩ := hother₂ nh hnh.2
      rw [List.foldl_cons, hdests, hstate]
      exact hother₁ nh hnh.1
    · intro nh hnh q x hx
      rcases List.mem_cons.mp hnh with rfl | hmem
      · obtain ⟨hdests, hstate⟩ := hother₂ nh hnodup.1
        rw [List.foldl_cons, hstate]
        refine hnow₁ q x ?_
        rw [List.foldl_cons, Files, hdests] at hx
        exact hx
      · rw [List.foldl_cons, hnow₂ nh hmem q x hx, hr₁.afi]

theorem revalidate_spec {s : LocRib} (hw : s.Wf) (check : Check) :
    (s.revalidate check).Wf ∧ Requeues s (s.revalidate check) ∧
      (∀ q, (s.revalidate check).pathsFor q =
        (s.pathsFor q).map (refresh check s.afi s.nhState s.nhDests.keys)) ∧
      ∀ nh q x, (s.revalidate check).Files nh q x →
        (s.revalidate check).nhState.get? nh = some (check s.afi nh) := by
  obtain ⟨hw', hr, hfor, hother, hnow⟩ := foldl_revalidateNexthop_spec check
    s.nhDests.keys s.nhDests.nodup hw (fun nh hnh => Dict.mem_keys_iff.mp hnh)
  refine ⟨hw', hr, hfor, ?_⟩
  intro nh q x hx
  by_cases hmem : nh ∈ s.nhDests.keys
  · exact hnow nh hmem q x hx
  · obtain ⟨dests, hdests, _⟩ := hx
    rw [revalidate, (hother nh hmem).1] at hdests
    exact absurd (Dict.mem_keys_iff.mpr ⟨dests, hdests⟩) hmem

/-- Every held path with a next hop carries the resolver's answer for it. -/
def Current (check : Check) (s : LocRib) : Prop :=
  ∀ q, ∀ p ∈ s.pathsFor q, p.attrs.nexthop ≠ [] → p.answer = check s.afi p.attrs.nexthop

/-- No path disagrees with a resolver that agrees with the cache. -/
def Unmasked (check : Check) (s : LocRib) : Prop :=
  ∀ q, ∀ p ∈ s.pathsFor q, p.attrs.nexthop ≠ [] →
    s.nhState.get? p.attrs.nexthop = some (check s.afi p.attrs.nexthop) →
      p.answer = check s.afi p.attrs.nexthop

theorem nexthop_mem_keys {s : LocRib} (hw : s.Wf) {q : Prefix} {p : BgpPath}
    (hp : p ∈ s.pathsFor q) (hnh : p.attrs.nexthop ≠ []) : p.attrs.nexthop ∈ s.nhDests.keys := by
  obtain ⟨d, hd, hpd⟩ := mem_pathsFor.mp hp
  obtain ⟨dests, hdests, _⟩ := hw.files hd hpd hnh
  exact Dict.mem_keys_iff.mpr ⟨dests, hdests⟩

/-- A pass leaves every path current exactly when no path was masked. -/
theorem current_revalidate_iff {s : LocRib} (hw : s.Wf) (check : Check) :
    Current check (s.revalidate check) ↔ Unmasked check s := by
  obtain ⟨_, hr, hfor, _⟩ := revalidate_spec hw check
  constructor
  · intro hcurrent q p hp hnh hcached
    have hsame : refresh check s.afi s.nhState s.nhDests.keys p = p := by simp [refresh, hcached]
    have hmem : p ∈ (s.revalidate check).pathsFor q := by
      rw [hfor q]
      exact List.mem_map.mpr ⟨p, hp, hsame⟩
    have hp' := hcurrent q p hmem hnh
    rwa [hr.afi] at hp'
  · intro hun q p' hp' hnh
    rw [hfor q] at hp'
    obtain ⟨p, hp, rfl⟩ := List.mem_map.mp hp'
    rw [refresh_attrs] at hnh ⊢
    rw [hr.afi]
    have hkey := nexthop_mem_keys hw hp hnh
    by_cases hcached : s.nhState.get? p.attrs.nexthop = some (check s.afi p.attrs.nexthop)
    · have hsame : refresh check s.afi s.nhState s.nhDests.keys p = p := by
        simp [refresh, hcached]
      rw [hsame]
      exact hun q p hp hnh hcached
    · simp [refresh, hkey, hcached, BgpPath.setAnswer, BgpPath.answer]

/-- The calls a Loc-RIB receives. -/
inductive Op where
  | addPath (peer : PeerRef) (pfx : Prefix) (arrival : Arrival)
  | removePath (peer : PeerRef) (pfx : Prefix) (pathId : Nat)
  | removePeer (peer : PeerRef)
  | revalidate (check : Check)
  | reselect (limit : Int)
  | setConfig (config : BestpathConfig)
  | clear

/-- One call.  An arrival that raises leaves the table as it was. -/
def step (s : LocRib) : Op → LocRib
  | .addPath peer pfx arrival => (s.addPath peer pfx arrival).getD s
  | .removePath peer pfx pathId => s.removePath peer pfx pathId
  | .removePeer peer => s.removePeer peer
  | .revalidate check => s.revalidate check
  | .reselect limit => s.reselect limit
  | .setConfig config => s.setConfig config
  | .clear => s.clear

def run (s : LocRib) (ops : List Op) : LocRib := ops.foldl step s

theorem step_wf {s : LocRib} (hw : s.Wf) (op : Op) : (s.step op).Wf := by
  cases op with
  | addPath peer pfx arrival =>
    simp only [step]
    cases hadd : s.addPath peer pfx arrival with
    | none => exact hw
    | some s' => exact (addPath_spec hw hadd).1
  | removePath peer pfx pathId => exact (removePath_spec hw peer pfx pathId).1
  | removePeer peer => exact (removePeer_spec hw peer).1
  | revalidate check => exact (revalidate_spec hw check).1
  | reselect limit => exact (reselect_spec hw limit).1
  | setConfig config => exact (setConfig_spec hw config).1
  | clear => exact clear_wf s

theorem run_wf {s : LocRib} (hw : s.Wf) (ops : List Op) : (s.run ops).Wf := by
  induction ops generalizing s with
  | nil => exact hw
  | cons op ops ih => exact ih (step_wf hw op)

/-- The paths of a prefix an arrival under this name does not replace. -/
def staying (s : LocRib) (peer : PeerRef) (pfx : Prefix) (pathId : Nat)
    (q : Prefix) : List BgpPath :=
  if q = pfx then (s.pathsFor q).eraseP fun p => p.isFrom peer pathId
  else s.pathsFor q

/-- An arrival that is taken brings the answer that the other paths through its
next hop already carry; the other calls are unrestricted. -/
def Meets (s : LocRib) : Op → Prop
  | .addPath peer pfx a => pfx.afi = s.afi →
      ∀ q, ∀ p ∈ s.staying peer pfx a.pathId q,
        p.attrs.nexthop ≠ [] → p.attrs.nexthop = a.attrs.nexthop →
          p.answer = (a.resolved, a.igpMetric)
  | _ => True

theorem mem_of_mem_staying {s : LocRib} {peer : PeerRef} {pfx q : Prefix} {pathId : Nat}
    {p : BgpPath} (h : p ∈ s.staying peer pfx pathId q) : p ∈ s.pathsFor q := by
  unfold staying at h
  split at h
  · exact List.mem_of_mem_eraseP h
  · exact h

/-- Every call of a run meets the condition in the state it finds. -/
def RunMeets : LocRib → List Op → Prop
  | _, [] => True
  | s, op :: ops => s.Meets op ∧ RunMeets (s.step op) ops

/-- Every held path carries the answer cached for its next hop. -/
def Cached (s : LocRib) : Prop :=
  ∀ q, ∀ p ∈ s.pathsFor q, p.attrs.nexthop ≠ [] → s.nhState.get? p.attrs.nexthop = some p.answer

theorem Cached.unmasked {s : LocRib} (h : s.Cached) (check : Check) : Unmasked check s := by
  intro q p hp hnh hcached
  rw [h q p hp hnh, Option.some.injEq] at hcached
  exact hcached

theorem Shrinks.cached {s s' : LocRib} (hs : Shrinks s s') (hw' : s'.Wf)
    (h : s.Cached) : s'.Cached := by
  intro q p hp hnh
  obtain ⟨d, hd, hpd⟩ := mem_pathsFor.mp hp
  rw [hs.nhState (hw'.files hd hpd hnh)]
  exact h q p (hs.paths q p hp) hnh

theorem mem_putPath_eraseP {path p : BgpPath} {paths : List BgpPath} (h : p ∈ putPath path paths) :
    p = path ∨ p ∈ paths.eraseP fun p => p.isFrom path.peer path.pathId := by
  induction paths with
  | nil => simpa [putPath] using h
  | cons old rest ih =>
    simp only [putPath] at h
    split at h
    · rename_i hold
      simp only [List.eraseP_cons, hold, cond_true]
      exact List.mem_cons.mp h
    · rename_i hold
      simp only [List.eraseP_cons, Bool.eq_false_of_not_eq_true hold, cond_false]
      rcases List.mem_cons.mp h with rfl | hrest
      · exact Or.inr List.mem_cons_self
      · exact (ih hrest).imp_right (List.mem_cons_of_mem old)

theorem mem_putPath_self (path : BgpPath) (paths : List BgpPath) : path ∈ putPath path paths := by
  induction paths with
  | nil => exact List.mem_cons_self
  | cons old rest ih =>
    simp only [putPath]
    split
    · exact List.mem_cons_self
    · exact List.mem_cons_of_mem old ih

theorem mem_putPath_of_mem_eraseP {path p : BgpPath} {paths : List BgpPath}
    (h : p ∈ paths.eraseP fun p => p.isFrom path.peer path.pathId) : p ∈ putPath path paths := by
  induction paths with
  | nil => simp at h
  | cons old rest ih =>
    simp only [putPath]
    split
    · rename_i hold
      simp only [List.eraseP_cons, hold, cond_true] at h
      exact List.mem_cons_of_mem path h
    · rename_i hold
      simp only [List.eraseP_cons, Bool.eq_false_of_not_eq_true hold, cond_false,
        List.mem_cons] at h
      rcases h with rfl | hrest
      · exact List.mem_cons_self
      · exact List.mem_cons_of_mem old (ih hrest)

theorem dest_isSome_iff (s : LocRib) (pfx : Prefix) : (s.dest pfx).isSome ↔ pfx.afi = s.afi := by
  unfold dest
  by_cases hafi : pfx.afi = s.afi
  · simp only [hafi, ne_eq, not_true_eq_false, ↓reduceIte, iff_true]
    cases s.dests.get? pfx <;> rfl
  · simp [hafi]

theorem addPath_isSome_iff (s : LocRib) (peer : PeerRef) (pfx : Prefix)
    (a : Arrival) : (s.addPath peer pfx a).isSome ↔ pfx.afi = s.afi := by
  rw [← dest_isSome_iff]
  unfold addPath
  cases s.dest pfx <;> simp

/-- After an arrival the paths are the new one and those it did not replace. -/
theorem mem_pathsFor_addPath {s s' : LocRib} {peer : PeerRef} {pfx : Prefix}
    {a : Arrival} (hw : s.Wf) (hadd : s.addPath peer pfx a = some s') :
    ∃ path : BgpPath, path.attrs = a.attrs ∧ path.answer = (a.resolved, a.igpMetric) ∧
      ∀ q p, p ∈ s'.pathsFor q ↔ (q = pfx ∧ p = path) ∨ p ∈ s.staying peer pfx a.pathId q := by
  obtain ⟨_, _, ⟨path, hattrs, hpeer, hid, hans, -, hfor⟩, _⟩ := addPath_spec hw hadd
  refine ⟨path, hattrs, hans, ?_⟩
  intro q p
  rw [hfor q, staying, ← hpeer, ← hid]
  by_cases hq : q = pfx
  · simp only [hq, ↓reduceIte, true_and]
    constructor
    · exact mem_putPath_eraseP
    · rintro (rfl | hstay)
      · exact mem_putPath_self p _
      · exact mem_putPath_of_mem_eraseP hstay
  · simp [hq]

theorem addPath_cached {s s' : LocRib} {peer : PeerRef} {pfx : Prefix}
    {a : Arrival} (hw : s.Wf) (hadd : s.addPath peer pfx a = some s')
    (hmeets : s.Meets (.addPath peer pfx a)) (h : s.Cached) : s'.Cached := by
  obtain ⟨hw', _, _, hstate⟩ := addPath_spec hw hadd
  obtain ⟨path, hattrs, hans, hmem⟩ := mem_pathsFor_addPath hw hadd
  have hafi : pfx.afi = s.afi := by
    rw [← addPath_isSome_iff s peer pfx a, hadd]
    rfl
  intro q p hp hnh
  obtain ⟨d, hd, hpd⟩ := mem_pathsFor.mp hp
  rw [hstate p.attrs.nexthop q d hnh (hw'.files hd hpd hnh)]
  rcases (hmem q p).mp hp with ⟨_, rfl⟩ | hstay
  · rw [if_pos (by rw [hattrs]), hans]
  · split
    · rename_i heq
      rw [hmeets hafi q p hstay hnh heq]
    · exact h q p (mem_of_mem_staying hstay) hnh

theorem step_cached {s : LocRib} (hw : s.Wf) (h : s.Cached) {op : Op}
    (hmeets : s.Meets op) : (s.step op).Cached := by
  have hw' := step_wf hw op
  cases op with
  | addPath peer pfx a =>
    simp only [step] at hw' ⊢
    cases hadd : s.addPath peer pfx a with
    | none => exact h
    | some s' => exact addPath_cached hw hadd hmeets h
  | removePath peer pfx pathId => exact (removePath_spec hw peer pfx pathId).2.cached hw' h
  | removePeer peer => exact (removePeer_spec hw peer).2.cached hw' h
  | revalidate check =>
    obtain ⟨_, hr, _, hnow⟩ := revalidate_spec hw check
    have hcurrent := (current_revalidate_iff hw check).mpr (h.unmasked check)
    intro q p hp hnh
    obtain ⟨d, hd, hpd⟩ := mem_pathsFor.mp hp
    have hp' := hcurrent q p hp hnh
    rw [hr.afi] at hp'
    rw [hp']
    exact hnow p.attrs.nexthop q d (hw'.files hd hpd hnh)
  | reselect limit => exact (reselect_spec hw limit).2.1.cached hw' h
  | setConfig config => exact (setConfig_spec hw config).2.1.cached hw' h
  | clear =>
    intro q p hp
    rw [step, pathsFor_clear] at hp
    simp at hp

theorem run_cached {s : LocRib} (hw : s.Wf) (h : s.Cached) {ops : List Op}
    (hmeets : RunMeets s ops) : (s.run ops).Cached := by
  induction ops generalizing s with
  | nil => exact h
  | cons op ops ih => exact ih (step_wf hw op) (step_cached hw h hmeets.1) hmeets.2

/-- What a pass owes: every path current, and every changed destination waiting
in the change queue. -/
def Tracked (check : Check) (s : LocRib) : Prop :=
  Current check (s.revalidate check) ∧
    ∀ q d, s.dests.get? q = some d →
      (s.revalidate check).pathsFor q ≠ s.pathsFor q → d ∈ (s.revalidate check).queue

theorem tracked_iff {s : LocRib} (hw : s.Wf) (check : Check) :
    Tracked check s ↔ Unmasked check s := by
  rw [← current_revalidate_iff hw check]
  constructor
  · exact fun h => h.1
  · intro h
    obtain ⟨_, hr, _, _⟩ := revalidate_spec hw check
    exact ⟨h, fun _ _ hd hne => hr.changed hd hne⟩

theorem Cached.tracked {s : LocRib} (hw : s.Wf) (h : s.Cached) (check : Check) : Tracked check s :=
  (tracked_iff hw check).mpr (h.unmasked check)

/-- An arrival that does not meet the condition leaves a path masked from the
resolver that gave its answer. -/
theorem meets_of_tracked {s : LocRib} (hw : s.Wf) {op : Op}
    (h : ∀ check, Tracked check (s.step op)) : s.Meets op := by
  cases op with
  | addPath peer pfx a =>
    intro hafi q p hstay hnh heq
    have hsome := (addPath_isSome_iff s peer pfx a).mpr hafi
    obtain ⟨s', hadd⟩ := Option.isSome_iff_exists.mp hsome
    have hstep : s.step (.addPath peer pfx a) = s' := by simp [step, hadd]
    obtain ⟨hw', _, _, hstate⟩ := addPath_spec hw hadd
    obtain ⟨path, hattrs, hans, hmem⟩ := mem_pathsFor_addPath hw hadd
    have hp : p ∈ s'.pathsFor q := (hmem q p).mpr (Or.inr hstay)
    obtain ⟨d, hd, hpd⟩ := mem_pathsFor.mp hp
    have hcached := hstate p.attrs.nexthop q d hnh (hw'.files hd hpd hnh)
    rw [if_pos heq] at hcached
    rw [hstep] at h
    exact (tracked_iff hw' _).mp (h fun _ _ => (a.resolved, a.igpMetric)) q p hp hnh hcached
  | removePath peer pfx pathId => trivial
  | removePeer peer => trivial
  | revalidate check => trivial
  | reselect limit => trivial
  | setConfig config => trivial
  | clear => trivial

theorem runMeets_of_tracked {s : LocRib} (hw : s.Wf) {ops : List Op}
    (h : ∀ before after, ops = before ++ after → ∀ check, Tracked check (s.run before)) :
    RunMeets s ops := by
  induction ops generalizing s with
  | nil => trivial
  | cons op ops ih =>
    have hfirst : ∀ check, Tracked check (s.step op) := h [op] ops rfl
    refine ⟨meets_of_tracked hw hfirst, ih (step_wf hw op) ?_⟩
    intro before after hsplit check
    exact h (op :: before) after (by simp [hsplit]) check

theorem runMeets_append {s : LocRib} {before after : List Op} :
    RunMeets s (before ++ after) ↔ RunMeets s before ∧ RunMeets (s.run before) after := by
  induction before generalizing s with
  | nil => simp [RunMeets, run]
  | cons op before ih =>
    simp only [List.cons_append, RunMeets, ih, and_assoc]
    rfl

theorem new_cached (afi safi : Nat) (attrTable : AttrTable) (config : BestpathConfig)
    (unused : BgpDest) : (new afi safi attrTable config unused).Cached := by
  intro q p hp
  simp [pathsFor, new] at hp

/-- Next-hop tracking loses no change, at any moment and for any answers of the resolver,
exactly in the runs whose arrivals bring the answer the other paths through their next hop
carry. -/
theorem tracked_run_iff (afi safi : Nat) (attrTable : AttrTable)
    (config : BestpathConfig) (unused : BgpDest) (ops : List Op) :
    (∀ before after, ops = before ++ after → ∀ check,
        Tracked check ((new afi safi attrTable config unused).run before)) ↔
      RunMeets (new afi safi attrTable config unused) ops := by
  have hw := new_wf afi safi attrTable config unused
  constructor
  · exact runMeets_of_tracked hw
  · rintro hmeets before after rfl check
    exact (run_cached hw (new_cached afi safi attrTable config unused)
      (runMeets_append.mp hmeets).1).tracked (run_wf hw before) check

/-- `10.0.0.0/8` and `11.0.0.0/8`. -/
def netTen : Prefix := .ipv4 10 0 0 0 8

def netEleven : Prefix := .ipv4 11 0 0 0 8

def plainConfig : BestpathConfig := ⟨65000, 1, false, false, false, false, false, false, 1, 1, 100⟩

/-- An external peer in AS 65001. -/
def externalPeer (oid : Nat) : PeerRef := ⟨oid, some oid, 65001, 65000, oid, [192, 0, 2, 10], true⟩

/-- A path through 192.0.2.1 with the answer the resolver gave for it. -/
def arrivalVia (resolved : Bool) : Arrival where
  attrs := { nexthop := [192, 0, 2, 1] }
  pathId := 0
  weight := 0
  source := .peer
  igpMetric := 0
  recvTime := 1
  resolved := resolved
  keepAge := false

/-- The next hop is reachable for the first path and lost before the second. -/
def maskedRun : List Op :=
  [.addPath (externalPeer 1) netTen (arrivalVia true),
    .addPath (externalPeer 2) netEleven (arrivalVia false)]

/-- The second arrival caches the answer the resolver still gives, so the pass
leaves the first path with the one it no longer gives. -/
theorem not_tracked_maskedRun :
    ¬ Tracked (fun _ _ => (false, 0))
      ((new AFI_IP SAFI_UNICAST AttrTable.empty plainConfig
        (BgpDest.new netTen)).run maskedRun) := by
  intro h
  have hstale : ∃ p ∈ (((new AFI_IP SAFI_UNICAST AttrTable.empty plainConfig
      (BgpDest.new netTen)).run maskedRun).revalidate (fun _ _ => (false, 0))).pathsFor netTen,
      p.attrs.nexthop ≠ [] ∧ p.answer = (true, 0) := by
    decide
  obtain ⟨p, hp, hnh, hans⟩ := hstale
  have hnow := h.1 netTen p hp hnh
  rw [hans] at hnow
  simp at hnow

end LocRib

end Packets
