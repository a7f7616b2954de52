/-
An UPDATE with routes in both of its fields (`plugins/bgp/wire.pyx`, `plugins/bgp/peer.py`).

NEXT_HOP and the next hop of MP_REACH_NLRI go into one attribute set, with which both fields are
installed; the one decoded last stands for all.
-/
import Packets.Bgp.SessionMoves
import Packets.Bgp.UpdateGrading

namespace Packets

/-- The attributes of an UPDATE, in order. -/
def updateAttrs (raw : Bytes) : List RawAttr :=
  let body := raw.drop HEADER_LEN
  let rest := (body.drop 2).drop (rdU16 body)
  (rawAttrs ((rest.drop 2).take (rdU16 rest))).1

/-- The value of NEXT_HOP. -/
def nextHopOf (attrs : List RawAttr) : Option Bytes :=
  (attrs.find? fun a => a.atype = ATTR_NEXT_HOP).map RawAttr.value

/-- NEXT_HOP stands after MP_REACH_NLRI. -/
def NextHopLast (attrs : List RawAttr) : Prop :=
  [ATTR_MP_REACH, ATTR_NEXT_HOP].Sublist (attrs.map RawAttr.atype)

instance (attrs : List RawAttr) : Decidable (NextHopLast attrs) :=
  inferInstanceAs (Decidable (List.Sublist _ _))

/-- A message without a fault is decoded to its end. -/
theorem decodeUpdate_of_no_errors {raw : Bytes} {ctx : DecodeCtx}
    (h : (decodeUpdate raw ctx).errors = []) :
    ∃ m field nlri, decodeUpdate raw ctx = decodeFields ctx m field nlri ∧
      (rawAttrs field).1 = updateAttrs raw ∧ (decodeAttrs ctx field).errors = [] ∧
      (readNlri (ctx.addPath.contains IPV4_UNICAST) AFI_IP nlri).2 = true := by
  have hfields : ∃ m field nlri, decodeUpdate raw ctx = decodeFields ctx m field nlri ∧
      (rawAttrs field).1 = updateAttrs raw := by
    rw [decodeUpdate] at h ⊢
    split at h
    · cases h
    next hlong =>
    rw [if_neg hlong]
    dsimp only at h ⊢
    split at h
    · cases h
    next hwithdrawn =>
    rw [if_neg hwithdrawn]
    split at h
    · cases h
    next hread =>
    rw [if_neg hread]
    rw [decodeRest] at h ⊢
    split at h
    · simp at h
    next hroom =>
    rw [if_neg hroom]
    dsimp only at h ⊢
    split at h
    · simp at h
    next hattrs =>
    rw [if_neg hattrs]
    exact ⟨_, _, _, rfl, rfl⟩
  obtain ⟨m, field, nlri, heq, hattrs⟩ := hfields
  rw [heq, decodeFields_errors, List.append_eq_nil_iff, List.append_eq_nil_iff] at h
  obtain ⟨⟨-, hloop⟩, hfield⟩ := h
  refine ⟨m, field, nlri, heq, hattrs, hloop, ?_⟩
  by_contra hnot
  rw [if_neg hnot] at hfield
  cases hfield

theorem endOfRib_of_nlri {raw : Bytes} {ctx : DecodeCtx} (h : (decodeUpdate raw ctx).errors = [])
    (hnlri : (decodeUpdate raw ctx).nlri ≠ []) : (decodeUpdate raw ctx).endOfRib = false := by
  obtain ⟨m, field, nlri, heq, -, -, hread⟩ := decodeUpdate_of_no_errors h
  rw [heq, decodeFields_nlri] at hnlri
  rw [heq, decodeFields]
  dsimp only
  rw [hread]
  simp only [Bool.not_true, Bool.false_eq_true, if_false, isEndOfRib]
  rw [if_pos (Or.inl hnlri)]

namespace AttrState

/-- The next hops as they are. -/
structure SameHops (st st' : AttrState) : Prop where
  nexthop : st'.attrs.nexthop = st.attrs.nexthop
  nexthopLocal : st'.attrs.nexthopLocal = st.attrs.nexthopLocal
  mpReach : st'.mpReach = st.mpReach

theorem SameHops.refl (st : AttrState) : st.SameHops st := ⟨rfl, rfl, rfl⟩

theorem SameHops.trans {st st' st'' : AttrState} (h : st.SameHops st')
    (h' : st'.SameHops st'') : st.SameHops st'' where
  nexthop := h'.nexthop.trans h.nexthop
  nexthopLocal := h'.nexthopLocal.trans h.nexthopLocal
  mpReach := h'.mpReach.trans h.mpReach

theorem SameHops.ite {st a b : AttrState} {c : Prop} [Decidable c] (ha : c → st.SameHops a)
    (hb : st.SameHops b) : st.SameHops (if c then a else b) := by
  split
  · next hc => exact ha hc
  · exact hb

theorem fault_ne (st : AttrState) (attr : Option UInt8) (reason : Reason) :
    (st.fault attr reason).errors ≠ [] := by
  rw [fault]
  exact List.append_ne_nil_of_right_ne_nil _ (List.cons_ne_nil _ _)

end AttrState

theorem decodeMpUnreach_sameHops (ctx : DecodeCtx) (value : Bytes) (st : AttrState) :
    st.SameHops (decodeMpUnreach ctx value st) := by
  unfold decodeMpUnreach
  dsimp only
  split
  · exact ⟨rfl, rfl, rfl⟩
  split
  · exact ⟨rfl, rfl, rfl⟩
  split
  · exact ⟨rfl, rfl, rfl⟩
  · exact ⟨rfl, rfl, rfl⟩

/-- An attribute of another type leaves the next hops alone. -/
theorem decodeAttr_sameHops (ctx : DecodeCtx) (flags : UInt8) {atype : UInt8} (value : Bytes)
    (st : AttrState) (hnh : atype ≠ ATTR_NEXT_HOP) (hmp : atype ≠ ATTR_MP_REACH) :
    st.SameHops (decodeAttr ctx flags atype value st) := by
  unfold decodeAttr
  dsimp only
  repeat' first
    | exact decodeMpUnreach_sameHops ..
    | exact ⟨rfl, rfl, rfl⟩
    | exact absurd (by assumption) hnh
    | exact absurd (by assumption) hmp
    | refine AttrState.SameHops.ite (fun _ => ?_) ?_
    | split

theorem seen_ite {a b : AttrState} {seen : List UInt8} {c : Prop} [Decidable c]
    (ha : a.seen = seen) (hb : b.seen = seen) : (if c then a else b).seen = seen := by
  split
  · exact ha
  · exact hb

theorem decodeMpReach_seen (ctx : DecodeCtx) (value : Bytes) (st : AttrState) :
    (decodeMpReach ctx value st).seen = st.seen := by
  unfold decodeMpReach
  dsimp only
  repeat' first
    | rfl
    | refine seen_ite rfl ?_
    | split

theorem decodeMpUnreach_seen (ctx : DecodeCtx) (value : Bytes) (st : AttrState) :
    (decodeMpUnreach ctx value st).seen = st.seen := by
  unfold decodeMpUnreach
  dsimp only
  repeat' first
    | rfl
    | refine seen_ite rfl ?_

theorem decodeAttr_seen (ctx : DecodeCtx) (flags atype : UInt8) (value : Bytes)
    (st : AttrState) : (decodeAttr ctx flags atype value st).seen = st.seen := by
  unfold decodeAttr
  dsimp only
  repeat' first
    | exact decodeMpReach_seen ..
    | exact decodeMpUnreach_seen ..
    | rfl
    | refine seen_ite ?_ ?_
    | split

theorem decodeAttr_nextHop {ctx : DecodeCtx} {flags : UInt8} {value : Bytes}
    {st : AttrState} (h : (decodeAttr ctx flags ATTR_NEXT_HOP value st).errors = []) :
    decodeAttr ctx flags ATTR_NEXT_HOP value st = st.put { st.attrs with nexthop := value } := by
  have heq : decodeAttr ctx flags ATTR_NEXT_HOP value st =
      if flags &&& AFLAG_OPTIONAL ≠ 0 ∨ ¬flags &&& AFLAG_TRANSITIVE ≠ 0 ∨
          flags &&& AFLAG_PARTIAL ≠ 0 then
        st.fault (some ATTR_NEXT_HOP) .flags
      else if value.length ≠ 4 then st.fault (some ATTR_NEXT_HOP) .length
      else st.put { st.attrs with nexthop := value } := rfl
  rw [heq] at h ⊢
  split at h
  · exact absurd h (st.fault_ne _ _)
  next hflags =>
  split at h
  · exact absurd h (st.fault_ne _ _)
  next hlen =>
  rw [if_neg hflags, if_neg hlen]

/-- An MP_REACH_NLRI without a fault leaves its own next hops in the set. -/
theorem decodeAttr_mpReach_of_no_errors {ctx : DecodeCtx} {flags : UInt8} {value : Bytes}
    {st : AttrState} (h : (decodeAttr ctx flags ATTR_MP_REACH value st).errors = []) :
    ∃ mp, (decodeAttr ctx flags ATTR_MP_REACH value st).mpReach = some mp ∧
      (decodeAttr ctx flags ATTR_MP_REACH value st).attrs.nexthop = mp.nexthop ∧
      (decodeAttr ctx flags ATTR_MP_REACH value st).attrs.nexthopLocal = mp.nexthopLocal := by
  rw [decodeAttr_mpReach] at h ⊢
  split at h
  · exact absurd h (st.fault_ne _ _)
  next hflags =>
  rw [if_neg hflags]
  rw [decodeMpReach] at h ⊢
  split at h
  · exact absurd h (st.fault_ne _ _)
  next hlong =>
  rw [if_neg hlong]
  split at h
  · exact absurd h (st.fault_ne _ _)
  next field nlri hhdr =>
  dsimp only at h ⊢
  split at h
  · exact absurd h (st.fault_ne _ _)
  next hfamily =>
  rw [if_neg hfamily]
  split at h
  · exact absurd h (st.fault_ne _ _)
  next nexthop nexthopLocal hhops =>
  split at h
  · exact absurd h (st.fault_ne _ _)
  next hread =>
  rw [if_neg hread]
  exact ⟨_, rfl, rfl, rfl⟩

/-- A step without a fault is one over an attribute that was not seen before. -/
theorem stepAttr_of_no_errors {ctx : DecodeCtx} {st : AttrState} {a : RawAttr}
    (h : (stepAttr ctx st a).errors = []) :
    a.atype ∉ st.seen ∧
      stepAttr ctx st a =
        decodeAttr ctx a.flags a.atype a.value { st with seen := st.seen ++ [a.atype] } := by
  rw [stepAttr] at h ⊢
  split at h
  · exact absurd h (st.fault_ne _ _)
  next hwhole =>
  split at h
  · exact absurd h (st.fault_ne _ _)
  next hfresh =>
  rw [if_neg hwhole, if_neg hfresh]
  exact ⟨hfresh, rfl⟩

theorem errors_of_foldl {ctx : DecodeCtx} {st : AttrState} {as : List RawAttr}
    (h : (as.foldl (stepAttr ctx) st).errors = []) : st.errors = [] := by
  apply List.eq_nil_iff_forall_not_mem.mpr
  intro f hf
  have hkept := (foldl_stepAttr_extends ctx as st).errors f hf
  rw [h] at hkept
  exact List.not_mem_nil hkept

/-- Without a fault every attribute is seen, and none twice. -/
theorem foldl_stepAttr_seen {ctx : DecodeCtx} {st : AttrState} {as : List RawAttr}
    (h : (as.foldl (stepAttr ctx) st).errors = []) (hseen : st.seen.Nodup) :
    (as.foldl (stepAttr ctx) st).seen = st.seen ++ as.map RawAttr.atype ∧
      (st.seen ++ as.map RawAttr.atype).Nodup := by
  induction as generalizing st with
  | nil =>
    rw [List.map_nil, List.append_nil]
    exact ⟨rfl, hseen⟩
  | cons a as ih =>
    rw [List.foldl_cons] at h ⊢
    obtain ⟨hfresh, hstep⟩ := stepAttr_of_no_errors (errors_of_foldl h)
    have hnext : (stepAttr ctx st a).seen = st.seen ++ [a.atype] := by rw [hstep, decodeAttr_seen]
    have hnodup : (st.seen ++ [a.atype]).Nodup := by
      rw [List.nodup_append]
      refine ⟨hseen, List.nodup_singleton _, ?_⟩
      rintro x hx y hy rfl
      rw [List.mem_singleton.mp hy] at hx
      exact hfresh hx
    have hrest := ih h (hnext ▸ hnodup)
    rw [hnext, List.append_assoc, List.singleton_append] at hrest
    exact hrest

/-- Attributes of other types leave the next hops alone. -/
theorem foldl_stepAttr_sameHops {ctx : DecodeCtx} {st : AttrState} {as : List RawAttr}
    (h : (as.foldl (stepAttr ctx) st).errors = []) (hnh : ATTR_NEXT_HOP ∉ as.map RawAttr.atype)
    (hmp : ATTR_MP_REACH ∉ as.map RawAttr.atype) : st.SameHops (as.foldl (stepAttr ctx) st) := by
  induction as generalizing st with
  | nil => exact AttrState.SameHops.refl st
  | cons a as ih =>
    rw [List.foldl_cons] at h ⊢
    rw [List.map_cons, List.mem_cons, not_or] at hnh hmp
    obtain ⟨-, hstep⟩ := stepAttr_of_no_errors (errors_of_foldl h)
    have hhead : st.SameHops (stepAttr ctx st a) := by
      rw [hstep]
      have hsame := decodeAttr_sameHops ctx a.flags a.value
        { st with seen := st.seen ++ [a.atype] } (Ne.symm hnh.1) (Ne.symm hmp.1)
      exact ⟨hsame.nexthop, hsame.nexthopLocal, hsame.mpReach⟩
    exact hhead.trans (ih h hnh.2 hmp.2)

theorem stepAttr_nextHop {ctx : DecodeCtx} {st : AttrState} {a : RawAttr}
    (h : (stepAttr ctx st a).errors = []) (htype : a.atype = ATTR_NEXT_HOP) :
    (stepAttr ctx st a).attrs.nexthop = a.value ∧
      (stepAttr ctx st a).attrs.nexthopLocal = st.attrs.nexthopLocal ∧
      (stepAttr ctx st a).mpReach = st.mpReach := by
  have hstep := (stepAttr_of_no_errors h).2
  rw [hstep, htype] at h
  rw [hstep, htype, decodeAttr_nextHop h]
  exact ⟨rfl, rfl, rfl⟩

theorem stepAttr_mpReach {ctx : DecodeCtx} {st : AttrState} {a : RawAttr}
    (h : (stepAttr ctx st a).errors = []) (htype : a.atype = ATTR_MP_REACH) :
    ∃ mp, (stepAttr ctx st a).mpReach = some mp ∧ (stepAttr ctx st a).attrs.nexthop = mp.nexthop ∧
      (stepAttr ctx st a).attrs.nexthopLocal = mp.nexthopLocal := by
  have hstep := (stepAttr_of_no_errors h).2
  rw [hstep, htype] at h ⊢
  exact decodeAttr_mpReach_of_no_errors h

/-- Attributes with one MP_REACH_NLRI and no NEXT_HOP leave the next hops of the former. -/
theorem foldl_stepAttr_mpReach {ctx : DecodeCtx} {st : AttrState} {as : List RawAttr}
    (h : (as.foldl (stepAttr ctx) st).errors = []) (hnodup : (as.map RawAttr.atype).Nodup)
    (hnh : ATTR_NEXT_HOP ∉ as.map RawAttr.atype) (hmp : ATTR_MP_REACH ∈ as.map RawAttr.atype) :
    ∃ mp, (as.foldl (stepAttr ctx) st).mpReach = some mp ∧
      (as.foldl (stepAttr ctx) st).attrs.nexthop = mp.nexthop ∧
      (as.foldl (stepAttr ctx) st).attrs.nexthopLocal = mp.nexthopLocal := by
  obtain ⟨b, hb, htype⟩ := List.mem_map.mp hmp
  obtain ⟨front, back, rfl⟩ := List.append_of_mem hb
  rw [List.map_append, List.map_cons, htype] at hnodup hnh
  rw [List.foldl_append, List.foldl_cons] at h ⊢
  obtain ⟨mp, hreach, hnexthop, hlocal⟩ := stepAttr_mpReach (errors_of_foldl h) htype
  have hbackMp : ATTR_MP_REACH ∉ back.map RawAttr.atype :=
    (List.nodup_cons.mp (List.nodup_append.mp hnodup).2.1).1
  have hbackNh : ATTR_NEXT_HOP ∉ back.map RawAttr.atype := fun hmem =>
    hnh (List.mem_append_right _ (List.mem_cons_of_mem _ hmem))
  have hsame := foldl_stepAttr_sameHops h hbackNh hbackMp
  exact ⟨mp, hsame.mpReach.trans hreach, hsame.nexthop.trans hnexthop,
    hsame.nexthopLocal.trans hlocal⟩

/-- In a list without duplicates, what stands before an item is what precedes it. -/
theorem pair_sublist_iff {α : Type} {x y : α} {front back : List α}
    (hnodup : (front ++ y :: back).Nodup) : [x, y].Sublist (front ++ y :: back) ↔ x ∈ front := by
  have hback : y ∉ back := (List.nodup_cons.mp (List.nodup_append.mp hnodup).2.1).1
  constructor
  · intro h
    obtain ⟨r₁, r₂, heq, hr₁, hr₂⟩ := List.sublist_append_iff.mp h
    cases r₁ with
    | nil =>
      rw [List.nil_append] at heq
      rw [← heq] at hr₂
      have hlater : [y].Sublist back := List.Sublist.tail hr₂
      exact absurd (hlater.subset (List.mem_singleton_self y)) hback
    | cons z rest =>
      rw [List.cons_append, List.cons.injEq] at heq
      rw [heq.1]
      exact hr₁.subset List.mem_cons_self
  · intro hx
    have hpair : ([x] ++ [y]).Sublist (front ++ y :: back) :=
      List.Sublist.append (List.singleton_sublist.mpr hx)
        (List.singleton_sublist.mpr List.mem_cons_self)
    exact hpair

/-- The later of NEXT_HOP and MP_REACH_NLRI gives the next hop, and MP_REACH_NLRI the
link-local part. -/
theorem foldl_stepAttr_hops {ctx : DecodeCtx} {as : List RawAttr} {mp : MpReach} {nh : Bytes}
    (h : (as.foldl (stepAttr ctx) {}).errors = [])
    (hmp : (as.foldl (stepAttr ctx) {}).mpReach = some mp) (hnh : nextHopOf as = some nh) :
    (as.foldl (stepAttr ctx) {}).attrs.nexthopLocal = mp.nexthopLocal ∧
      (as.foldl (stepAttr ctx) {}).attrs.nexthop =
        if NextHopLast as then nh else mp.nexthop := by
  obtain ⟨a, hfind, rfl⟩ := Option.map_eq_some_iff.mp hnh
  obtain ⟨htype, front, back, rfl, -⟩ := List.find?_eq_some_iff_append.mp hfind
  replace htype : a.atype = ATTR_NEXT_HOP := of_decide_eq_true htype
  have hnodup := (foldl_stepAttr_seen h List.nodup_nil).2
  rw [List.nil_append, List.map_append, List.map_cons, htype] at hnodup
  have hlast : NextHopLast (front ++ a :: back) ↔ ATTR_MP_REACH ∈ front.map RawAttr.atype := by
    rw [NextHopLast, List.map_append, List.map_cons, htype]
    exact pair_sublist_iff hnodup
  obtain ⟨hfront, hback, hapart⟩ := List.nodup_append.mp hnodup
  have hfrontNh : ATTR_NEXT_HOP ∉ front.map RawAttr.atype := fun hmem =>
    hapart _ hmem _ List.mem_cons_self rfl
  have hbackNh := (List.nodup_cons.mp hback).1
  rw [List.foldl_append, List.foldl_cons] at h hmp ⊢
  have hstep := errors_of_foldl h
  obtain ⟨hnexthop, hlocal, hreach⟩ := stepAttr_nextHop hstep htype
  have hone : ([a].foldl (stepAttr ctx) (front.foldl (stepAttr ctx) {})).errors = [] := hstep
  have hbefore := errors_of_foldl hone
  by_cases hfirst : ATTR_MP_REACH ∈ front.map RawAttr.atype
  · -- MP_REACH_NLRI, then NEXT_HOP
    have hbackMp : ATTR_MP_REACH ∉ back.map RawAttr.atype := fun hmem =>
      hapart _ hfirst _ (List.mem_cons_of_mem _ hmem) rfl
    have hsame := foldl_stepAttr_sameHops h hbackNh hbackMp
    obtain ⟨mp', hmp', -, hlocal'⟩ := foldl_stepAttr_mpReach hbefore hfront hfrontNh hfirst
    rw [hsame.mpReach, hreach, hmp', Option.some.injEq] at hmp
    rw [if_pos (hlast.mpr hfirst), hsame.nexthopLocal, hlocal, hlocal', hmp, hsame.nexthop]
    exact ⟨rfl, hnexthop⟩
  · rw [if_neg (mt hlast.mp hfirst)]
    by_cases hsecond : ATTR_MP_REACH ∈ back.map RawAttr.atype
    · -- NEXT_HOP, then MP_REACH_NLRI
      obtain ⟨mp', hmp', hnexthop', hlocal'⟩ :=
        foldl_stepAttr_mpReach h (List.nodup_cons.mp hback).2 hbackNh hsecond
      rw [hmp', Option.some.injEq] at hmp
      rw [hnexthop', hlocal', hmp]
      exact ⟨rfl, rfl⟩
    · -- without MP_REACH_NLRI there is nothing to read of it
      have hsame := foldl_stepAttr_sameHops h hbackNh hsecond
      rw [hsame.mpReach, hreach, (foldl_stepAttr_sameHops hbefore hfrontNh hfirst).mpReach] at hmp
      cases hmp

theorem finalize_nexthop (a : AttrSet) :
    a.finalize.nexthop = a.nexthop ∧ a.finalize.nexthopLocal = a.nexthopLocal := ⟨rfl, rfl⟩

theorem mergeCarried_nexthop (st : AttrState) :
    (mergeCarried st).nexthop = st.attrs.nexthop ∧
      (mergeCarried st).nexthopLocal = st.attrs.nexthopLocal := by
  rw [mergeCarried]
  split <;> exact ⟨rfl, rfl⟩

/-- The attribute set of an UPDATE without a fault has the next hop decoded last. -/
theorem decodeUpdate_hops {raw : Bytes} {ctx : DecodeCtx} {mp : MpReach} {nh : Bytes}
    (h : (decodeUpdate raw ctx).errors = []) (hmp : (decodeUpdate raw ctx).mpReach = some mp)
    (hnh : nextHopOf (updateAttrs raw) = some nh) :
    ∃ attrs, (decodeUpdate raw ctx).attrs = some attrs ∧ attrs.nexthopLocal = mp.nexthopLocal ∧
      attrs.nexthop = if NextHopLast (updateAttrs raw) then nh else mp.nexthop := by
  obtain ⟨m, field, nlri, heq, hattrs, hloop, hread⟩ := decodeUpdate_of_no_errors h
  rw [heq, decodeFields_mpReach] at hmp
  have hdecoded : decodeAttrs ctx field = (rawAttrs field).1.foldl (stepAttr ctx) {} := by
    rw [decodeAttrs] at hloop ⊢
    split at hloop
    · next hwhole => rw [if_pos hwhole]
    · exact absurd hloop (AttrState.fault_ne _ _ _)
  rw [hdecoded] at hloop hmp
  rw [← hattrs] at hnh ⊢
  obtain ⟨hlocal, hnexthop⟩ := foldl_stepAttr_hops hloop hmp hnh
  refine ⟨(mergeCarried (decodeAttrs ctx field)).finalize, ?_, ?_, ?_⟩
  · rw [heq, decodeFields]
    dsimp only
    rw [hread]
    rfl
  · rw [(finalize_nexthop _).2, (mergeCarried_nexthop _).2, hdecoded, hlocal]
  · rw [(finalize_nexthop _).1, (mergeCarried_nexthop _).1, hdecoded, hnexthop]

namespace Session

/-- The state an UPDATE's announcements find: its withdrawals are done. -/
def beforeAnnouncements (env : SessionEnv) (s : Session) (msg : UpdateMsg) : Session :=
  (s.event env .updateMsg).applyWithdrawals msg

/-- The session takes up what an UPDATE announces: it has met its peer, and neither call
of `_announce_many` finds a loop, a path too long or too many prefixes. -/
structure Takes (env : SessionEnv) (s : Session) (msg : UpdateMsg) : Prop where
  served : s.Served
  met : ∃ ref, s.peer.peerRef = some ref
  accepted : ∀ a ∈ announcementsOf env (s.beforeAnnouncements env msg) msg,
    loops a.state.peer.config a.attrs = false ∧ tooLong a.state.peer.config a.attrs = false ∧
      exceeds a.state.peer a.entries.length = false

/-- Outcome of an announcement the session takes up. -/
structure Announced (s : Session) (af : Family) (entries : List Nlri) (attrs : AttrSet)
    (s' : Session) : Prop where
  served : s'.Served
  setup : SameSetup s s'
  told : ∀ af' e, s'.told af' e =
    if s.peer.adjIn.contains af = true ∧ af' = af ∧ e ∈ entries then some attrs
    else s.told af' e

theorem announceEntry_finishes (env : SessionEnv) {s : Session} {ref : PeerRef} {af : Family}
    {entry : Nlri} (attrs : AttrSet) (hs : s.Served) (href : s.peer.peerRef = some ref)
    (hafi : entry.1.afi = af.1) (hfam : s.peer.adjIn.contains af = true) :
    (announceEntry env af attrs s entry).2 = true := by
  obtain ⟨table, htable⟩ := Dict.contains_iff.mp hfam
  have hmet : (s.setTable af (table.set entry attrs)).peer.peerRef = some ref := href
  have hserved : (s.setTable af (table.set entry attrs)).Served := hs
  have hfinishes := (tryLocrib_spec env attrs false hserved hmet hafi).1
  simp only [announceEntry, htable]
  exact hfinishes

theorem runEach_announced (env : SessionEnv) {s : Session} {ref : PeerRef} {af : Family}
    {entries : List Nlri} (attrs : AttrSet) (hs : s.Served) (href : s.peer.peerRef = some ref)
    (hfam : s.peer.adjIn.contains af = true) (hafi : ∀ e ∈ entries, e.1.afi = af.1) :
    (runEach (announceEntry env af attrs) entries s).2 = true ∧
      Announced s af entries attrs (runEach (announceEntry env af attrs) entries s).1 := by
  induction entries generalizing s with
  | nil => exact ⟨rfl, hs, SameSetup.refl s, fun _ _ => by simp [runEach]⟩
  | cons e rest ih =>
    have hafiHead := hafi e List.mem_cons_self
    have hl := announceEntry_learned env attrs hs hafiHead hfam
    have hfinishes := announceEntry_finishes env attrs hs href hafiHead hfam
    obtain ⟨hdone, hrest⟩ := ih hl.served (hl.setup.peerRef.trans href)
      ((hl.setup.families af).trans hfam) fun e he => hafi e (List.mem_cons_of_mem _ he)
    have hrun : runEach (announceEntry env af attrs) (e :: rest) s =
        runEach (announceEntry env af attrs) rest (announceEntry env af attrs s e).1 := by
      rw [runEach]
      split
      · next s' heq => rw [heq] at hfinishes; cases hfinishes
      · next s' heq => rw [heq]
    rw [hrun]
    refine ⟨hdone, hrest.served, hl.setup.trans hrest.setup, ?_⟩
    intro af' e'
    rw [hrest.told, hl.told, hl.setup.families, hfam]
    by_cases haf : af' = af
    · by_cases he : e' = e
      · simp [haf, he]
      · by_cases hmem : e' ∈ rest
        · simp [haf, he, hmem]
        · simp [haf, he, hmem]
    · simp [haf]

/-- What an announcement that is not refused leaves. -/
theorem announceMany_announced (env : SessionEnv) {s : Session} {ref : PeerRef} {af : Family}
    {entries : List Nlri} {attrs : AttrSet} (hs : s.Served) (href : s.peer.peerRef = some ref)
    (hafi : ∀ e ∈ entries, e.1.afi = af.1) (hloops : loops s.peer.config attrs = false)
    (hlong : tooLong s.peer.config attrs = false) (hroom : exceeds s.peer entries.length = false) :
    (s.announceMany env af entries attrs).2 = true ∧
      Announced s af entries attrs (s.announceMany env af entries attrs).1 := by
  rw [announceMany]
  cases htable : s.peer.adjIn.get? af with
  | none =>
    have hfam : s.peer.adjIn.contains af = false := by rw [Dict.contains, htable]; rfl
    exact ⟨rfl, hs, SameSetup.refl s, fun _ _ => by simp [hfam]⟩
  | some table =>
    have hfam : s.peer.adjIn.contains af = true := Dict.contains_iff.mpr ⟨table, htable⟩
    have hstays : s.overLimit env entries.length = (s, false) := by
      rw [overLimit, if_neg (by rw [hroom]; exact Bool.false_ne_true)]
    simp only [hloops, hlong, hstays, Bool.or_self, Bool.false_eq_true, if_false]
    exact runEach_announced env attrs hs href hfam hafi

theorem withdrawMany_keeps {s : Session} (hs : s.Served) (af : Family) (entries : List Nlri) :
    (s.withdrawMany af entries).Served ∧ SameSetup s (s.withdrawMany af entries) := by
  induction entries generalizing s with
  | nil => exact ⟨hs, SameSetup.refl s⟩
  | cons e rest ih =>
    have hf := withdrawEntry_forgotten af e hs
    obtain ⟨hserved, hsetup⟩ := ih hf.served
    exact ⟨hserved, hf.setup.trans hsetup⟩

theorem applyWithdrawals_keeps {s : Session} (hs : s.Served) (msg : UpdateMsg) :
    (s.applyWithdrawals msg).Served ∧ SameSetup s (s.applyWithdrawals msg) := by
  have hclassic : (if msg.withdrawn ≠ [] then s.withdrawMany IPV4_UNICAST msg.withdrawn
      else s).Served ∧ SameSetup s (if msg.withdrawn ≠ [] then
        s.withdrawMany IPV4_UNICAST msg.withdrawn else s) := by
    split
    · exact withdrawMany_keeps hs _ _
    · exact ⟨hs, SameSetup.refl s⟩
  rw [applyWithdrawals]
  generalize (if msg.withdrawn ≠ [] then s.withdrawMany IPV4_UNICAST msg.withdrawn else s) = t
    at hclassic ⊢
  obtain ⟨hserved, hsetup⟩ := hclassic
  split
  · next mp hmp =>
      obtain ⟨hserved', hsetup'⟩ := withdrawMany_keeps hserved mp.family mp.prefixes
      exact ⟨hserved', hsetup.trans hsetup'⟩
  · exact ⟨hserved, hsetup⟩

theorem beforeAnnouncements_keeps {env : SessionEnv} {s : Session} (hs : s.Served)
    (msg : UpdateMsg) :
    (s.beforeAnnouncements env msg).Served ∧ SameSetup s (s.beforeAnnouncements env msg) := by
  have hevent := event_sameRoutes env s .updateMsg
  obtain ⟨hserved, hsetup⟩ := applyWithdrawals_keeps (hevent.served hs) msg
  exact ⟨hserved, hevent.setup.trans hsetup⟩

/-- An UPDATE without a fault that announces something is applied. -/
theorem handleUpdate_of_no_errors {env : SessionEnv} {s : Session} {raw : Bytes}
    (h : (decodeUpdate raw s.peer.ctx).errors = [])
    (hnlri : (decodeUpdate raw s.peer.ctx).nlri ≠ []) :
    s.handleUpdate env raw =
      ((s.beforeAnnouncements env (decodeUpdate raw s.peer.ctx)).applyAnnouncements env
        (decodeUpdate raw s.peer.ctx)).1 := by
  have hjudge (config : PeerConfig) : judge config (decodeUpdate raw s.peer.ctx) = .ok := by
    rw [judge, h]
    rfl
  rw [handleUpdate]
  simp only [hjudge, endOfRib_of_nlri h hnlri, Bool.false_eq_true, if_false, reduceCtorEq,
    decide_false]
  rfl

/-- What a session is told by an UPDATE it takes up: one attribute set, in both fields. -/
theorem told_handleUpdate {env : SessionEnv} {s : Session} {raw : Bytes} {msg : UpdateMsg}
    {mp : MpReach} {attrs : AttrSet} (hmsg : decodeUpdate raw s.peer.ctx = msg)
    (h : msg.errors = []) (hnlri : msg.nlri ≠ []) (hmp : msg.mpReach = some mp)
    (hattrs : msg.attrs = some attrs) (htakes : s.Takes env msg) (af : Family) (e : Nlri) :
    (s.handleUpdate env raw).told af e =
      if s.peer.adjIn.contains mp.family = true ∧ af = mp.family ∧ e ∈ mp.prefixes then
        some attrs
      else if s.peer.adjIn.contains IPV4_UNICAST = true ∧ af = IPV4_UNICAST ∧ e ∈ msg.nlri then
        some attrs
      else (s.beforeAnnouncements env msg).told af e := by
  subst hmsg
  obtain ⟨hclassicAfi, hmpAfi⟩ := decodeUpdate_afi raw s.peer.ctx
  replace hclassicAfi : ∀ e ∈ (decodeUpdate raw s.peer.ctx).nlri, e.1.afi = IPV4_UNICAST.1 :=
    hclassicAfi
  rw [handleUpdate_of_no_errors h hnlri]
  generalize decodeUpdate raw s.peer.ctx = msg at *
  obtain ⟨ref, href⟩ := htakes.met
  have hkeeps : (s.beforeAnnouncements env msg).Served ∧
      SameSetup s (s.beforeAnnouncements env msg) :=
    beforeAnnouncements_keeps htakes.served msg
  obtain ⟨hserved, hsetup⟩ := hkeeps
  have hcalls := htakes.accepted
  generalize s.beforeAnnouncements env msg = t at *
  rw [announcementsOf, hmp, hattrs, if_pos hnlri, if_pos hnlri] at hcalls
  simp only [Option.getD_some, List.cons_append, List.nil_append, List.mem_cons,
    List.not_mem_nil, or_false, forall_eq_or_imp, forall_eq] at hcalls
  obtain ⟨⟨hloops, hlong, hroom⟩, hloops', hlong', hroom'⟩ := hcalls
  obtain ⟨hdone, hfirst⟩ := announceMany_announced env hserved (hsetup.peerRef.trans href)
    hclassicAfi hloops hlong hroom
  obtain ⟨-, hsecond⟩ := announceMany_announced env hfirst.served
    (hfirst.setup.peerRef.trans (hsetup.peerRef.trans href))
    (hmpAfi mp hmp) hloops' hlong' hroom'
  have hrun : (t.applyAnnouncements env msg).1 =
      ((t.announceMany env IPV4_UNICAST msg.nlri attrs).1.announceMany env mp.family mp.prefixes
        attrs).1 := by
    rw [applyAnnouncements, hattrs, hmp, if_pos hnlri]
    simp only [Option.getD_some, hdone, Bool.not_true, Bool.false_eq_true, if_false]
  rw [hrun, hsecond.told, hfirst.told, hfirst.setup.families, hsetup.families, hsetup.families]

theorem told_of_not_contains {s : Session} {af : Family} (h : s.peer.adjIn.contains af = false)
    (e : Nlri) : s.told af e = none := by
  rw [Dict.contains, Option.isSome_eq_false_iff, Option.isNone_iff_eq_none] at h
  rw [told, h]
  rfl

/-- Every prefix an UPDATE installed has the next hop of its own field, and only those of
MP_REACH_NLRI have a link-local part. -/
structure OwnNextHops (s' : Session) (nlri : List Nlri) (nh : Bytes) (mp : MpReach) : Prop where
  classic : ∀ e ∈ nlri, ¬(mp.family = IPV4_UNICAST ∧ e ∈ mp.prefixes) →
    ∀ a, s'.told IPV4_UNICAST e = some a → a.nexthop = nh ∧ a.nexthopLocal = []
  multi : ∀ e ∈ mp.prefixes, ∀ a, s'.told mp.family e = some a →
    a.nexthop = mp.nexthop ∧ a.nexthopLocal = mp.nexthopLocal

/-- A field that is installed comes last, or the two next hops are the same; and a classic
field that is installed meets no link-local part. -/
structure HopsAgree (s : Session) (raw : Bytes) (nlri : List Nlri) (nh : Bytes)
    (mp : MpReach) : Prop where
  classic : s.peer.adjIn.contains IPV4_UNICAST = true →
    (∃ e ∈ nlri, ¬(mp.family = IPV4_UNICAST ∧ e ∈ mp.prefixes)) →
    mp.nexthopLocal = [] ∧ (NextHopLast (updateAttrs raw) ∨ nh = mp.nexthop)
  multi : s.peer.adjIn.contains mp.family = true → mp.prefixes ≠ [] →
    ¬NextHopLast (updateAttrs raw) ∨ nh = mp.nexthop

/-- The prefixes of an UPDATE that has both fields get their own next hops exactly when the
one decoded last suits every field that is installed. -/
theorem ownNextHops_iff (env : SessionEnv) (s : Session) (raw : Bytes) (msg : UpdateMsg)
    (nh : Bytes) (mp : MpReach) (hmsg : decodeUpdate raw s.peer.ctx = msg)
    (hclean : msg.errors = []) (hnlri : msg.nlri ≠ [])
    (hnh : nextHopOf (updateAttrs raw) = some nh) (hmp : msg.mpReach = some mp)
    (htakes : s.Takes env msg) :
    OwnNextHops (s.handleUpdate env raw) msg.nlri nh mp ↔ HopsAgree s raw msg.nlri nh mp := by
  have hhops : ∃ attrs, msg.attrs = some attrs ∧ attrs.nexthopLocal = mp.nexthopLocal ∧
      attrs.nexthop = if NextHopLast (updateAttrs raw) then nh else mp.nexthop := by
    subst hmsg
    exact decodeUpdate_hops hclean hmp hnh
  obtain ⟨attrs, hattrs, hlocal, hnexthop⟩ := hhops
  have htold := told_handleUpdate hmsg hclean hnlri hmp hattrs htakes
  have hfamilies (af : Family) (e : Nlri) (hnot : s.peer.adjIn.contains af = false) :
      (s.beforeAnnouncements env msg).told af e = none := by
    apply told_of_not_contains
    rw [(beforeAnnouncements_keeps htakes.served msg).2.families, hnot]
  -- what is installed of each field is the one set
  have hclassic : ∀ e ∈ msg.nlri, ¬(mp.family = IPV4_UNICAST ∧ e ∈ mp.prefixes) →
      (s.handleUpdate env raw).told IPV4_UNICAST e =
        if s.peer.adjIn.contains IPV4_UNICAST = true then some attrs else none := by
    intro e he hown
    have hother : ¬(s.peer.adjIn.contains mp.family = true ∧ IPV4_UNICAST = mp.family ∧
        e ∈ mp.prefixes) := fun h => hown ⟨h.2.1.symm, h.2.2⟩
    rw [htold, if_neg hother]
    by_cases hfam : s.peer.adjIn.contains IPV4_UNICAST = true
    · rw [if_pos ⟨hfam, rfl, he⟩, if_pos hfam]
    · rw [if_neg (fun h => hfam h.1), if_neg hfam,
        hfamilies _ _ (Bool.eq_false_of_not_eq_true hfam)]
  have hmulti : ∀ e ∈ mp.prefixes, (s.handleUpdate env raw).told mp.family e =
      if s.peer.adjIn.contains mp.family = true then some attrs else none := by
    intro e he
    rw [htold]
    by_cases hfam : s.peer.adjIn.contains mp.family = true
    · rw [if_pos ⟨hfam, rfl, he⟩, if_pos hfam]
    · have hclassicNot : ¬(s.peer.adjIn.contains IPV4_UNICAST = true ∧
          mp.family = IPV4_UNICAST ∧ e ∈ msg.nlri) := fun h => hfam (h.2.1 ▸ h.1)
      rw [if_neg (fun h => hfam h.1), if_neg hclassicNot, if_neg hfam,
        hfamilies _ _ (Bool.eq_false_of_not_eq_true hfam)]
  have hnexthopNh : attrs.nexthop = nh ↔ NextHopLast (updateAttrs raw) ∨ nh = mp.nexthop := by
    rw [hnexthop]
    by_cases hlast : NextHopLast (updateAttrs raw)
    · simp [hlast]
    · rw [if_neg hlast, or_iff_right hlast]
      exact eq_comm
  have hnexthopMp : attrs.nexthop = mp.nexthop ↔
      ¬NextHopLast (updateAttrs raw) ∨ nh = mp.nexthop := by
    rw [hnexthop]
    by_cases hlast : NextHopLast (updateAttrs raw)
    · simp [hlast]
    · simp [hlast]
  constructor
  · rintro ⟨hown, hownMulti⟩
    constructor
    · rintro hfam ⟨e, he, hnot⟩
      have htell := hclassic e he hnot
      rw [if_pos hfam] at htell
      obtain ⟨hfirst, hempty⟩ := hown e he hnot attrs htell
      exact ⟨hlocal.symm.trans hempty, hnexthopNh.mp hfirst⟩
    · intro hfam hne
      obtain ⟨e, he⟩ := List.exists_mem_of_ne_nil _ hne
      have htell := hmulti e he
      rw [if_pos hfam] at htell
      exact hnexthopMp.mp (hownMulti e he attrs htell).1
  · rintro ⟨hagree, hagreeMulti⟩
    constructor
    · intro e he hnot a ha
      rw [hclassic e he hnot] at ha
      by_cases hfam : s.peer.adjIn.contains IPV4_UNICAST = true
      · rw [if_pos hfam] at ha
        obtain rfl := Option.some.inj ha
        obtain ⟨hempty, hfirst⟩ := hagree hfam ⟨e, he, hnot⟩
        exact ⟨hnexthopNh.mpr hfirst, hlocal.trans hempty⟩
      · rw [if_neg hfam] at ha
        cases ha
    · intro e he a ha
      rw [hmulti e he] at ha
      by_cases hfam : s.peer.adjIn.contains mp.family = true
      · rw [if_pos hfam] at ha
        obtain rfl := Option.some.inj ha
        exact ⟨hnexthopMp.mpr (hagreeMulti hfam (List.ne_nil_of_mem he)), hlocal⟩
      · rw [if_neg hfam] at ha
        cases ha

/-- A session that carries both families and has met its peer. -/
def bothFamilies : Session :=
  { externalSession with
    peer.adjIn := (Dict.empty.set IPV4_UNICAST Dict.empty).set (AFI_IP6, SAFI_UNICAST) Dict.empty
    peer.peerRef := some {
      oid := 0, peer := none, peerAs := 65002, localAs := 65001, routerId := 2
      addr := [192, 0, 2, 1], isEbgp := true } }

/-- 10.0.0.0/8 by 192.0.2.1, and 2001:db8::/32 by 2001:db8::1 in MP_REACH_NLRI. -/
def twoFamilies : Bytes :=
  updateBytes (List.replicate 16 255 ++ [0, 74, 2]) []
    (plainAttrs ++ [0x80, 14, 26, 0, 2, 1, 16, 0x20, 1, 0xd, 0xb8, 0, 0, 0, 0, 0, 0, 0, 0, 0, 0,
      0, 1, 0, 32, 0x20, 1, 0xd, 0xb8]) [8, 10]

/-- 10.0.0.0/8, and 11.0.0.0/8 in MP_REACH_NLRI, both by 192.0.2.1. -/
def oneHop : Bytes :=
  updateBytes (List.replicate 16 255 ++ [0, 59, 2]) []
    (plainAttrs ++ [0x80, 14, 11, 0, 1, 1, 4, 192, 0, 2, 1, 0, 8, 11]) [8, 10]

/-- The IPv4 prefix is installed with the IPv6 next hop. -/
theorem not_ownNextHops_twoFamilies :
    (decodeUpdate twoFamilies bothFamilies.peer.ctx).errors = [] ∧
      nextHopOf (updateAttrs twoFamilies) = some [192, 0, 2, 1] ∧
      ∃ mp, (decodeUpdate twoFamilies bothFamilies.peer.ctx).mpReach = some mp ∧
        ¬OwnNextHops (bothFamilies.handleUpdate plainEnv twoFamilies)
          (decodeUpdate twoFamilies bothFamilies.peer.ctx).nlri [192, 0, 2, 1] mp := by
  have hsome : (decodeUpdate twoFamilies bothFamilies.peer.ctx).mpReach.isSome = true := by
    decide +kernel
  obtain ⟨mp, hmp⟩ := Option.isSome_iff_exists.mp hsome
  have hfamily : (decodeUpdate twoFamilies bothFamilies.peer.ctx).mpReach.map MpReach.family =
      some (AFI_IP6, SAFI_UNICAST) := by decide +kernel
  have hany : ∃ e ∈ (decodeUpdate twoFamilies bothFamilies.peer.ctx).nlri,
      (((bothFamilies.handleUpdate plainEnv twoFamilies).told IPV4_UNICAST e).map
        fun a => a.nexthop.length) = some 16 := by decide +kernel
  refine ⟨by decide +kernel, by decide +kernel, mp, hmp, fun h => ?_⟩
  obtain ⟨e, he, hwide⟩ := hany
  obtain ⟨a, ha, hlen⟩ := Option.map_eq_some_iff.mp hwide
  have hother : ¬(mp.family = IPV4_UNICAST ∧ e ∈ mp.prefixes) := by
    rw [hmp, Option.map_some, Option.some.injEq] at hfamily
    rw [hfamily]
    exact fun h => absurd h.1 (by decide)
  have hown := (h.classic e he hother a ha).1
  rw [hown] at hlen
  exact absurd hlen (by decide)

/-- With one next hop for both fields each prefix has its own. -/
theorem ownNextHops_oneHop :
    ∃ mp, (decodeUpdate oneHop bothFamilies.peer.ctx).mpReach = some mp ∧
      OwnNextHops (bothFamilies.handleUpdate plainEnv oneHop)
        (decodeUpdate oneHop bothFamilies.peer.ctx).nlri [192, 0, 2, 1] mp := by
  have hsome : (decodeUpdate oneHop bothFamilies.peer.ctx).mpReach.isSome = true := by
    decide +kernel
  obtain ⟨mp, hmp⟩ := Option.isSome_iff_exists.mp hsome
  have hhops : (decodeUpdate oneHop bothFamilies.peer.ctx).mpReach.map
      (fun mp => (mp.nexthop, mp.nexthopLocal)) = some ([192, 0, 2, 1], []) := by decide +kernel
  rw [hmp, Option.map_some, Option.some.injEq, Prod.mk.injEq] at hhops
  refine ⟨mp, hmp, (ownNextHops_iff plainEnv bothFamilies oneHop _ [192, 0, 2, 1] mp rfl
    (by decide +kernel) (by decide +kernel) (by decide +kernel) hmp ?_).mpr ?_⟩
  · refine ⟨?_, ⟨_, rfl⟩, by decide +kernel⟩
    intro af l hl
    cases hl
  · exact ⟨fun _ _ => ⟨hhops.2, Or.inr hhops.1.symm⟩, fun _ _ => Or.inr hhops.1.symm⟩

end Session

end Packets
