/-
How a malformed UPDATE is graded and applied.

Fields that do not tile the message, or hold no prefix, reset the session.  An attribute that
claims more bytes than there are is recorded under its own type, at the grade of that type.
-/
import Packets.Bgp.Peer
import Packets.Bgp.WireFields

namespace Packets

/-- The severity of one fault. -/
def Fault.severity (fromEbgp : Bool) (f : Fault) : Nat :=
  (attributeOutcome f.attr f.reason fromEbgp).severity

namespace Session

theorem judge_ge_iff {config : PeerConfig} {msg : UpdateMsg} {n : Nat} (hn : 0 < n) :
    n ≤ (judge config msg).severity ↔ ∃ f ∈ msg.errors, n ≤ f.severity config.isEbgp := by
  rw [judge, worstOutcome_ge_iff hn]
  simp only [List.mem_map, exists_exists_and_eq_and, Fault.severity]

theorem judge_eq_reset_iff {config : PeerConfig} {msg : UpdateMsg} :
    judge config msg = .reset ↔ ∃ f ∈ msg.errors, 3 ≤ f.severity config.isEbgp := by
  rw [← judge_ge_iff (by decide)]
  constructor
  · intro h
    rw [h]
    decide
  · intro h
    generalize judge config msg = outcome at h
    cases outcome <;> simp_all [Outcome.severity]

theorem judge_of_listFault {config : PeerConfig} {msg : UpdateMsg} (h : msg.ListFault) :
    judge config msg = .reset := by
  obtain ⟨f, hf, hattr⟩ := h
  exact judge_eq_reset_iff.mpr ⟨f, hf, by simp [Fault.severity, hattr, attributeOutcome,
    Outcome.severity]⟩

theorem handleUpdate_of_reset {env : SessionEnv} {s : Session} {raw : Bytes}
    (h : judge s.peer.config (decodeUpdate raw s.peer.ctx) = .reset) :
    (s.handleUpdate env raw).peer.adjIn = s.peer.adjIn ∧
      (s.handleUpdate env raw).locribs = s.locribs := by
  have hconfig : (s.event env .updateMsg).peer.config = s.peer.config := rfl
  unfold handleUpdate
  dsimp only
  rw [hconfig, if_pos h]
  exact ⟨rfl, rfl⟩

/-- A table that only lost entries. -/
def OnlyLoses (s s' : Session) : Prop :=
  ∀ af table', s'.peer.adjIn.get? af = some table' → ∀ entry attrs, table'.get? entry = some attrs →
    ∃ table, s.peer.adjIn.get? af = some table ∧ table.get? entry = some attrs

theorem OnlyLoses.of_eq {s s' : Session} (h : s'.peer.adjIn = s.peer.adjIn) : OnlyLoses s s' := by
  intro af table' ht entry attrs he
  exact ⟨table', h ▸ ht, he⟩

theorem OnlyLoses.trans {s s' s'' : Session} (h : OnlyLoses s s')
    (h' : OnlyLoses s' s'') : OnlyLoses s s'' := by
  intro af table' ht entry attrs he
  obtain ⟨table, ht₁, he₁⟩ := h' af table' ht entry attrs he
  exact h af table ht₁ entry attrs he₁

theorem withdrawEntry_onlyLoses (af : Family) (s : Session) (entry : Nlri) :
    OnlyLoses s (withdrawEntry af s entry) := by
  unfold withdrawEntry
  split
  · exact .of_eq rfl
  next table htable =>
  split
  · exact .of_eq rfl
  have herased : OnlyLoses s (s.setTable af (table.erase entry)) := by
    intro af' table' ht e attrs he
    rw [setTable, Dict.get?_set] at ht
    split at ht
    · next heq =>
        cases ht
        rw [Dict.get?_erase] at he
        split at he
        · exact absurd he (by simp)
        · exact ⟨table, heq ▸ htable, he⟩
    · exact ⟨table', ht, he⟩
  dsimp only
  split
  · exact herased
  · refine herased.trans (.of_eq ?_)
    unfold dropPath
    split <;> rfl

theorem withdrawMany_onlyLoses (s : Session) (af : Family) (entries : List Nlri) :
    OnlyLoses s (s.withdrawMany af entries) := by
  induction entries generalizing s with
  | nil => exact .of_eq rfl
  | cons entry rest ih => exact (withdrawEntry_onlyLoses af s entry).trans (ih _)

theorem applyUpdate_withdrawOnly (env : SessionEnv) (s : Session) (msg : UpdateMsg) :
    OnlyLoses s (s.applyUpdate env msg true) := by
  have hwithdrawals : OnlyLoses s (s.applyWithdrawals msg) := by
    have hclassic : OnlyLoses s
        (if msg.withdrawn ≠ [] then s.withdrawMany IPV4_UNICAST msg.withdrawn else s) := by
      split
      · exact withdrawMany_onlyLoses _ _ _
      · exact .of_eq rfl
    unfold applyWithdrawals
    dsimp only
    split
    · exact hclassic.trans (withdrawMany_onlyLoses _ _ _)
    · exact hclassic
  have hannounced : ∀ t : Session, OnlyLoses t (t.treatAsWithdraw msg) := by
    intro t
    have hclassic : OnlyLoses t
        (if msg.nlri ≠ [] then t.withdrawMany IPV4_UNICAST msg.nlri else t) := by
      split
      · exact withdrawMany_onlyLoses _ _ _
      · exact .of_eq rfl
    unfold treatAsWithdraw
    dsimp only
    split
    · exact hclassic.trans (withdrawMany_onlyLoses _ _ _)
    · exact hclassic
  exact hwithdrawals.trans (hannounced _)

/-- Only a message graded as accepted, or with an attribute discarded, brings anything
in. -/
theorem handleUpdate_onlyLoses {env : SessionEnv} {s : Session} {raw : Bytes}
    (h : 2 ≤ (judge s.peer.config (decodeUpdate raw s.peer.ctx)).severity) :
    OnlyLoses s (s.handleUpdate env raw) := by
  have hconfig : (s.event env .updateMsg).peer.config = s.peer.config := rfl
  by_cases hreset : judge s.peer.config (decodeUpdate raw s.peer.ctx) = .reset
  · exact .of_eq (handleUpdate_of_reset hreset).1
  have hwithdraw : judge s.peer.config (decodeUpdate raw s.peer.ctx) = .withdraw := by
    generalize judge s.peer.config (decodeUpdate raw s.peer.ctx) = outcome at h hreset
    cases outcome <;> simp_all [Outcome.severity]
  have hevent : OnlyLoses s (s.event env .updateMsg) := .of_eq rfl
  unfold handleUpdate
  dsimp only
  rw [hconfig, hwithdraw, if_neg (by decide)]
  split
  · exact .of_eq rfl
  · exact hevent.trans (applyUpdate_withdrawOnly env _ _)

end Session

theorem attrNext_isAttr {bytes : Bytes} {a : RawAttr} (h : IsAttr bytes a) (rest : Bytes) :
    attrNext (bytes ++ rest) = some (a, rest) := by
  obtain ⟨header, hheader, rfl, hlen⟩ := h
  rw [List.append_assoc, attrNext_header hheader, List.take_left' hlen, List.drop_left' hlen]

theorem attrNext_isCutAttr {bytes : Bytes} {a : RawAttr} (h : IsCutAttr bytes a) :
    attrNext bytes = some (a, []) := by
  obtain ⟨header, hheader, rfl, hlen⟩ := h
  rw [attrNext_header hheader, List.take_of_length_le (by omega), List.drop_of_length_le (by omega)]

theorem readAll_attrs {front : Bytes} {as : List RawAttr}
    (h : Records.Run IsAttr front as) (tail : Bytes) :
    Records.readAll attrNext (front ++ tail).length (front ++ tail) =
      (as ++ (Records.readAll attrNext tail.length tail).1,
        (Records.readAll attrNext tail.length tail).2) := by
  induction h with
  | nil => rfl
  | cons head _ ih =>
    rw [List.append_assoc, Records.readAll_cons attrNext_consumes (attrNext_isAttr head _), ih]
    rfl

theorem rawAttrs_of_run {section' : Bytes} {as : List RawAttr}
    (h : Records.Run IsAttr section' as) : rawAttrs section' = (as, true) := by
  have hread := readAll_attrs h []
  rw [List.append_nil] at hread
  unfold rawAttrs
  rw [hread]
  simp [Records.readAll]

theorem rawAttrs_cut {before last : Bytes} {as : List RawAttr} {a : RawAttr}
    (h : Records.Run IsAttr before as) (hlast : IsCutAttr last a) :
    rawAttrs (before ++ last) = (as ++ [a], true) := by
  have hread := readAll_attrs h last
  have hone : Records.readAll attrNext last.length last = ([a], []) := by
    rw [Records.readAll_cons attrNext_consumes (attrNext_isCutAttr hlast)]
    rfl
  unfold rawAttrs
  rw [hread, hone]
  rfl

theorem decodeAttrs_cut {ctx : DecodeCtx} {before last : Bytes} {as : List RawAttr}
    {a : RawAttr} (h : Records.Run IsAttr before as) (hlast : IsCutAttr last a) :
    decodeAttrs ctx (before ++ last) = (decodeAttrs ctx before).fault (some a.atype) .length := by
  have hover : a.overruns = true := by
    obtain ⟨_, -, -, hlen⟩ := hlast
    simpa [RawAttr.overruns] using hlen
  unfold decodeAttrs
  rw [rawAttrs_cut h hlast, rawAttrs_of_run h]
  simp [stepAttr, hover]

/-- An UPDATE whose last attribute claims more than its section holds. -/
structure Overrun (raw : Bytes) where
  header : Bytes
  withdrawn : Bytes
  before : Bytes
  last : Bytes
  nlri : Bytes
  whole : List RawAttr
  cut : RawAttr
  layout : IsLayout header withdrawn (before ++ last)
  run : Records.Run IsAttr before whole
  isCut : IsCutAttr last cut
  eq : raw = updateBytes header withdrawn (before ++ last) nlri

/-- The same UPDATE without that attribute. -/
def Overrun.without {raw : Bytes} (o : Overrun raw) : Bytes :=
  updateBytes o.header o.withdrawn o.before o.nlri

theorem Overrun.judge_iff {raw : Bytes} (o : Overrun raw) (config : PeerConfig) (ctx : DecodeCtx) :
    2 ≤ (Session.judge config (decodeUpdate raw ctx)).severity ↔
      2 ≤ (Session.judge config (decodeUpdate o.without ctx)).severity ∨
        2 ≤ (Fault.mk (some o.cut.atype) .length).severity config.isEbgp := by
  obtain ⟨header, withdrawn, before, last, nlri, whole, cut, layout, hrun, isCut, rfl⟩ := o
  have hbefore : IsLayout header withdrawn before := by
    have hfits := layout.attrs
    rw [List.length_append] at hfits
    exact ⟨layout.header, layout.withdrawn, by omega⟩
  have hdecode := decodeUpdate_updateBytes layout nlri ctx
  have hwithout := decodeUpdate_updateBytes hbefore nlri ctx
  dsimp only [Overrun.without] at hdecode hwithout ⊢
  rw [hdecode, hwithout]
  generalize readNlri (ctx.addPath.contains IPV4_UNICAST) AFI_IP withdrawn = run
  have hge : ∀ msg, 2 ≤ (Session.judge config msg).severity ↔
      ∃ f ∈ msg.errors, 2 ≤ f.severity config.isEbgp := fun _ =>
    Session.judge_ge_iff (by decide)
  by_cases hok : run.2 = true
  · simp only [hok, ↓reduceIte, hge, decodeFields_errors,
      decodeAttrs_cut hrun isCut, AttrState.fault, List.nil_append, List.mem_append,
      List.mem_singleton, or_and_right, exists_or, exists_eq_left]
    exact or_right_comm
  · have hreset : Session.judge config
        { withdrawn := run.1, errors := [⟨none, .unparseable⟩] } = .reset :=
      Session.judge_of_listFault ⟨_, List.mem_cons_self, rfl⟩
    have hsevere : 2 ≤ Outcome.reset.severity := by decide
    simp only [if_neg hok, hreset, hsevere, true_or]

/-- The types whose faults only discard the attribute. -/
def lenientTypes (fromEbgp : Bool) : List UInt8 :=
  [ATTR_ATOMIC_AGGREGATE, ATTR_AGGREGATOR, ATTR_AS4_PATH, ATTR_AS4_AGGREGATOR] ++
    if fromEbgp then [ATTR_ORIGINATOR_ID, ATTR_CLUSTER_LIST] else []

theorem severity_overrun_iff (atype : UInt8) (fromEbgp : Bool) :
    2 ≤ (Fault.mk (some atype) .length).severity fromEbgp ↔ atype ∉ lenientTypes fromEbgp := by
  unfold Fault.severity attributeOutcome
  simp only [reduceCtorEq, ↓reduceIte]
  by_cases hinternal : fromEbgp = true ∧ atype ∈ [ATTR_ORIGINATOR_ID, ATTR_CLUSTER_LIST]
  · have hmem : atype ∈ lenientTypes fromEbgp := by
      rw [lenientTypes, hinternal.1, if_pos rfl]
      exact List.mem_append_right _ hinternal.2
    rw [if_pos hinternal]
    simp only [hmem, not_true_eq_false, iff_false]
    decide
  · rw [if_neg hinternal]
    have hiff : atype ∈ lenientTypes fromEbgp ↔ atype ∈ [ATTR_ATOMIC_AGGREGATE,
        ATTR_AGGREGATOR, ATTR_AS4_PATH, ATTR_AS4_AGGREGATOR] := by
      rw [lenientTypes, List.mem_append]
      refine ⟨fun h => h.resolve_right fun hin => ?_, Or.inl⟩
      split at hin
      · next hebgp => exact hinternal ⟨hebgp, hin⟩
      · simp at hin
    rw [hiff]
    unfold attributeMatrix
    by_cases hwithdraw : atype ∈ [ATTR_ORIGIN, ATTR_AS_PATH, ATTR_NEXT_HOP, ATTR_MED,
        ATTR_LOCAL_PREF, ATTR_COMMUNITIES, ATTR_ORIGINATOR_ID, ATTR_CLUSTER_LIST,
        ATTR_EXT_COMMUNITIES, ATTR_LARGE_COMMUNITY]
    · have hnot : atype ∉ [ATTR_ATOMIC_AGGREGATE, ATTR_AGGREGATOR, ATTR_AS4_PATH,
          ATTR_AS4_AGGREGATOR] := by
        simp only [List.mem_cons, List.not_mem_nil, or_false] at hwithdraw
        rcases hwithdraw with rfl | rfl | rfl | rfl | rfl | rfl | rfl | rfl | rfl | rfl <;>
          decide
      simp only [hwithdraw, ↓reduceIte, hnot, not_false_eq_true, iff_true]
      decide
    · rw [if_neg hwithdraw]
      by_cases hdiscard : atype ∈ [ATTR_ATOMIC_AGGREGATE, ATTR_AGGREGATOR, ATTR_AS4_PATH,
          ATTR_AS4_AGGREGATOR]
      · simp only [hdiscard, ↓reduceIte, not_true_eq_false, iff_false]
        decide
      · rw [if_neg hdiscard]
        simp only [hdiscard, not_false_eq_true, iff_true]
        by_cases hmp : atype ∈ [ATTR_MP_REACH, ATTR_MP_UNREACH]
        · rw [if_pos hmp]
          decide
        · rw [if_neg hmp]
          decide

theorem decodeAttr_mpReach (ctx : DecodeCtx) (flags : UInt8) (value : Bytes) (st : AttrState) :
    decodeAttr ctx flags ATTR_MP_REACH value st =
      if ¬ flags &&& AFLAG_OPTIONAL ≠ 0 ∨ flags &&& AFLAG_TRANSITIVE ≠ 0 then
        st.fault (some ATTR_MP_REACH) .flags
      else decodeMpReach ctx value st := rfl

theorem decodeAttr_mpUnreach (ctx : DecodeCtx) (flags : UInt8) (value : Bytes) (st : AttrState) :
    decodeAttr ctx flags ATTR_MP_UNREACH value st =
      if ¬ flags &&& AFLAG_OPTIONAL ≠ 0 ∨ flags &&& AFLAG_TRANSITIVE ≠ 0 then
        st.fault (some ATTR_MP_UNREACH) .flags
      else decodeMpUnreach ctx value st := rfl

/-- The family of an MP attribute and where its prefixes stand, when the session takes
the family. -/
def mpField (ctx : DecodeCtx) (a : RawAttr) : Option (Family × Bytes) :=
  if a.value.length < 3 ∨ familyOk ctx (rdFamily a.value) = false then none
  else if a.atype = ATTR_MP_REACH then
    (mpReachHdr a.value).map fun hdr => (rdFamily a.value, hdr.2)
  else if a.atype = ATTR_MP_UNREACH then some (rdFamily a.value, a.value.drop 3)
  else none

/-- The prefixes of an MP attribute are a list of well-formed entries. -/
def MpFieldOk (ctx : DecodeCtx) (a : RawAttr) : Prop :=
  ∀ family field, mpField ctx a = some (family, field) →
    IsNlriField (ctx.addPath.contains family) family.1 field

/-- A fault that costs the session whatever the peer. -/
def Fault.Fatal (f : Fault) : Prop := ∀ fromEbgp, 3 ≤ f.severity fromEbgp

theorem fatal_mp {atype : UInt8} {reason : Reason}
    (htype : atype = ATTR_MP_REACH ∨ atype = ATTR_MP_UNREACH)
    (hreason : reason ≠ .unnegotiated ∧ reason ≠ .missing) :
    (Fault.mk (some atype) reason).Fatal := by
  intro fromEbgp
  rcases htype with rfl | rfl <;> cases reason <;> cases fromEbgp <;>
    first | decide | simp at hreason

theorem AttrState.fault_fatal (st : AttrState) {atype : UInt8} {reason : Reason}
    (htype : atype = ATTR_MP_REACH ∨ atype = ATTR_MP_UNREACH)
    (hreason : reason ≠ .unnegotiated ∧ reason ≠ .missing) :
    ∃ f ∈ (st.fault (some atype) reason).errors, f.Fatal :=
  ⟨_, List.mem_append_right _ List.mem_cons_self, fatal_mp htype hreason⟩

theorem decodeMpReach_fatal {ctx : DecodeCtx} {value : Bytes} {hdr : Bytes × Bytes}
    (hlen : ¬ value.length < 3) (hfamily : familyOk ctx (rdFamily value) = true)
    (hhdr : mpReachHdr value = some hdr)
    (hbad : ¬ IsNlriField (ctx.addPath.contains (rdFamily value)) (rdFamily value).1 hdr.2)
    (st : AttrState) : ∃ f ∈ (decodeMpReach ctx value st).errors, f.Fatal := by
  have hread : (readNlri (ctx.addPath.contains (rdFamily value)) (rdFamily value).1
      hdr.2).2 = false := by
    rw [← readNlri_ok_iff] at hbad
    simpa using hbad
  unfold decodeMpReach
  rw [if_neg hlen, hhdr]
  simp only [hfamily, Bool.not_true, Bool.false_eq_true, ↓reduceIte, hread, Bool.not_false]
  split
  · exact st.fault_fatal (Or.inl rfl) (by decide)
  · exact st.fault_fatal (Or.inl rfl) (by decide)

theorem decodeMpUnreach_fatal {ctx : DecodeCtx} {value : Bytes} (hlen : ¬ value.length < 3)
    (hfamily : familyOk ctx (rdFamily value) = true)
    (hbad : ¬ IsNlriField (ctx.addPath.contains (rdFamily value)) (rdFamily value).1 (value.drop 3))
    (st : AttrState) : ∃ f ∈ (decodeMpUnreach ctx value st).errors, f.Fatal := by
  have hread : (readNlri (ctx.addPath.contains (rdFamily value)) (rdFamily value).1
      (value.drop 3)).2 = false := by
    rw [← readNlri_ok_iff] at hbad
    simpa using hbad
  unfold decodeMpUnreach
  rw [if_neg hlen]
  simp only [hfamily, Bool.not_true, Bool.false_eq_true, ↓reduceIte, hread, Bool.not_false]
  exact st.fault_fatal (Or.inr rfl) (by decide)

/-- An MP attribute with a bad prefix field is fatal wherever in the list it stands and
whatever else is wrong with it. -/
theorem stepAttr_fatal {ctx : DecodeCtx} {a : RawAttr} (hbad : ¬ MpFieldOk ctx a)
    (st : AttrState) : ∃ f ∈ (stepAttr ctx st a).errors, f.Fatal := by
  obtain ⟨flags, atype, claimed, value⟩ := a
  simp only [MpFieldOk, not_forall] at hbad
  obtain ⟨family, field, hfield, hbad⟩ := hbad
  unfold mpField at hfield
  split at hfield
  · exact absurd hfield (by simp)
  next hok =>
  simp only [not_or, Bool.not_eq_false] at hok
  have htype : atype = ATTR_MP_REACH ∨ atype = ATTR_MP_UNREACH := by
    by_contra hother
    rw [not_or] at hother
    rw [if_neg hother.1, if_neg hother.2] at hfield
    exact absurd hfield (by simp)
  unfold stepAttr
  split
  · exact st.fault_fatal htype (by decide)
  split
  · exact st.fault_fatal htype (by decide)
  rcases htype with rfl | rfl
  · rw [if_pos rfl] at hfield
    obtain ⟨hdr, hhdr, heq⟩ := Option.map_eq_some_iff.mp hfield
    rw [Prod.mk.injEq] at heq
    obtain ⟨rfl, rfl⟩ := heq
    rw [decodeAttr_mpReach]
    split
    · exact AttrState.fault_fatal _ (Or.inl rfl) (by decide)
    · exact decodeMpReach_fatal hok.1 hok.2 hhdr hbad _
  · have hne : ATTR_MP_UNREACH ≠ ATTR_MP_REACH := by decide
    rw [if_neg hne, if_pos rfl, Option.some.injEq, Prod.mk.injEq] at hfield
    obtain ⟨rfl, rfl⟩ := hfield
    rw [decodeAttr_mpUnreach]
    split
    · exact AttrState.fault_fatal _ (Or.inr rfl) (by decide)
    · exact decodeMpUnreach_fatal hok.1 hok.2 hbad _

theorem foldl_stepAttr_fatal {ctx : DecodeCtx} {as : List RawAttr} {a : RawAttr}
    (ha : a ∈ as) (hbad : ¬ MpFieldOk ctx a) (st : AttrState) :
    ∃ f ∈ (as.foldl (stepAttr ctx) st).errors, f.Fatal := by
  induction as generalizing st with
  | nil => exact absurd ha (by simp)
  | cons b rest ih =>
    rcases List.mem_cons.mp ha with rfl | hrest
    · obtain ⟨f, hf, hfatal⟩ := stepAttr_fatal hbad st
      exact ⟨f, (foldl_stepAttr_extends ctx rest _).errors f hf, hfatal⟩
    · exact ih hrest _

theorem decodeAttrs_fatal {ctx : DecodeCtx} {attrs : Bytes} {a : RawAttr}
    (ha : a ∈ (rawAttrs attrs).1) (hbad : ¬ MpFieldOk ctx a) :
    ∃ f ∈ (decodeAttrs ctx attrs).errors, f.Fatal := by
  obtain ⟨f, hf, hfatal⟩ := foldl_stepAttr_fatal ha hbad {}
  refine ⟨f, ?_, hfatal⟩
  unfold decodeAttrs
  dsimp only
  split
  · exact hf
  · exact (AttrState.fault_extends _ _ _).errors f hf

/-- A message whose fields tile it, each of its prefix fields a list of well-formed
entries. -/
def Tiled (ctx : DecodeCtx) (raw : Bytes) : Prop :=
  ∃ header withdrawn attrs nlri,
    IsLayout header withdrawn attrs ∧ raw = updateBytes header withdrawn attrs nlri ∧
    IsNlriField (ctx.addPath.contains IPV4_UNICAST) AFI_IP withdrawn ∧
    IsNlriField (ctx.addPath.contains IPV4_UNICAST) AFI_IP nlri ∧
    ∀ a ∈ (rawAttrs attrs).1, MpFieldOk ctx a

/-- A message that does not tile costs the session. -/
theorem judge_of_not_tiled {config : PeerConfig} {ctx : DecodeCtx} {raw : Bytes}
    (h : ¬ Tiled ctx raw) : Session.judge config (decodeUpdate raw ctx) = .reset := by
  by_contra hjudge
  have hlist : ∀ f ∈ (decodeUpdate raw ctx).errors, f.attr ≠ none := fun f hf hattr =>
    hjudge (Session.judge_of_listFault ⟨f, hf, hattr⟩)
  have hfatal : ∀ f ∈ (decodeUpdate raw ctx).errors, ¬ f.Fatal := fun f hf hfatal =>
    hjudge (Session.judge_eq_reset_iff.mpr ⟨f, hf, hfatal _⟩)
  obtain ⟨header, withdrawn, attrs, nlri, hlayout, rfl⟩ :=
    exists_layout fun ⟨f, hf, hattr⟩ => hlist f hf hattr
  rw [decodeUpdate_updateBytes hlayout] at hlist hfatal
  dsimp only at hlist hfatal
  split at hlist
  case isFalse => exact hlist _ List.mem_cons_self rfl
  next hwithdrawn =>
  rw [if_pos hwithdrawn] at hfatal
  rw [decodeFields_errors] at hlist hfatal
  refine h ⟨header, withdrawn, attrs, nlri, hlayout, rfl,
    (readNlri_ok_iff _ _ _).mp hwithdrawn, (readNlri_ok_iff _ _ _).mp ?_, ?_⟩
  · by_contra hnlri
    refine hlist ⟨none, .unparseable⟩ (List.mem_append_right _ ?_) rfl
    dsimp only
    rw [if_neg hnlri]
    exact List.mem_cons_self
  · intro a ha
    by_contra hbad
    obtain ⟨f, hf, hf'⟩ := decodeAttrs_fatal ha hbad
    exact hfatal f (List.mem_append_left _ (List.mem_append_right _ hf)) hf'

/-- How an UPDATE is graded and what it changes. -/
structure Graded (env : SessionEnv) (s : Session) (raw : Bytes) : Prop where
  /-- A message that does not tile is a reset, and nothing of it is applied. -/
  tiled : ¬ Tiled s.peer.ctx raw →
    Session.judge s.peer.config (decodeUpdate raw s.peer.ctx) = .reset ∧
      (s.handleUpdate env raw).peer.adjIn = s.peer.adjIn ∧
      (s.handleUpdate env raw).locribs = s.locribs
  /-- An attribute that overruns its section withdraws at least. -/
  overrun : Overrun raw → 2 ≤ (Session.judge s.peer.config (decodeUpdate raw s.peer.ctx)).severity
  /-- Prefixes come in only with a grade that lets the announcements through. -/
  entered : Session.judge s.peer.config (decodeUpdate raw s.peer.ctx) ∉
      [.ok, .discard] → Session.OnlyLoses s (s.handleUpdate env raw)

/-- The attribute that overruns, if there is one, is of a type whose faults withdraw, or
the rest of the message is bad enough by itself. -/
def OverrunsWithdraw (config : PeerConfig) (ctx : DecodeCtx) (raw : Bytes) : Prop :=
  ∀ o : Overrun raw, o.cut.atype ∉ lenientTypes config.isEbgp ∨
    2 ≤ (Session.judge config (decodeUpdate o.without ctx)).severity

/-- Grading is as it should be except for an overrun of a lenient type. -/
theorem graded_iff (env : SessionEnv) (s : Session) (raw : Bytes) :
    Graded env s raw ↔ OverrunsWithdraw s.peer.config s.peer.ctx raw := by
  constructor
  · intro h o
    have hsevere := h.overrun o
    rw [o.judge_iff, severity_overrun_iff] at hsevere
    exact hsevere.symm
  · intro h
    refine ⟨fun htiled => ?_, fun o => ?_, fun hgrade => ?_⟩
    · have hreset : Session.judge s.peer.config (decodeUpdate raw s.peer.ctx) = .reset :=
        judge_of_not_tiled htiled
      exact ⟨hreset, Session.handleUpdate_of_reset hreset⟩
    · rw [o.judge_iff, severity_overrun_iff]
      exact (h o).symm
    · refine Session.handleUpdate_onlyLoses ?_
      generalize Session.judge s.peer.config (decodeUpdate raw s.peer.ctx) = outcome at hgrade
      cases outcome <;> simp_all [Outcome.severity]

/-- ORIGIN, AS_PATH and NEXT_HOP. -/
def plainAttrs : Bytes :=
  [0x40, 1, 1, 0, 0x40, 2, 6, 2, 1, 0, 0, 0xfd, 0xe9, 0x40, 3, 4, 192, 0, 2, 1]

/-- An UPDATE for 10.0.0.0/8 with an AGGREGATOR that claims eight octets and has
none. -/
def shortAggregator : Bytes :=
  updateBytes (List.replicate 16 255 ++ [0, 48, 2]) [] (plainAttrs ++ [0xc0, 7, 8]) [8, 10]

/-- The overrun costs only the attribute, and the route goes in. -/
theorem not_graded_shortAggregator :
    Session.judge externalConfig (decodeUpdate shortAggregator {}) = .discard ∧
      ((externalSession.handleUpdate plainEnv shortAggregator).peer.adjIn.get?
        IPV4_UNICAST).map Dict.size = some 1 ∧
      ¬ Graded plainEnv externalSession shortAggregator := by
  have hjudge : Session.judge externalConfig (decodeUpdate shortAggregator {}) =
      .discard := by decide +kernel
  refine ⟨hjudge, by decide +kernel, fun h => ?_⟩
  have hsevere := h.overrun {
    header := List.replicate 16 255 ++ [0, 48, 2]
    withdrawn := []
    before := plainAttrs
    last := [0xc0, 7, 8]
    nlri := [8, 10]
    whole := (rawAttrs plainAttrs).1
    cut := ⟨0xc0, 7, 8, []⟩
    layout := ⟨by decide, by decide, by decide⟩
    run := .cons (e := [0x40, 1, 1, 0]) ⟨_, .short 1 (by decide), rfl, rfl⟩
      (.cons (e := [0x40, 2, 6, 2, 1, 0, 0, 0xfd, 0xe9]) ⟨_, .short 6 (by decide), rfl, rfl⟩
        (.cons (e := [0x40, 3, 4, 192, 0, 2, 1]) ⟨_, .short 4 (by decide), rfl, rfl⟩ .nil))
    isCut := ⟨_, .short 8 (by decide), rfl, by decide⟩
    eq := rfl }
  change 2 ≤ (Session.judge externalConfig (decodeUpdate shortAggregator {})).severity at hsevere
  rw [hjudge] at hsevere
  exact absurd hsevere (by decide)

end Packets
