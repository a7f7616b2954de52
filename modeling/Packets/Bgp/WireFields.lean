/-
What the fields of an UPDATE are made of: prefixes and attributes, described by their
bytes, and the decoder's readers measured against the descriptions.
-/
import Packets.Bgp.Wire

namespace Packets

theorem plenBytes_le_iff (plen len : Nat) : plenBytes plen ≤ len ↔ plen ≤ 8 * len := by
  unfold plenBytes
  omega

theorem pfxNew_eq_some {afi plen : Nat} {src : Bytes} {p : Prefix}
    (h : pfxNew afi plen src = some p) :
    p.afi = afi ∧ p.plen = plen ∧ pfxAddrLen afi ≠ 0 ∧ plen ≤ pfxAddrBits afi := by
  unfold pfxNew Prefix.new at h
  split at h
  · next hok =>
      cases h
      exact ⟨rfl, rfl, hok.1, hok.2.1⟩
  · exact absurd h (by simp)

/-- The bytes of one well-formed entry: a path identifier when the session has them, a
prefix length within the family, and the address bytes it takes. -/
inductive IsEntry (addPath : Bool) (afi : Nat) : Bytes → Nlri → Prop where
  | mk (id addr : Bytes) (plen : UInt8) (p : Prefix)
      (hid : id.length = if addPath then 4 else 0)
      (haddr : addr.length = plenBytes plen.toNat)
      (hp : pfxNew afi plen.toNat addr = some p) :
      IsEntry addPath afi (id ++ plen :: addr) (p, BigEndian.toNat id)

theorem nlriNext_cuts (addPath : Bool) (afi : Nat) :
    Records.Cuts (nlriNext addPath afi) (IsEntry addPath afi) where
  sound s v rest h := by
    unfold nlriNext at h
    dsimp only at h
    generalize hid : (if addPath then 4 else 0) = skip at h
    split at h
    · exact absurd h (by simp)
    next hskip =>
    split at h
    · exact absurd h (by simp)
    next plen tail htail =>
    split at h
    · exact absurd h (by simp)
    next hroom =>
    obtain ⟨p, hp, hv⟩ := Option.map_eq_some_iff.mp h
    rw [Prod.mk.injEq] at hv
    have hlen : (tail.take (plenBytes plen.toNat)).length = plenBytes plen.toNat := by
      rw [List.length_take]
      omega
    have hidlen : (s.take skip).length = if addPath then 4 else 0 := by
      rw [List.length_take, hid]
      omega
    refine ⟨s.take skip ++ plen :: tail.take (plenBytes plen.toNat),
      hv.1 ▸ .mk _ _ plen p hidlen hlen hp, ?_⟩
    rw [← hv.2, List.append_assoc, List.cons_append, List.take_append_drop, ← htail,
      List.take_append_drop]
  complete e v rest h := by
    cases h with
    | mk id addr plen p hid haddr hp =>
      obtain ⟨-, -, hknown, hplen⟩ := pfxNew_eq_some hp
      have hle : plenBytes plen.toNat ≤ pfxAddrLen afi := by
        rw [plenBytes_le_iff, ← pfxAddrBits_eq]
        exact hplen
      unfold nlriNext
      dsimp only
      have hskip : ¬ (id ++ plen :: addr ++ rest).length < if addPath then 4 else 0 := by
        simp only [List.length_append, ← hid]
        omega
      have hdrop : (id ++ plen :: addr ++ rest).drop (if addPath then 4 else 0) =
          plen :: (addr ++ rest) := by
        rw [← hid]
        simp
      have htake : (id ++ plen :: addr ++ rest).take (if addPath then 4 else 0) = id := by
        rw [← hid]
        simp
      have hroom : ¬ (plenBytes plen.toNat > pfxAddrLen afi ∨
          (addr ++ rest).length < plenBytes plen.toNat) := by
        rw [List.length_append, haddr]
        omega
      rw [if_neg hskip, hdrop]
      dsimp only
      rw [if_neg hroom, htake, ← haddr, List.take_left', List.drop_left', hp]
      · rfl
      · rfl
      · rfl
  nonempty e v h := by
    cases h
    simp

/-- A field that is a concatenation of well-formed entries. -/
def IsNlriField (addPath : Bool) (afi : Nat) (field : Bytes) : Prop :=
  ∃ entries, Records.Run (IsEntry addPath afi) field entries

theorem readNlri_ok_iff (addPath : Bool) (afi : Nat) (field : Bytes) :
    (readNlri addPath afi field).2 = true ↔ IsNlriField addPath afi field := by
  unfold readNlri IsNlriField
  dsimp only
  rw [List.isEmpty_iff]
  constructor
  · intro h
    exact ⟨_, (nlriNext_cuts addPath afi).readAll_eq_iff.mp (Prod.ext rfl h)⟩
  · rintro ⟨entries, hrun⟩
    rw [(nlriNext_cuts addPath afi).readAll_eq_iff.mpr hrun]

theorem readNlri_afi {addPath : Bool} {afi : Nat} {field : Bytes} {e : Nlri}
    (h : e ∈ (readNlri addPath afi field).1) : e.1.afi = afi := by
  obtain ⟨front, hrun, -⟩ :=
    (nlriNext_cuts addPath afi).readAll_run (n := field.length) (s := field)
  obtain ⟨bytes, hentry⟩ := hrun.mem h
  cases hentry with
  | mk _ _ _ p _ _ hp => exact (pfxNew_eq_some hp).1

/-- The header of an attribute: its flags, its type and the length it claims, in one
octet or in two. -/
inductive IsAttrHeader (flags atype : UInt8) : Nat → Bytes → Prop where
  | short (len : UInt8) (h : flags &&& AFLAG_EXT_LEN = 0) :
      IsAttrHeader flags atype len.toNat [flags, atype, len]
  | extended (high low : UInt8) (h : flags &&& AFLAG_EXT_LEN ≠ 0) :
      IsAttrHeader flags atype (BigEndian.toNat [high, low]) [flags, atype, high, low]

theorem attrNext_header {flags atype : UInt8} {claimed : Nat} {header : Bytes}
    (h : IsAttrHeader flags atype claimed header) (rest : Bytes) :
    attrNext (header ++ rest) =
      some (⟨flags, atype, claimed, rest.take claimed⟩, rest.drop claimed) := by
  cases h with
  | short len h => simp [attrNext, h]
  | extended high low h => simp [attrNext, h]

/-- One attribute that is all there. -/
def IsAttr (bytes : Bytes) (a : RawAttr) : Prop :=
  ∃ header, IsAttrHeader a.flags a.atype a.claimed header ∧ bytes = header ++ a.value ∧
    a.value.length = a.claimed

/-- An attribute that claims more than there is. -/
def IsCutAttr (bytes : Bytes) (a : RawAttr) : Prop :=
  ∃ header, IsAttrHeader a.flags a.atype a.claimed header ∧ bytes = header ++ a.value ∧
    a.value.length < a.claimed

/-- The prefixes of an MP_REACH are of its family. -/
def MpReach.Sorted (mp : MpReach) : Prop := ∀ e ∈ mp.prefixes, e.1.afi = mp.family.1

/-- What decoding one attribute may do to the state of the loop. -/
structure AttrState.Extends (st st' : AttrState) : Prop where
  seen : ∀ t ∈ st.seen, t ∈ st'.seen
  errors : ∀ f ∈ st.errors, f ∈ st'.errors
  mpReach : ∀ mp, st'.mpReach = some mp → st.mpReach = some mp ∨ mp.Sorted

theorem AttrState.Extends.refl (st : AttrState) : AttrState.Extends st st :=
  ⟨fun _ h => h, fun _ h => h, fun _ h => Or.inl h⟩

theorem AttrState.Extends.trans {st st' st'' : AttrState} (h : st.Extends st')
    (h' : st'.Extends st'') : st.Extends st'' where
  seen t ht := h'.seen t (h.seen t ht)
  errors f hf := h'.errors f (h.errors f hf)
  mpReach mp hmp := by
    rcases h'.mpReach mp hmp with hold | hsorted
    · exact h.mpReach mp hold
    · exact Or.inr hsorted

theorem AttrState.Extends.ite {st a b : AttrState} {c : Prop} [Decidable c]
    (ha : st.Extends a) (hb : st.Extends b) : st.Extends (if c then a else b) := by
  split
  · exact ha
  · exact hb

theorem AttrState.put_extends (st : AttrState) (attrs : AttrSet) :
    st.Extends (st.put attrs) := ⟨fun _ h => h, fun _ h => h, fun _ h => Or.inl h⟩

theorem AttrState.fault_extends (st : AttrState) (attr : Option UInt8) (reason : Reason) :
    st.Extends (st.fault attr reason) :=
  ⟨fun _ h => h, fun _ h => List.mem_append_left _ h, fun _ h => Or.inl h⟩

theorem decodeMpReach_extends (ctx : DecodeCtx) (value : Bytes) (st : AttrState) :
    st.Extends (decodeMpReach ctx value st) := by
  unfold decodeMpReach
  split
  · exact st.fault_extends ..
  split
  · exact st.fault_extends ..
  dsimp only
  split
  · exact st.fault_extends ..
  split
  · exact st.fault_extends ..
  split
  · exact st.fault_extends ..
  · refine ⟨fun _ h => h, fun _ h => h, ?_⟩
    intro mp hmp
    cases hmp
    exact Or.inr fun e he => readNlri_afi he

theorem decodeMpUnreach_extends (ctx : DecodeCtx) (value : Bytes) (st : AttrState) :
    st.Extends (decodeMpUnreach ctx value st) := by
  unfold decodeMpUnreach
  split
  · exact st.fault_extends ..
  dsimp only
  split
  · exact st.fault_extends ..
  split
  · exact st.fault_extends ..
  · exact ⟨fun _ h => h, fun _ h => h, fun _ h => Or.inl h⟩

theorem decodeAttr_extends (ctx : DecodeCtx) (flags atype : UInt8) (value : Bytes)
    (st : AttrState) : st.Extends (decodeAttr ctx flags atype value st) := by
  unfold decodeAttr
  dsimp only
  repeat' first
    | exact st.put_extends _
    | exact st.fault_extends ..
    | exact decodeMpReach_extends ..
    | exact decodeMpUnreach_extends ..
    | exact AttrState.Extends.refl st
    | exact ⟨fun _ h => h, fun _ h => h, fun _ h => Or.inl h⟩
    | refine AttrState.Extends.ite ?_ ?_
    | split

theorem stepAttr_extends (ctx : DecodeCtx) (st : AttrState) (a : RawAttr) :
    st.Extends (stepAttr ctx st a) := by
  unfold stepAttr
  split
  · exact st.fault_extends ..
  split
  · exact st.fault_extends ..
  · have hseen : st.Extends { st with seen := st.seen ++ [a.atype] } :=
      ⟨fun _ h => List.mem_append_left _ h, fun _ h => h, fun _ h => Or.inl h⟩
    exact hseen.trans (decodeAttr_extends ..)

theorem foldl_stepAttr_extends (ctx : DecodeCtx) (attrs : List RawAttr) (st : AttrState) :
    st.Extends (attrs.foldl (stepAttr ctx) st) := by
  induction attrs generalizing st with
  | nil => exact AttrState.Extends.refl st
  | cons a rest ih => exact (stepAttr_extends ctx st a).trans (ih _)

theorem decodeAttrs_sorted {ctx : DecodeCtx} {field : Bytes} {mp : MpReach}
    (h : (decodeAttrs ctx field).mpReach = some mp) : mp.Sorted := by
  have hloop := foldl_stepAttr_extends ctx (rawAttrs field).1 {}
  unfold decodeAttrs at h
  dsimp only at h
  have hmp : ((rawAttrs field).1.foldl (stepAttr ctx) {}).mpReach = some mp := by
    split at h <;> exact h
  rcases hloop.mpReach mp hmp with hnone | hsorted
  · exact absurd hnone (by simp)
  · exact hsorted

/-- An UPDATE by its parts: a header, the withdrawn routes, the attributes and the
NLRI, the first two of them with their lengths in front. -/
def updateBytes (header withdrawn attrs nlri : Bytes) : Bytes :=
  header ++ BigEndian.ofNat 2 withdrawn.length ++ withdrawn ++
    BigEndian.ofNat 2 attrs.length ++ attrs ++ nlri

/-- The parts fit their length fields. -/
structure IsLayout (header withdrawn attrs : Bytes) : Prop where
  header : header.length = HEADER_LEN
  withdrawn : withdrawn.length < 65536
  attrs : attrs.length < 65536

theorem rdU16_ofNat {n : Nat} (h : n < 65536) (rest : Bytes) :
    rdU16 (BigEndian.ofNat 2 n ++ rest) = n := by
  have htake : (BigEndian.ofNat 2 n ++ rest).take 2 = BigEndian.ofNat 2 n :=
    List.take_left' (BigEndian.length_ofNat 2 n)
  rw [rdU16, htake, BigEndian.toNat_ofNat h]

theorem rdU16_lt (s : Bytes) : rdU16 s < 65536 := by
  have hlt := BigEndian.toNat_lt (s.take 2)
  have hle : (s.take 2).length ≤ 2 := by
    rw [List.length_take]
    omega
  exact Nat.lt_of_lt_of_le hlt (Nat.pow_le_pow_right (by decide) hle)

theorem ofNat_rdU16 {s : Bytes} (h : 2 ≤ s.length) : BigEndian.ofNat 2 (rdU16 s) = s.take 2 :=
  BigEndian.ofNat_toNat (by rw [List.length_take]; omega)

theorem drop_two_ofNat (n : Nat) (rest : Bytes) : (BigEndian.ofNat 2 n ++ rest).drop 2 = rest :=
  List.drop_left' (BigEndian.length_ofNat 2 n)

theorem decodeRest_append {ctx : DecodeCtx} {m : UpdateMsg} {attrs : Bytes}
    (h : attrs.length < 65536) (nlri : Bytes) :
    decodeRest ctx m (BigEndian.ofNat 2 attrs.length ++ attrs ++ nlri) =
      decodeFields ctx m attrs nlri := by
  have hlong : ¬ (BigEndian.ofNat 2 attrs.length ++ attrs ++ nlri).length < 2 := by
    simp only [List.length_append, BigEndian.length_ofNat]
    omega
  have hroom : ¬ (attrs ++ nlri).length < attrs.length := by
    rw [List.length_append]
    omega
  unfold decodeRest
  rw [if_neg hlong, List.append_assoc, rdU16_ofNat h, drop_two_ofNat]
  dsimp only
  rw [if_neg hroom, List.take_left, List.drop_left]

/-- Decoding a message given by its parts. -/
theorem decodeUpdate_updateBytes {header withdrawn attrs : Bytes}
    (h : IsLayout header withdrawn attrs) (nlri : Bytes) (ctx : DecodeCtx) :
    decodeUpdate (updateBytes header withdrawn attrs nlri) ctx =
      let run := readNlri (ctx.addPath.contains IPV4_UNICAST) AFI_IP withdrawn
      if run.2 = true then decodeFields ctx { withdrawn := run.1 } attrs nlri
      else { withdrawn := run.1, errors := [⟨none, .unparseable⟩] } := by
  have hheader := h.header
  have hbody : (updateBytes header withdrawn attrs nlri).drop HEADER_LEN =
      BigEndian.ofNat 2 withdrawn.length ++
        (withdrawn ++ (BigEndian.ofNat 2 attrs.length ++ attrs ++ nlri)) := by
    simp only [updateBytes, List.append_assoc]
    exact List.drop_left' hheader
  have hlong : ¬ (updateBytes header withdrawn attrs nlri).length < MIN_UPDATE := by
    simp only [updateBytes, List.length_append, hheader, BigEndian.length_ofNat,
      MIN_UPDATE, HEADER_LEN]
    omega
  unfold decodeUpdate
  rw [if_neg hlong, hbody]
  dsimp only
  rw [rdU16_ofNat h.withdrawn, drop_two_ofNat, if_neg (by simp), List.take_left,
    List.drop_left, decodeRest_append h.attrs]
  generalize readNlri (ctx.addPath.contains IPV4_UNICAST) AFI_IP withdrawn = run
  by_cases hok : run.2 = true <;> simp [hok]

/-- A fault of the attribute list as a whole. -/
def UpdateMsg.ListFault (m : UpdateMsg) : Prop := ∃ f ∈ m.errors, f.attr = none

/-- A message without a fault of the list as a whole is made of parts that fit. -/
theorem exists_layout {raw : Bytes} {ctx : DecodeCtx} (h : ¬ (decodeUpdate raw ctx).ListFault) :
    ∃ header withdrawn attrs nlri, IsLayout header withdrawn attrs ∧
      raw = updateBytes header withdrawn attrs nlri := by
  unfold decodeUpdate at h
  split at h
  · exact absurd ⟨_, List.mem_cons_self, rfl⟩ h
  next hlong =>
  dsimp only at h
  split at h
  · exact absurd ⟨_, List.mem_cons_self, rfl⟩ h
  next hwithdrawn =>
  split at h
  · exact absurd ⟨_, List.mem_cons_self, rfl⟩ h
  unfold decodeRest at h
  split at h
  · exact absurd ⟨_, List.mem_append_right _ List.mem_cons_self, rfl⟩ h
  next hroom =>
  dsimp only at h
  split at h
  · exact absurd ⟨_, List.mem_append_right _ List.mem_cons_self, rfl⟩ h
  next hattrs =>
  simp only [MIN_UPDATE] at hlong
  let body := raw.drop HEADER_LEN
  let wlen := rdU16 body
  let rest := (body.drop 2).drop wlen
  let tpalen := rdU16 rest
  have hbody : 2 ≤ body.length := by
    simp only [body, List.length_drop, HEADER_LEN]
    omega
  have hrest : 2 ≤ rest.length := by
    simp only [not_lt] at hroom
    exact hroom
  have hwlen : wlen ≤ (body.drop 2).length := Nat.le_of_not_lt hwithdrawn
  have htpalen : tpalen ≤ (rest.drop 2).length := Nat.le_of_not_lt hattrs
  have hw : ((body.drop 2).take wlen).length = wlen := by
    rw [List.length_take]
    omega
  have ha : ((rest.drop 2).take tpalen).length = tpalen := by
    rw [List.length_take]
    omega
  refine ⟨raw.take HEADER_LEN, (body.drop 2).take wlen, (rest.drop 2).take tpalen,
    (rest.drop 2).drop tpalen, ⟨?_, ?_, ?_⟩, ?_⟩
  · rw [List.length_take, HEADER_LEN]
    omega
  · rw [hw]
    exact rdU16_lt _
  · rw [ha]
    exact rdU16_lt _
  · unfold updateBytes
    rw [hw, ha, ofNat_rdU16 hbody, ofNat_rdU16 hrest]
    simp only [List.append_assoc]
    rw [List.take_append_drop, List.take_append_drop]
    simp only [rest, List.take_append_drop]
    rw [List.take_append_drop]

theorem decodeFields_errors (ctx : DecodeCtx) (m : UpdateMsg) (attrs nlri : Bytes) :
    (decodeFields ctx m attrs nlri).errors =
      m.errors ++ (decodeAttrs ctx attrs).errors ++
        (let run := readNlri (ctx.addPath.contains IPV4_UNICAST) AFI_IP nlri
        if run.2 = true then
          checkMandatory run.1 (decodeAttrs ctx attrs).mpReach (decodeAttrs ctx attrs).seen
        else [⟨none, .unparseable⟩]) := by
  unfold decodeFields
  dsimp only
  generalize readNlri (ctx.addPath.contains IPV4_UNICAST) AFI_IP nlri = run
  by_cases hok : run.2 = true <;> simp [hok]

theorem decodeFields_nlri (ctx : DecodeCtx) (m : UpdateMsg) (attrs nlri : Bytes) :
    (decodeFields ctx m attrs nlri).nlri =
      (readNlri (ctx.addPath.contains IPV4_UNICAST) AFI_IP nlri).1 := by
  unfold decodeFields
  dsimp only
  split <;> rfl

theorem decodeFields_mpReach (ctx : DecodeCtx) (m : UpdateMsg) (attrs nlri : Bytes) :
    (decodeFields ctx m attrs nlri).mpReach = (decodeAttrs ctx attrs).mpReach := by
  unfold decodeFields
  dsimp only
  split <;> rfl

/-- What is announced is announced in its own family. -/
theorem decodeUpdate_afi (raw : Bytes) (ctx : DecodeCtx) :
    (∀ e ∈ (decodeUpdate raw ctx).nlri, e.1.afi = AFI_IP) ∧
      ∀ mp, (decodeUpdate raw ctx).mpReach = some mp → mp.Sorted := by
  have hnothing : ∀ {m : UpdateMsg}, m.nlri = [] → m.mpReach = none →
      (∀ e ∈ m.nlri, e.1.afi = AFI_IP) ∧ ∀ mp, m.mpReach = some mp → mp.Sorted := by
    intro m hn hr
    simp [hn, hr]
  unfold decodeUpdate
  split
  · exact hnothing rfl rfl
  dsimp only
  split
  · exact hnothing rfl rfl
  split
  · exact hnothing rfl rfl
  unfold decodeRest
  split
  · exact hnothing rfl rfl
  dsimp only
  split
  · exact hnothing rfl rfl
  · rw [decodeFields_nlri, decodeFields_mpReach]
    exact ⟨fun e he => readNlri_afi he, fun mp hmp => decodeAttrs_sorted hmp⟩

end Packets
