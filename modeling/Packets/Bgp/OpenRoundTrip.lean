/-
The OPEN message, written and read back (`plugins/bgp/wire.pyx`).

Each capability travels in a parameter of its own.  The parameters take the classic form where
every length fits its octet, and else the extended one, where allowed.
-/
import Packets.Bgp.Messages

namespace Packets

/-- `_w_header`, with the length `_w_finish` fills in. -/
def wHeader (mtype : UInt8) (total : Nat) : Bytes :=
  List.replicate 16 0xff ++ BigEndian.ofNat 2 total ++ [mtype]

/-- A code, a length octet and a value. -/
def shortTlv (code : UInt8) (value : Bytes) : Bytes := code :: UInt8.ofNat value.length :: value

def encodeCap (cap : UInt8 × Bytes) : Bytes := shortTlv cap.1 cap.2

/-- An optional parameter around one capability, classic and extended. -/
def classicParam (cap : Bytes) : Bytes := shortTlv 2 cap

def extendedParam (cap : Bytes) : Bytes := 2 :: (BigEndian.ofNat 2 cap.length ++ cap)

/-- The fixed part of an OPEN.  An AS that does not fit is written as AS_TRANS. -/
def openFixed (myAs holdTime bgpId : Nat) : Bytes :=
  4 :: (BigEndian.ofNat 2 (if myAs ≤ 0xffff then myAs else AS_TRANS) ++
    BigEndian.ofNat 2 holdTime ++ BigEndian.ofNat 4 bgpId)

/-- A whole OPEN, from the length of its optional parameters on. -/
def openMessageOf (myAs holdTime bgpId : Nat) (tail : Bytes) : Bytes :=
  let body := openFixed myAs holdTime bgpId ++ tail
  wHeader MSG_OPEN (HEADER_LEN + body.length) ++ body

/-- `encode_open`. -/
def encodeOpen (myAs holdTime bgpId : Nat) (capabilities : List (UInt8 × Bytes))
    (extended : Bool) : Option Bytes :=
  if capabilities.any (fun cap => 255 < cap.2.length) then none
  else
    let caps := capabilities.map encodeCap
    let classic := caps.flatMap classicParam
    let useExt := caps.any (fun cap => 255 < cap.length) || 255 < classic.length
    if useExt && !extended then none
    -- the conversions to 16 and 32 bits
    else if 0xffff < holdTime ∨ 0xffffffff < bgpId then none
    else
      let params := if useExt then caps.flatMap extendedParam else classic
      if useExt ∧ 0xffff < params.length then none
      else
        let lengths :=
          if useExt then 255 :: 255 :: BigEndian.ofNat 2 params.length
          else [UInt8.ofNat params.length]
        let out := openMessageOf myAs holdTime bgpId (lengths ++ params)
        if MAX_MSG < out.length then none else some out

/-- Every length of the classic form fits its octet: a capability in its parameter, and
the parameters together. -/
def FitsClassic (capabilities : List (UInt8 × Bytes)) : Prop :=
  (∀ cap ∈ capabilities, 2 + cap.2.length ≤ 255) ∧
    (capabilities.map fun cap => 4 + cap.2.length).sum ≤ 255

/-- Every value fits its octet and the message is not too long. -/
def FitsExtended (capabilities : List (UInt8 × Bytes)) : Prop :=
  (∀ cap ∈ capabilities, cap.2.length ≤ 255) ∧
    HEADER_LEN + 13 + (capabilities.map fun cap => 5 + cap.2.length).sum ≤ MAX_MSG

instance (capabilities : List (UInt8 × Bytes)) : Decidable (FitsClassic capabilities) :=
  inferInstanceAs (Decidable (_ ∧ _))

instance (capabilities : List (UInt8 × Bytes)) : Decidable (FitsExtended capabilities) :=
  inferInstanceAs (Decidable (_ ∧ _))

@[simp] theorem length_shortTlv (code : UInt8) (value : Bytes) :
    (shortTlv code value).length = 2 + value.length := by
  simp only [shortTlv, List.length_cons]
  omega

theorem length_classicParams (capabilities : List (UInt8 × Bytes)) :
    ((capabilities.map encodeCap).flatMap classicParam).length =
      (capabilities.map fun cap => 4 + cap.2.length).sum := by
  induction capabilities with
  | nil => rfl
  | cons cap rest ih =>
    rw [List.map_cons, List.flatMap_cons, List.length_append, ih, List.map_cons, List.sum_cons,
      classicParam, encodeCap, length_shortTlv, length_shortTlv]
    omega

theorem length_extendedParams (capabilities : List (UInt8 × Bytes)) :
    ((capabilities.map encodeCap).flatMap extendedParam).length =
      (capabilities.map fun cap => 5 + cap.2.length).sum := by
  induction capabilities with
  | nil => rfl
  | cons cap rest ih =>
    rw [List.map_cons, List.flatMap_cons, List.length_append, ih, List.map_cons, List.sum_cons,
      extendedParam, List.length_cons, List.length_append, BigEndian.length_ofNat, encodeCap,
      length_shortTlv]
    omega

theorem length_openMessageOf (myAs holdTime bgpId : Nat) (tail : Bytes) :
    (openMessageOf myAs holdTime bgpId tail).length = HEADER_LEN + 9 + tail.length := by
  simp only [openMessageOf, wHeader, openFixed, List.length_append, List.length_replicate,
    BigEndian.length_ofNat, List.length_cons, List.length_nil, HEADER_LEN]
  omega

/-- What `encode_open` writes, and when. -/
inductive OpenForm (myAs holdTime bgpId : Nat) (capabilities : List (UInt8 × Bytes))
    (extended : Bool) : Bytes → Prop where
  | classic (hfits : FitsClassic capabilities) :
      OpenForm myAs holdTime bgpId capabilities extended
        (openMessageOf myAs holdTime bgpId
          ([UInt8.ofNat ((capabilities.map encodeCap).flatMap classicParam).length] ++
            (capabilities.map encodeCap).flatMap classicParam))
  | extended (hclassic : ¬FitsClassic capabilities) (hallowed : extended = true)
      (hfits : FitsExtended capabilities) :
      OpenForm myAs holdTime bgpId capabilities extended
        (openMessageOf myAs holdTime bgpId
          (255 :: 255 :: BigEndian.ofNat 2
              ((capabilities.map encodeCap).flatMap extendedParam).length ++
            (capabilities.map encodeCap).flatMap extendedParam))

theorem any_long_iff {capabilities : List (UInt8 × Bytes)} :
    capabilities.any (fun cap => 255 < cap.2.length) = false ↔
      ∀ cap ∈ capabilities, cap.2.length ≤ 255 := by
  simp only [List.any_eq_false, decide_eq_true_eq, Nat.not_lt]

theorem useExt_eq_false_iff {capabilities : List (UInt8 × Bytes)} :
    ((capabilities.map encodeCap).any (fun cap => 255 < cap.length) ||
        decide (255 < ((capabilities.map encodeCap).flatMap classicParam).length)) = false ↔
      FitsClassic capabilities := by
  rw [Bool.or_eq_false_iff, length_classicParams, List.any_map, List.any_eq_false,
    decide_eq_false_iff_not, Nat.not_lt, FitsClassic]
  simp only [Function.comp_apply, encodeCap, length_shortTlv, decide_eq_true_eq, Nat.not_lt]

theorem FitsClassic.values {capabilities : List (UInt8 × Bytes)} (h : FitsClassic capabilities) :
    capabilities.any (fun cap => 255 < cap.2.length) = false := by
  apply any_long_iff.mpr
  intro cap hcap
  have hparam := h.1 cap hcap
  omega

theorem encodeOpen_of_fitsClassic {myAs holdTime bgpId : Nat}
    {capabilities : List (UInt8 × Bytes)} {extended : Bool} (h : FitsClassic capabilities) :
    encodeOpen myAs holdTime bgpId capabilities extended =
      if 0xffff < holdTime ∨ 0xffffffff < bgpId then none
      else some (openMessageOf myAs holdTime bgpId
        ([UInt8.ofNat ((capabilities.map encodeCap).flatMap classicParam).length] ++
          (capabilities.map encodeCap).flatMap classicParam)) := by
  have hshort : ¬MAX_MSG < (openMessageOf myAs holdTime bgpId
      ([UInt8.ofNat ((capabilities.map encodeCap).flatMap classicParam).length] ++
        (capabilities.map encodeCap).flatMap classicParam)).length := by
    have hblock := h.2
    rw [length_openMessageOf, List.length_append, length_classicParams, HEADER_LEN, MAX_MSG,
      List.length_singleton]
    omega
  simp only [encodeOpen, h.values, useExt_eq_false_iff.mpr h, Bool.false_eq_true, if_false,
    Bool.false_and, false_and, hshort]

theorem encodeOpen_of_not_fitsClassic {myAs holdTime bgpId : Nat}
    {capabilities : List (UInt8 × Bytes)} {extended : Bool} (h : ¬FitsClassic capabilities) :
    encodeOpen myAs holdTime bgpId capabilities extended =
      if (0xffff < holdTime ∨ 0xffffffff < bgpId) ∨ extended = false ∨ ¬FitsExtended capabilities
      then none
      else some (openMessageOf myAs holdTime bgpId
        (255 :: 255 :: BigEndian.ofNat 2
            ((capabilities.map encodeCap).flatMap extendedParam).length ++
          (capabilities.map encodeCap).flatMap extendedParam)) := by
  have huse := Bool.eq_true_of_not_eq_false (mt useExt_eq_false_iff.mp h)
  simp only [encodeOpen, huse, Bool.true_and, if_true, true_and]
  generalize hout : openMessageOf myAs holdTime bgpId _ = out
  have hlen : out.length =
      HEADER_LEN + 13 + (capabilities.map fun cap => 5 + cap.2.length).sum := by
    rw [← hout, length_openMessageOf]
    simp only [List.length_append, List.length_cons, BigEndian.length_ofNat, length_extendedParams]
    omega
  cases hlong : capabilities.any fun cap => 255 < cap.2.length with
  | true =>
    have hunfit : ¬FitsExtended capabilities := by
      intro hfits
      rw [any_long_iff.mpr hfits.1] at hlong
      cases hlong
    rw [if_pos rfl, if_pos (Or.inr (Or.inr hunfit))]
  | false =>
    have hfits : FitsExtended capabilities ↔ ¬MAX_MSG < out.length := by
      rw [FitsExtended, hlen, Nat.not_lt]
      exact and_iff_right (any_long_iff.mp hlong)
    simp only [hfits, length_extendedParams, Bool.false_eq_true, if_false]
    have hblock : ¬MAX_MSG < out.length →
        ¬0xffff < (capabilities.map fun cap => 5 + cap.2.length).sum := by
      rw [hlen, MAX_MSG, HEADER_LEN]
      omega
    cases extended with
    | false => simp
    | true =>
      by_cases hconvert : 0xffff < holdTime ∨ 0xffffffff < bgpId
      · simp [hconvert]
      · by_cases hmax : MAX_MSG < out.length
        · simp [hmax]
        · have hfit := hblock hmax
          simp only [hconvert, hmax, hfit, if_false, false_or]
          rfl

/-- A message is written exactly in the form that fits, the classic one first. -/
theorem encodeOpen_eq_some_iff {myAs holdTime bgpId : Nat} {capabilities : List (UInt8 × Bytes)}
    {extended : Bool} {msg : Bytes} :
    encodeOpen myAs holdTime bgpId capabilities extended = some msg ↔
      holdTime ≤ 0xffff ∧ bgpId ≤ 0xffffffff ∧
        OpenForm myAs holdTime bgpId capabilities extended msg := by
  by_cases hclassic : FitsClassic capabilities
  · rw [encodeOpen_of_fitsClassic hclassic, Option.ite_none_left_eq_some, not_or, Nat.not_lt,
      Nat.not_lt, and_assoc]
    constructor
    · rintro ⟨hhold, hid, heq⟩
      obtain rfl := Option.some.inj heq
      exact ⟨hhold, hid, .classic hclassic⟩
    · rintro ⟨hhold, hid, hform⟩
      cases hform with
      | classic => exact ⟨hhold, hid, rfl⟩
      | extended hnot => exact absurd hclassic hnot
  · rw [encodeOpen_of_not_fitsClassic hclassic, Option.ite_none_left_eq_some, not_or, not_or,
      not_or, Nat.not_lt, Nat.not_lt, Bool.not_eq_false, not_not]
    constructor
    · rintro ⟨⟨⟨hhold, hid⟩, hallowed, hfits⟩, heq⟩
      obtain rfl := Option.some.inj heq
      exact ⟨hhold, hid, .extended hclassic hallowed hfits⟩
    · rintro ⟨hhold, hid, hform⟩
      cases hform with
      | classic hfits => exact absurd hfits hclassic
      | extended _ hallowed hfits => exact ⟨⟨⟨hhold, hid⟩, hallowed, hfits⟩, rfl⟩

theorem encodeOpen_eq_none_iff {myAs holdTime bgpId : Nat} {capabilities : List (UInt8 × Bytes)}
    {extended : Bool} :
    encodeOpen myAs holdTime bgpId capabilities extended = none ↔
      ¬(holdTime ≤ 0xffff ∧ bgpId ≤ 0xffffffff ∧
        (FitsClassic capabilities ∨ extended = true ∧ FitsExtended capabilities)) := by
  by_cases hclassic : FitsClassic capabilities
  · rw [encodeOpen_of_fitsClassic hclassic, ite_eq_left_iff]
    simp [hclassic]
  · rw [encodeOpen_of_not_fitsClassic hclassic, ite_eq_left_iff]
    simp [hclassic]

theorem OpenForm.values {myAs holdTime bgpId : Nat} {capabilities : List (UInt8 × Bytes)}
    {extended : Bool} {msg : Bytes} (h : OpenForm myAs holdTime bgpId capabilities extended msg) :
    ∀ cap ∈ capabilities, cap.2.length ≤ 255 := by
  cases h with
  | classic hfits => exact any_long_iff.mp hfits.values
  | extended _ _ hfits => exact hfits.1

theorem capNext_consumes : Records.Consumes capNext := by
  intro s a rest h
  match s with
  | code :: len :: tail =>
    rw [capNext] at h
    split at h
    · cases h
    · have hrest : tail.drop _ = rest := congrArg Prod.snd (Option.some.inj h)
      rw [← hrest]
      simp only [List.length_drop, List.length_cons]
      omega
  | [] | [_] => cases h

theorem extParamNext_consumes : Records.Consumes extParamNext := by
  intro s a rest h
  match s with
  | ptype :: high :: low :: tail =>
    simp only [extParamNext] at h
    split at h
    · cases h
    · have hrest : tail.drop _ = rest := congrArg Prod.snd (Option.some.inj h)
      rw [← hrest]
      simp only [List.length_drop, List.length_cons]
      omega
  | [] | [_] | [_, _] => cases h

theorem capNext_shortTlv {code : UInt8} {value : Bytes} (h : value.length ≤ 255) (rest : Bytes) :
    capNext (shortTlv code value ++ rest) = some ((code, value), rest) := by
  have hlen : (UInt8.ofNat value.length).toNat = value.length :=
    UInt8.toNat_ofNat_of_lt' (Nat.lt_succ_of_le h)
  rw [shortTlv, List.cons_append, List.cons_append, capNext, hlen, if_neg (by simp),
    List.take_left, List.drop_left]

theorem extParamNext_extendedParam {cap : Bytes} (h : cap.length < 256 ^ 2) (rest : Bytes) :
    extParamNext (extendedParam cap ++ rest) = some ((2, cap), rest) := by
  have hlen := BigEndian.toNat_ofNat h
  simp only [BigEndian.ofNat] at hlen
  simp only [extendedParam, BigEndian.ofNat, List.cons_append, List.nil_append, extParamNext]
  rw [hlen, if_neg (by simp), List.take_left, List.drop_left]

/-- The AS a capability gives, or the one before it. -/
def resolveAs (myAs : Nat) (cap : UInt8 × Bytes) : Nat :=
  if cap.1 = CAP_AS4 ∧ cap.2.length = 4 then BigEndian.toNat cap.2 else myAs

theorem foldl_resolveAs_eq (capabilities : List (UInt8 × Bytes)) (myAs : Nat) :
    capabilities.foldl resolveAs myAs =
      match (capabilities.filter fun cap => cap.1 = CAP_AS4 ∧ cap.2.length = 4).getLast? with
      | some cap => BigEndian.toNat cap.2
      | none => myAs := by
  induction capabilities generalizing myAs with
  | nil => rfl
  | cons cap rest ih =>
    rw [List.foldl_cons, ih, resolveAs]
    by_cases has4 : cap.1 = CAP_AS4 ∧ cap.2.length = 4
    · rw [if_pos has4, List.filter_cons_of_pos (by simpa using has4), List.getLast?_cons]
      cases (rest.filter fun cap => cap.1 = CAP_AS4 ∧ cap.2.length = 4).getLast? <;> rfl
    · rw [if_neg has4, List.filter_cons_of_neg (by simpa using has4)]

/-- Capabilities into the message, in order. -/
def OpenMsg.takeCaps (m : OpenMsg) (run : List (UInt8 × Bytes) × List Reason) : OpenMsg :=
  { m with
    myAs := run.1.foldl resolveAs m.myAs
    capabilities := m.capabilities ++ run.1
    errors := m.errors ++ run.2 }

theorem addParam_capabilities (m : OpenMsg) (value : Bytes) :
    m.addParam (2, value) = m.takeCaps (readCapabilities value) := by
  have hresolve := foldl_resolveAs_eq (readCapabilities value).1 m.myAs
  rw [OpenMsg.takeCaps, hresolve, OpenMsg.addParam]
  exact if_pos rfl

theorem addParam_encodeCap {m : OpenMsg} {cap : UInt8 × Bytes} (h : cap.2.length ≤ 255) :
    m.addParam (2, encodeCap cap) =
      { m with myAs := resolveAs m.myAs cap, capabilities := m.capabilities ++ [cap] } := by
  have hread : readCapabilities (encodeCap cap) = ([cap], []) := by
    have hnext : capNext (encodeCap cap ++ []) = some (cap, []) := capNext_shortTlv h []
    rw [List.append_nil] at hnext
    rw [readCapabilities, Records.readAll_cons capNext_consumes hnext]
    rfl
  rw [addParam_capabilities, hread, OpenMsg.takeCaps, List.append_nil]
  rfl

theorem foldl_addParam {capabilities : List (UInt8 × Bytes)}
    (h : ∀ cap ∈ capabilities, cap.2.length ≤ 255) (m : OpenMsg) :
    ((capabilities.map fun cap => ((2 : UInt8), encodeCap cap)).foldl OpenMsg.addParam m) =
      { m with
        myAs := capabilities.foldl resolveAs m.myAs
        capabilities := m.capabilities ++ capabilities } := by
  induction capabilities generalizing m with
  | nil => rw [List.append_nil]; rfl
  | cons cap rest ih =>
    rw [List.map_cons, List.foldl_cons, addParam_encodeCap (h cap List.mem_cons_self),
      ih fun c hc => h c (List.mem_cons_of_mem cap hc)]
    simp only [List.foldl_cons, List.append_assoc, List.singleton_append]

/-- Parameters that are read one by one are read as a block. -/
theorem readAll_params {next : Records.Reader (UInt8 × Bytes) UInt8}
    (hnext : Records.Consumes next) {param : Bytes → Bytes} {capabilities : List (UInt8 × Bytes)}
    (h : ∀ cap ∈ capabilities, ∀ rest,
      next (param (encodeCap cap) ++ rest) = some ((2, encodeCap cap), rest)) :
    Records.readAll next ((capabilities.map encodeCap).flatMap param).length
        ((capabilities.map encodeCap).flatMap param) =
      (capabilities.map fun cap => (2, encodeCap cap), []) := by
  induction capabilities with
  | nil => rfl
  | cons cap rest ih =>
    rw [List.map_cons, List.flatMap_cons, Records.readAll_cons hnext (h cap List.mem_cons_self _),
      ih fun c hc => h c (List.mem_cons_of_mem cap hc), List.map_cons]

theorem readAll_classic {capabilities : List (UInt8 × Bytes)}
    (h : ∀ cap ∈ capabilities, 2 + cap.2.length ≤ 255) :
    Records.readAll capNext ((capabilities.map encodeCap).flatMap classicParam).length
        ((capabilities.map encodeCap).flatMap classicParam) =
      (capabilities.map fun cap => (2, encodeCap cap), []) := by
  apply readAll_params capNext_consumes
  intro cap hcap rest
  exact capNext_shortTlv (by rw [encodeCap, length_shortTlv]; exact h cap hcap) rest

theorem readAll_extended {capabilities : List (UInt8 × Bytes)}
    (h : ∀ cap ∈ capabilities, cap.2.length ≤ 255) :
    Records.readAll extParamNext ((capabilities.map encodeCap).flatMap extendedParam).length
        ((capabilities.map encodeCap).flatMap extendedParam) =
      (capabilities.map fun cap => (2, encodeCap cap), []) := by
  apply readAll_params extParamNext_consumes
  intro cap hcap rest
  have hvalue := h cap hcap
  exact extParamNext_extendedParam (by rw [encodeCap, length_shortTlv]; omega) rest

/-- The form of the optional parameters, from the length octet on. -/
def tailExtended (tail : Bytes) : Bool :=
  tail.headD 0 ≠ 0 && 4 ≤ tail.length && (tail.drop 1).headD 0 = 255

/-- The fields of the fixed part, before the parameters are read. -/
def openFields (myAs holdTime bgpId : Nat) : OpenMsg where
  version := 4
  myAs := if myAs ≤ 0xffff then myAs else AS_TRANS
  holdTime := holdTime
  bgpId := bgpId

/-- A message whose parameters are all there and read to the end. -/
theorem decodeOpen_message {myAs holdTime bgpId : Nat} (hhold : holdTime ≤ 0xffff)
    (hid : bgpId ≤ 0xffffffff) {tail params : Bytes} {read : List (UInt8 × Bytes)}
    (htail : tail ≠ [])
    (hparams : tail.drop (if tailExtended tail then 4 else 1) = params)
    (hclaimed : (if tailExtended tail then BigEndian.toNat ((tail.drop 2).take 2)
      else (tail.headD 0).toNat) = params.length)
    (hread : Records.readAll (if tailExtended tail then extParamNext else capNext)
      params.length params = (read, [])) :
    decodeOpen (openMessageOf myAs holdTime bgpId tail) =
      read.foldl OpenMsg.addParam (openFields myAs holdTime bgpId) := by
  have hpos : 0 < tail.length := List.length_pos_iff.mpr htail
  have hlong : ¬(openMessageOf myAs holdTime bgpId tail).length < MIN_OPEN := by
    rw [length_openMessageOf, HEADER_LEN, MIN_OPEN]
    omega
  have hbody : (openMessageOf myAs holdTime bgpId tail).drop HEADER_LEN =
      openFixed myAs holdTime bgpId ++ tail := rfl
  have hlen : (openFixed myAs holdTime bgpId ++ tail).length = tail.length + 9 := rfl
  have hextended : extendedParams (openFixed myAs holdTime bgpId ++ tail) = tailExtended tail := by
    rw [extendedParams, hlen, tailExtended]
    congr 2
    simp
  have hdrop : (openFixed myAs holdTime bgpId ++ tail).drop
      (if tailExtended tail then 13 else 10) = params := by
    rw [← hparams]
    cases tailExtended tail <;> rfl
  have hclaim : (if tailExtended tail then
        BigEndian.toNat (((openFixed myAs holdTime bgpId ++ tail).drop 11).take 2)
      else (((openFixed myAs holdTime bgpId ++ tail).drop 9).headD 0).toNat) =
        params.length := by
    rw [← hclaimed]
    rfl
  have hwritten : (if myAs ≤ 0xffff then myAs else AS_TRANS) < 256 ^ 2 := by
    rw [AS_TRANS]
    split <;> omega
  have hholdTime : holdTime < 256 ^ 2 := by omega
  have hbgpId : bgpId < 256 ^ 4 := by omega
  have hasRead : BigEndian.toNat (((openFixed myAs holdTime bgpId ++ tail).drop 1).take 2) =
      if myAs ≤ 0xffff then myAs else AS_TRANS := BigEndian.toNat_ofNat hwritten
  have hholdRead : BigEndian.toNat (((openFixed myAs holdTime bgpId ++ tail).drop 3).take 2) =
      holdTime := BigEndian.toNat_ofNat hholdTime
  have hidRead : BigEndian.toNat (((openFixed myAs holdTime bgpId ++ tail).drop 5).take 4) =
      bgpId := BigEndian.toNat_ofNat hbgpId
  have hversion : ((openFixed myAs holdTime bgpId ++ tail).headD 0).toNat = 4 := rfl
  rw [decodeOpen, if_neg hlong]
  simp only [hbody, hextended, hdrop, hclaim, hasRead, hholdRead, hidRead, hversion,
    Nat.lt_irrefl, if_false, List.take_length, hread]
  have hleft : (if tailExtended tail = true ∧ ([] : Bytes) ≠ [] then [Reason.unparseable]
      else walkFault []) = [] := if_neg fun h => h.2 rfl
  rw [hleft, List.append_nil]
  rfl

/-- What is read of a message is what it was written from. -/
theorem decodeOpen_form {myAs holdTime bgpId : Nat} {capabilities : List (UInt8 × Bytes)}
    {extended : Bool} {msg : Bytes} (hhold : holdTime ≤ 0xffff) (hid : bgpId ≤ 0xffffffff)
    (h : OpenForm myAs holdTime bgpId capabilities extended msg) :
    decodeOpen msg =
      { openFields myAs holdTime bgpId with
        myAs := capabilities.foldl resolveAs (openFields myAs holdTime bgpId).myAs
        capabilities := capabilities } := by
  have hvalues : ∀ cap ∈ capabilities, cap.2.length ≤ 255 := h.values
  have hfold := foldl_addParam hvalues (openFields myAs holdTime bgpId)
  cases h with
  | classic hfits =>
    have hlen : (UInt8.ofNat ((capabilities.map encodeCap).flatMap classicParam).length).toNat =
        ((capabilities.map encodeCap).flatMap classicParam).length := by
      apply UInt8.toNat_ofNat_of_lt'
      rw [length_classicParams]
      exact Nat.lt_succ_of_le hfits.2
    have hplain : tailExtended
        ([UInt8.ofNat ((capabilities.map encodeCap).flatMap classicParam).length] ++
          (capabilities.map encodeCap).flatMap classicParam) = false := by
      cases capabilities with
      | nil => rfl
      | cons cap rest => exact Bool.and_false _
    rw [decodeOpen_message hhold hid (by simp) (by rw [hplain]) (by rw [hplain]; exact hlen)
      (by rw [hplain]; exact readAll_classic hfits.1), hfold]
    rfl
  | extended hclassic hallowed hfits =>
    have hblock : ((capabilities.map encodeCap).flatMap extendedParam).length < 256 ^ 2 := by
      have hmax := hfits.2
      rw [MAX_MSG, HEADER_LEN] at hmax
      rw [length_extendedParams]
      omega
    have hext : tailExtended
        (255 :: 255 :: BigEndian.ofNat 2
            ((capabilities.map encodeCap).flatMap extendedParam).length ++
          (capabilities.map encodeCap).flatMap extendedParam) = true := by
      simp [tailExtended, BigEndian.ofNat]
    rw [decodeOpen_message hhold hid (by simp) (by rw [hext])
      (by rw [hext]; exact BigEndian.toNat_ofNat hblock)
      (by rw [hext]; exact readAll_extended hfits.1), hfold]
    rfl

/-- The capabilities tell the AS of an OPEN: no other is in a 4-octet-AS capability, and
one that does not fit the fixed part is in one. -/
structure TellsAs (myAs : Nat) (capabilities : List (UInt8 × Bytes)) : Prop where
  same : ∀ cap ∈ capabilities, cap.1 = CAP_AS4 → cap.2.length = 4 → BigEndian.toNat cap.2 = myAs
  told : 0xffff < myAs → ∃ cap ∈ capabilities, cap.1 = CAP_AS4 ∧ cap.2.length = 4

theorem foldl_resolveAs {myAs : Nat} {capabilities : List (UInt8 × Bytes)}
    (hsame : ∀ cap ∈ capabilities, cap.1 = CAP_AS4 → cap.2.length = 4 →
      BigEndian.toNat cap.2 = myAs) {held : Nat}
    (h : held = myAs ∨ ∃ cap ∈ capabilities, cap.1 = CAP_AS4 ∧ cap.2.length = 4) :
    capabilities.foldl resolveAs held = myAs := by
  induction capabilities generalizing held with
  | nil =>
    rcases h with heq | ⟨cap, hcap, -⟩
    · exact heq
    · exact absurd hcap List.not_mem_nil
  | cons cap rest ih =>
    rw [List.foldl_cons]
    apply ih fun c hc => hsame c (List.mem_cons_of_mem cap hc)
    by_cases has4 : cap.1 = CAP_AS4 ∧ cap.2.length = 4
    · left
      rw [resolveAs, if_pos has4]
      exact hsame cap List.mem_cons_self has4.1 has4.2
    · rw [resolveAs, if_neg has4]
      rcases h with heq | ⟨c, hc, hcarries⟩
      · exact Or.inl heq
      · rcases List.mem_cons.mp hc with rfl | hrest
        · exact absurd hcarries has4
        · exact Or.inr ⟨c, hrest, hcarries⟩

theorem TellsAs.resolved {myAs holdTime bgpId : Nat} {capabilities : List (UInt8 × Bytes)}
    (h : TellsAs myAs capabilities) :
    capabilities.foldl resolveAs (openFields myAs holdTime bgpId).myAs = myAs := by
  apply foldl_resolveAs h.same
  by_cases hfits : myAs ≤ 0xffff
  · exact Or.inl (if_pos hfits)
  · exact Or.inr (h.told (Nat.lt_of_not_le hfits))

theorem decodeOpen_encodeOpen {myAs holdTime bgpId : Nat} {capabilities : List (UInt8 × Bytes)}
    {extended : Bool} {msg : Bytes} (has : TellsAs myAs capabilities)
    (h : encodeOpen myAs holdTime bgpId capabilities extended = some msg) :
    decodeOpen msg =
      { version := 4, myAs := myAs, holdTime := holdTime, bgpId := bgpId,
        capabilities := capabilities } := by
  obtain ⟨hhold, hid, hform⟩ := encodeOpen_eq_some_iff.mp h
  rw [decodeOpen_form hhold hid hform, has.resolved]
  rfl

namespace Capabilities

theorem code_flagTlv {code : UInt8} {b : Bool} : ∀ tlv ∈ flagTlv code b, tlv.1 = code := by
  intro tlv htlv
  cases b with
  | false => exact absurd htlv List.not_mem_nil
  | true => rw [List.mem_singleton.mp htlv]

theorem code_familyTlvs {c : Capabilities} {tlvs : List (UInt8 × Bytes)}
    (h : c.familyTlvs = some tlvs) : ∀ tlv ∈ tlvs, tlv.1 = CAP_MP_EXT := by
  intro tlv htlv
  obtain ⟨af, -, hread⟩ := Mapped.exists_of_mem_right h htlv
  obtain ⟨v, -, rfl⟩ := Option.map_eq_some_iff.mp hread
  rfl

theorem code_restartTlv {c : Capabilities} {tlvs : List (UInt8 × Bytes)}
    (h : c.restartTlv = some tlvs) : ∀ tlv ∈ tlvs, tlv.1 = CAP_GRACEFUL_RESTART := by
  intro tlv htlv
  rw [restartTlv] at h
  split at h
  · obtain ⟨v, -, rfl⟩ := Option.map_eq_some_iff.mp h
    rw [List.mem_singleton.mp htlv]
  · rw [← Option.some.inj h] at htlv
    exact absurd htlv List.not_mem_nil

theorem code_addPathTlv {c : Capabilities} {tlvs : List (UInt8 × Bytes)}
    (h : c.addPathTlv = some tlvs) : ∀ tlv ∈ tlvs, tlv.1 = CAP_ADD_PATH := by
  intro tlv htlv
  rw [addPathTlv] at h
  split at h
  · rw [← Option.some.inj h] at htlv
    exact absurd htlv List.not_mem_nil
  · obtain ⟨v, -, rfl⟩ := Option.map_eq_some_iff.mp h
    rw [List.mem_singleton.mp htlv]

theorem value_as4Tlv {c : Capabilities} {tlvs : List (UInt8 × Bytes)} (h : c.as4Tlv = some tlvs) :
    ∀ tlv ∈ tlvs, tlv.2.length = 4 ∧ c.asn = some (BigEndian.toNat tlv.2) := by
  intro tlv htlv
  rw [as4Tlv] at h
  split at h
  · obtain ⟨v, hv, rfl⟩ := Option.map_eq_some_iff.mp h
    obtain ⟨asn, hasn, hencode⟩ := Option.bind_eq_some_iff.mp hv
    rw [encodeAs4, Option.ite_none_right_eq_some] at hencode
    obtain ⟨hle, heq⟩ := hencode
    have hlt : asn < 256 ^ 4 := by omega
    rw [List.mem_singleton.mp htlv, ← Option.some.inj heq, BigEndian.toNat_ofNat hlt]
    exact ⟨BigEndian.length_ofNat 4 asn, hasn⟩
  · rw [← Option.some.inj h] at htlv
    exact absurd htlv List.not_mem_nil

/-- Only one of the capabilities is a 4-octet AS, and it is the side's own. -/
theorem asTlvs_tellsAs {c : Capabilities} {tlvs : List (UInt8 × Bytes)} {myAs : Nat}
    (h : c.asTlvs = some tlvs) (hasn : c.asn = some myAs) (has4 : 0xffff < myAs → c.as4 = true) :
    TellsAs myAs tlvs := by
  simp only [asTlvs, bind, Option.bind_eq_some_iff] at h
  obtain ⟨families, hfamilies, restart, hrestart, as4, htlv, addPath, haddPath, heq⟩ := h
  obtain rfl := Option.some.inj heq
  constructor
  · intro cap hcap hcode _
    have hmem : cap ∈ as4 := by
      simp only [List.mem_append] at hcap
      rcases hcap with (((((hcap | hcap) | hcap) | hcap) | hcap) | hcap) | hcap
      · exact absurd (hcode.symm.trans (code_familyTlvs hfamilies cap hcap)) (by decide)
      · exact absurd (hcode.symm.trans (code_flagTlv cap hcap)) (by decide)
      · exact absurd (hcode.symm.trans (code_flagTlv cap hcap)) (by decide)
      · exact absurd (hcode.symm.trans (code_restartTlv hrestart cap hcap)) (by decide)
      · exact hcap
      · exact absurd (hcode.symm.trans (code_addPathTlv haddPath cap hcap)) (by decide)
      · exact absurd (hcode.symm.trans (code_flagTlv cap hcap)) (by decide)
    have hvalue := (value_as4Tlv htlv cap hmem).2
    rw [hasn] at hvalue
    exact (Option.some.inj hvalue).symm
  · intro hwide
    rw [as4Tlv, if_pos (has4 hwide)] at htlv
    obtain ⟨v, hv, rfl⟩ := Option.map_eq_some_iff.mp htlv
    have hlen := (value_as4Tlv (c := c) (by rw [as4Tlv, if_pos (has4 hwide), hv]; rfl)
      (CAP_AS4, v) List.mem_cons_self).1
    exact ⟨(CAP_AS4, v), by simp, rfl, hlen⟩

end Capabilities

end Packets
