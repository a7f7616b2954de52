/-
`PKT.get_layer` and `PKT.get_layer_by_type` (`core/inetpkt.pyx`).

A layer hands its count to its payload, which looks at itself again: every layer below the first
is counted twice.
-/
import Mathlib.Data.List.Basic

namespace Packets.Inet

/-- What a layer is called by, and its type. -/
class PktLayer (L : Type) where
  pktName : L → String
  pqType : L → Nat

/-- A `PKT` object with its payload, when the payload is a `PKT` itself. -/
inductive PKT (L : Type) where
  | last (info : L)
  | above (info : L) (payload : PKT L)
deriving DecidableEq

namespace PKT

variable {L : Type}

def info : PKT L → L
  | last info => info
  | above info _ => info

/-- The search of both functions.  `none` is the empty `NullPkt()`. -/
def search (isIt : L → Bool) (inst : Nat) : PKT L → Nat → Option (PKT L)
  | last info, found =>
    let fnd := if isIt info then found + 1 else found
    if isIt info ∧ fnd = inst then some (last info) else none
  | above info p, found =>
    let fnd := if isIt info then found + 1 else found
    if isIt info ∧ fnd = inst then some (above info p)
    else
      let fnd := if isIt p.info then fnd + 1 else fnd
      if fnd = inst then some p else search isIt inst p fnd

/-- `get_layer` -/
def getLayer [PktLayer L] (self : PKT L) (name : String) (inst : Nat := 1) (found : Nat := 0) :
    Option (PKT L) :=
  search (fun info => PktLayer.pktName info == name) inst self found

/-- `get_layer_by_type` -/
def getLayerByType [PktLayer L] (self : PKT L) (pqType : Nat) (inst : Nat := 1)
    (found : Nat := 0) : Option (PKT L) :=
  search (fun info => PktLayer.pqType info == pqType) inst self found

/-- The layers at or below this one that are looked for, in order. -/
def matching (isIt : L → Bool) : PKT L → List (PKT L)
  | last info => if isIt info then [last info] else []
  | above info p => (if isIt info then [above info p] else []) ++ matching isIt p

/-- The layers as the search counts them. -/
def counted (isIt : L → Bool) : PKT L → List (PKT L)
  | last info => if isIt info then [last info] else []
  | above info p =>
    (if isIt info then [above info p] else []) ++ (if isIt p.info then [p] else []) ++
      counted isIt p

/-- Every entry twice. -/
def doubled {β : Type} (l : List β) : List β := l.flatMap fun x => [x, x]

theorem getElem?_doubled {β : Type} (l : List β) (i : Nat) : (doubled l)[i]? = l[i / 2]? := by
  induction l generalizing i with
  | nil => rfl
  | cons x l ih =>
    match i with
    | 0 => rfl
    | 1 => rfl
    | i + 2 =>
      have htail : (doubled (x :: l))[i + 2]? = (doubled l)[i]? := rfl
      have hhalf : (i + 2) / 2 = i / 2 + 1 := by omega
      rw [htail, hhalf, List.getElem?_cons_succ]
      exact ih i

/-- The search returns the layer it counts as the wanted one. -/
theorem search_eq (isIt : L → Bool) (inst : Nat) (p : PKT L) (found : Nat) (hfound : found < inst) :
    search isIt inst p found = (counted isIt p)[inst - found - 1]? := by
  induction p generalizing found with
  | last info =>
    by_cases hit : isIt info
    · by_cases hend : found + 1 = inst
      · have hzero : inst - found - 1 = 0 := by omega
        simp [search, counted, hit, hend, hzero]
      · have hpos : inst - found - 1 ≠ 0 := by omega
        simp [search, counted, hit, hend, hpos]
    · simp [search, counted, hit]
  | above info p ih =>
    -- what happens at the payload, with any count that is not there yet
    have hpayload : ∀ fnd, fnd < inst →
        (if (if isIt p.info then fnd + 1 else fnd) = inst then some p
          else search isIt inst p (if isIt p.info then fnd + 1 else fnd)) =
          ((if isIt p.info then [p] else []) ++ counted isIt p)[inst - fnd - 1]? := by
      intro fnd hfnd
      by_cases hit : isIt p.info
      · by_cases hend : fnd + 1 = inst
        · have hzero : inst - fnd - 1 = 0 := by omega
          simp [hit, hend, hzero]
        · obtain ⟨k, hk⟩ : ∃ k, inst - fnd - 1 = k + 1 := ⟨inst - fnd - 2, by omega⟩
          have hnext : inst - (fnd + 1) - 1 = k := by omega
          have hih := ih (fnd + 1) (by omega)
          rw [hnext] at hih
          simp [hit, hend, hk, hih]
      · have hne : fnd ≠ inst := by omega
        simp [hit, hne, ih fnd hfnd]
    by_cases hit : isIt info
    · by_cases hend : found + 1 = inst
      · have hzero : inst - found - 1 = 0 := by omega
        simp [search, counted, hit, hend, hzero]
      · obtain ⟨k, hk⟩ : ∃ k, inst - found - 1 = k + 1 := ⟨inst - found - 2, by omega⟩
        have hnext : inst - (found + 1) - 1 = k := by omega
        have hih := hpayload (found + 1) (by omega)
        rw [hnext] at hih
        simpa [search, counted, hit, hend, hk] using hih
    · simpa [search, counted, hit] using hpayload found hfound

theorem payload_counted (isIt : L → Bool) (p : PKT L) :
    (if isIt p.info then [p] else []) ++ counted isIt p = doubled (matching isIt p) := by
  induction p with
  | last info => by_cases hit : isIt info <;> simp [PKT.info, counted, matching, doubled, hit]
  | above info p ih =>
    have htail : counted isIt (above info p) =
        (if isIt info then [above info p] else []) ++ doubled (matching isIt p) := by
      rw [← ih, counted, List.append_assoc]
    rw [htail]
    by_cases hit : isIt info <;> simp [PKT.info, matching, doubled, hit]

/-- Which of the matching layers the search returns as the wanted one. -/
def returned (isIt : L → Bool) (inst : Nat) (p : PKT L) : Nat :=
  if isIt p.info then inst / 2 + 1 else (inst + 1) / 2

theorem search_eq_returned (isIt : L → Bool) (inst : Nat) (p : PKT L) (hinst : 1 ≤ inst) :
    search isIt inst p 0 = (matching isIt p)[returned isIt inst p - 1]? := by
  rw [search_eq isIt inst p 0 hinst]
  have hall := payload_counted isIt p
  by_cases hit : isIt p.info
  · have hcons : p :: counted isIt p = doubled (matching isIt p) := by simpa [hit] using hall
    have hindex : (counted isIt p)[inst - 0 - 1]? = (p :: counted isIt p)[inst]? := by
      obtain ⟨k, rfl⟩ : ∃ k, inst = k + 1 := ⟨inst - 1, by omega⟩
      rfl
    rw [hindex, hcons, getElem?_doubled]
    simp [returned, hit]
  · have hcounted : counted isIt p = doubled (matching isIt p) := by simpa [hit] using hall
    have hhalf : (inst - 0 - 1) / 2 = (inst + 1) / 2 - 1 := by omega
    rw [hcounted, getElem?_doubled, hhalf]
    simp [returned, hit]

theorem search_first (isIt : L → Bool) (p : PKT L) :
    search isIt 1 p 0 = (matching isIt p).head? := by
  have hindex : returned isIt 1 p - 1 = 0 := by
    unfold returned
    split <;> rfl
  rw [search_eq_returned isIt 1 p (Nat.le_refl 1), hindex, List.head?_eq_getElem?]

/-- The layers of a chain are told apart by what is below them. -/
theorem sizeOf_le_of_mem_matching (isIt : L → Bool) (p q : PKT L)
    (h : q ∈ matching isIt p) : sizeOf q ≤ sizeOf p := by
  induction p with
  | last info =>
    by_cases hit : isIt info
    · simp only [matching, hit, if_true, List.mem_singleton] at h
      exact Nat.le_of_eq (congrArg sizeOf h)
    · simp [matching, hit] at h
  | above info p ih =>
    have hsize : sizeOf (above info p) = 1 + sizeOf info + sizeOf p := rfl
    rcases List.mem_append.mp h with hself | hbelow
    · by_cases hit : isIt info
      · simp only [hit, if_true, List.mem_singleton] at hself
        exact Nat.le_of_eq (congrArg sizeOf hself)
      · simp [hit] at hself
    · have hle := ih hbelow
      omega

theorem matching_nodup (isIt : L → Bool) (p : PKT L) : (matching isIt p).Nodup := by
  induction p with
  | last info => by_cases hit : isIt info <;> simp [matching, hit]
  | above info p ih =>
    have hsize : sizeOf (above info p) = 1 + sizeOf info + sizeOf p := rfl
    have hnot : above info p ∉ matching isIt p := by
      intro hmem
      have hle := sizeOf_le_of_mem_matching isIt p (above info p) hmem
      omega
    by_cases hit : isIt info <;> simp [matching, hit, ih, hnot]

/-- Two places of a list without repetition hold the same only when they are one place, or
both beyond its end. -/
theorem getElem?_eq_iff {β : Type} {l : List β} (hl : l.Nodup) {i j : Nat} (hij : i ≤ j) :
    l[i]? = l[j]? ↔ i = j ∨ l.length ≤ i := by
  constructor
  · intro heq
    by_cases hi : i < l.length
    · exact Or.inl ((List.getElem?_inj hi hl).mp heq)
    · exact Or.inr (by omega)
  · rintro (rfl | hout)
    · rfl
    · rw [List.getElem?_eq_none hout, List.getElem?_eq_none (by omega)]

/-- The layer a caller asks for: the `inst`-th that matches, at or below. -/
def nthLayer (isIt : L → Bool) (inst : Nat) (p : PKT L) : Option (PKT L) :=
  (matching isIt p)[inst - 1]?

/-- Where the count does no harm: a layer that matches itself finds the first two, another the
first, and otherwise nothing is found. -/
def CountsRight (isIt : L → Bool) (inst : Nat) (p : PKT L) : Prop :=
  if isIt p.info then inst ≤ 2 ∨ (matching isIt p).length ≤ inst / 2
  else inst = 1 ∨ (matching isIt p).length < (inst + 1) / 2

theorem search_eq_nthLayer_iff (isIt : L → Bool) (inst : Nat) (p : PKT L)
    (hinst : 1 ≤ inst) : search isIt inst p 0 = nthLayer isIt inst p ↔ CountsRight isIt inst p := by
  have hle : returned isIt inst p - 1 ≤ inst - 1 := by
    unfold returned
    split <;> omega
  have hplaces := getElem?_eq_iff (matching_nodup isIt p) hle
  rw [search_eq_returned isIt inst p hinst, nthLayer, hplaces]
  unfold returned CountsRight
  split <;> omega

/-- Both functions return the layer asked for exactly where the count does no harm. -/
theorem getLayer_nth_iff [PktLayer L] (p : PKT L) (name : String) (pqType inst : Nat)
    (hinst : 1 ≤ inst) :
    (getLayer p name inst = nthLayer (fun info => PktLayer.pktName info == name) inst p ↔
      CountsRight (fun info => PktLayer.pktName info == name) inst p) ∧
    (getLayerByType p pqType inst = nthLayer (fun info => PktLayer.pqType info == pqType) inst p ↔
      CountsRight (fun info => PktLayer.pqType info == pqType) inst p) :=
  ⟨search_eq_nthLayer_iff _ inst p hinst, search_eq_nthLayer_iff _ inst p hinst⟩

/-- A layer that is given by what it is called and its type. -/
structure LayerInfo where
  pktName : String
  pqType : Nat
deriving DecidableEq

instance : PktLayer LayerInfo := ⟨LayerInfo.pktName, LayerInfo.pqType⟩

/-- An Ethernet frame with a label stack of two. -/
def labelled : PKT LayerInfo :=
  above ⟨"Ethernet", 1⟩ (above ⟨"MPLS", 34887⟩ (above ⟨"MPLS", 34887⟩ (last ⟨"NullPkt", 65535⟩)))

/-- What is called MPLS. -/
def isMpls (info : LayerInfo) : Bool := PktLayer.pktName info == "MPLS"

theorem getLayer_nth_iff_labelled :
    (getLayer labelled "MPLS" 1 = nthLayer isMpls 1 labelled ↔ CountsRight isMpls 1 labelled) ∧
    (getLayerByType labelled 34887 1 =
        nthLayer (fun info => PktLayer.pqType info == 34887) 1 labelled ↔
      CountsRight (fun info => PktLayer.pqType info == 34887) 1 labelled) :=
  getLayer_nth_iff labelled "MPLS" 34887 1 (by decide)

/-- The second label of the stack is asked for, and the first is returned. -/
theorem getLayer_second_label :
    getLayer labelled "MPLS" 2 = nthLayer isMpls 1 labelled ∧
      getLayer labelled "MPLS" 2 ≠ nthLayer isMpls 2 labelled ∧
      nthLayer isMpls 2 labelled ≠ none := by
  decide

end PKT

end Packets.Inet
