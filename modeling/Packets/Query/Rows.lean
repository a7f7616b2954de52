/-
What `query` returns, and what iterating the object yields.
-/
import Packets.Query.Supported

namespace Packets.Query

open Packets.Inet

variable {σ : Type}

abbrev Row := List (Option Value)

/-- The packets of some records, each decoded in the context the ones before it left. -/
def decoded (parser : FrameParser σ) : σ → List Captured → List (Captured × PKT LayerFields)
  | _, [] => []
  | s, c :: rest =>
    match parser.parse s c.bytes with
    | .ok (p, s) => (c, p) :: decoded parser s rest
    | .error _ => decoded parser s rest

def cellValue : Cell → Option Value
  | .ok v => v
  | .error _ => none

/-- The row of a packet: the value of each field in the first layer of its class. -/
def expectedRow (added : List PacketClass) (names : List String)
    (r : Captured × PKT LayerFields) : Row :=
  names.map fun name => cellValue (expectedCell added r.1.frame r.2 name)

/-- A time that is given, and that the packet is before. -/
def Captured.beforeStart (args : PcapQuery.QueryArgs) (c : Captured) : Bool :=
  args.starttime ≠ 0 && c.frame.ts < args.starttime

/-- A time that is given, and that the packet is past. -/
def Captured.pastEnd (args : PcapQuery.QueryArgs) (c : Captured) : Bool :=
  args.endtime ≠ 0 && c.frame.ts > args.endtime

/-- The records of a query: those before the first one past the end, from the start on. -/
def window (args : PcapQuery.QueryArgs) (l : List Captured) : List Captured :=
  (l.takeWhile fun c => !c.pastEnd args).filter fun c => !c.beforeStart args

/-- A number of rows that is given cuts. -/
def cut (numPackets : Int) (rows : List Row) : List Row :=
  if numPackets = 0 then rows else rows.take numPackets.toNat

/-- The rows of some packets, without those that have none of the fields. -/
def rowsOf (added : List PacketClass) (names : List String)
    (packets : List (Captured × PKT LayerFields)) : List Row :=
  (packets.map (expectedRow added names)).filter fun row => row.any Option.isSome

theorem rowsOf_cons (added : List PacketClass) (names : List String)
    (r : Captured × PKT LayerFields) (packets : List (Captured × PKT LayerFields)) :
    rowsOf added names (r :: packets) =
      if (expectedRow added names r).any Option.isSome
      then expectedRow added names r :: rowsOf added names packets
      else rowsOf added names packets := by
  simp only [rowsOf, List.map_cons, List.filter_cons]

/-- The records the loop comes to. -/
def visited (args : PcapQuery.QueryArgs) : List Captured → List Captured
  | [] => []
  | c :: rest =>
    if c.beforeStart args then visited args rest
    else if c.pastEnd args then [] else c :: visited args rest

/-- Where the end is before the start, nothing is from the start on and not past the end. -/
theorem visited_of_crossed {args : PcapQuery.QueryArgs} {c : Captured}
    (hstart : c.beforeStart args) (hend : c.pastEnd args) (l : List Captured) :
    visited args l = [] := by
  simp only [Captured.beforeStart, Captured.pastEnd, Bool.and_eq_true, decide_eq_true_eq]
    at hstart hend
  obtain ⟨hset, hbefore⟩ := hstart
  obtain ⟨hgiven, hpast⟩ := hend
  induction l with
  | nil => rfl
  | cons c' rest ih =>
    unfold visited
    cases hb : c'.beforeStart args with
    | true => rw [if_pos rfl]; exact ih
    | false =>
      have hfrom : args.starttime ≤ c'.frame.ts := by
        have hnot := Bool.eq_false_iff.mp hb
        simp only [Captured.beforeStart, ne_eq, Bool.and_eq_true, decide_eq_true_eq,
          not_and, not_lt] at hnot
        exact hnot hset
      have hp : c'.pastEnd args = true := by
        simp only [Captured.pastEnd, Bool.and_eq_true, decide_eq_true_eq]
        exact ⟨hgiven, lt_of_lt_of_le (hpast.trans hbefore) hfrom⟩
      rw [if_neg (by decide), if_pos hp]

theorem visited_eq_window (args : PcapQuery.QueryArgs) (l : List Captured) :
    visited args l = window args l := by
  induction l with
  | nil => rfl
  | cons c rest ih =>
    unfold visited window
    cases hend : c.pastEnd args with
    | true =>
      rw [List.takeWhile_cons_of_neg (by simp [hend])]
      cases hstart : c.beforeStart args with
      | true => exact visited_of_crossed hstart hend rest
      | false => rfl
    | false =>
      rw [List.takeWhile_cons_of_pos (by simp [hend])]
      cases hstart : c.beforeStart args with
      | true =>
        rw [List.filter_cons_of_neg (by simp [hstart])]
        exact ih
      | false =>
        rw [List.filter_cons_of_pos (by simp [hstart])]
        exact congrArg (List.cons c) ih

/-- No field of interest raises in any of the records, whatever the decode context. -/
def Reads (added : List PacketClass) (names : List String) (parser : FrameParser σ)
    (l : List Captured) : Prop :=
  ∀ c ∈ l, ∀ s p s', parser.parse s c.bytes = .ok (p, s') →
    ∀ name ∈ names, ∃ v, expectedCell added c.frame p name = .ok v

/-- Every record is a frame that parses, whatever the decode context. -/
def Parses (parser : FrameParser σ) (l : List Captured) : Prop :=
  ∀ c ∈ l, ∀ s, ∃ p s', parser.parse s c.bytes = .ok (p, s')

theorem mapM_cells {f : String → Cell} {names : List String}
    (h : ∀ name ∈ names, ∃ v, f name = .ok v) :
    names.mapM f = .ok (names.map fun name => cellValue (f name)) := by
  induction names with
  | nil => rfl
  | cons name rest ih =>
    obtain ⟨v, hv⟩ := h name (List.mem_cons_self ..)
    have hrest := ih fun n hn => h n (List.mem_cons_of_mem _ hn)
    rw [List.mapM_cons, hv, hrest, List.map_cons, hv]
    rfl

theorem not_empty_of_parses {parser : FrameParser σ} {s : σ} {c : Captured}
    {r : PKT LayerFields × σ} (h : parser.parse s c.bytes = .ok r) : c.bytes.isEmpty = false := by
  rw [← Bool.not_eq_true]
  intro hempty
  have hlen : c.bytes.length < 14 := by
    rw [List.isEmpty_iff.mp hempty]
    decide
  obtain ⟨e, he⟩ := parser.short s c.bytes hlen
  rw [he] at h
  cases h

theorem count_none_ne_length_iff (row : Row) :
    row.count none ≠ row.length ↔ row.any Option.isSome = true := by
  rw [ne_eq, List.count_eq_length, List.any_eq_true, not_forall]
  constructor
  · rintro ⟨v, hv⟩
    obtain ⟨hmem, hne⟩ := Classical.not_imp.mp hv
    exact ⟨v, hmem, Option.isSome_iff_ne_none.mpr (Ne.symm hne)⟩
  · rintro ⟨v, hmem, hsome⟩
    exact ⟨v, Classical.not_imp.mpr ⟨hmem, (Option.isSome_iff_ne_none.mp hsome).symm⟩⟩

section Object

variable {added : List PacketClass} {names : List String} {q : PcapQuery}
  {parser : FrameParser σ}

/-- The context the object decodes the next packet in, and the one the packets so far left:
different only where nothing is decoded. -/
def Synced (q : PcapQuery) (s s₀ : σ) : Prop := q.skipDecode = true ∨ s = s₀

theorem skipDecode_cells (h : PcapQuery.build added names = .ok q) (hskip : q.skipDecode = true)
    (frame : Frame) (p p' : PKT LayerFields) :
    names.mapM (expectedCell added frame p) = names.mapM (expectedCell added frame p') := by
  rw [← extractRow_eq h, ← extractRow_eq h, ← skipDecode_layers hskip frame p,
    ← skipDecode_layers hskip frame p']

theorem rowOf_expected (h : PcapQuery.build added names = .ok q) {l : List Captured}
    (hparses : Parses parser l) (hreads : Reads added names parser l) {c : Captured} (hc : c ∈ l)
    {s s₀ s₁ : σ} {p : PKT LayerFields} (hs : Synced q s s₀)
    (hparse : parser.parse s₀ c.bytes = .ok (p, s₁)) :
    ∃ s', q.rowOf parser s c = .ok (expectedRow added names (c, p), s') ∧ Synced q s' s₁ := by
  have hrow : names.mapM (expectedCell added c.frame p) = .ok (expectedRow added names (c, p)) :=
    mapM_cells (hreads c hc s₀ p s₁ hparse)
  obtain ⟨p', s', hown⟩ := hparses c hc s
  have hrowOf := rowOf_eq h hown
  rcases hs with hskip | rfl
  · rw [skipDecode_cells h hskip c.frame p' p, hrow, hskip] at hrowOf
    exact ⟨s, hrowOf, Or.inl hskip⟩
  · obtain ⟨rfl, rfl⟩ := Prod.mk.inj (Except.ok.inj (hown.symm.trans hparse))
    rw [hrow] at hrowOf
    cases hskip : q.skipDecode with
    | true =>
      rw [hskip] at hrowOf
      exact ⟨s, hrowOf, Or.inl hskip⟩
    | false =>
      rw [hskip] at hrowOf
      exact ⟨s', hrowOf, Or.inr rfl⟩

theorem length_expectedRow (h : PcapQuery.build added names = .ok q)
    (r : Captured × PKT LayerFields) :
    (expectedRow added names r).length = q.fieldDescriptors.length := by
  rw [expectedRow, List.length_map]
  exact (build_spec h).2.length_eq

/-- The rows that are still taken after so many. -/
def left (numPackets : Int) (pkts : Nat) (rows : List Row) : List Row :=
  if numPackets = 0 then rows else rows.take (numPackets - pkts).toNat

@[simp] theorem left_nil (numPackets : Int) (pkts : Nat) : left numPackets pkts [] = [] := by
  simp [left]

theorem left_zero (numPackets : Int) (rows : List Row) :
    left numPackets 0 rows = cut numPackets rows := by
  simp [left, cut]

theorem left_full {numPackets : Int} {pkts : Nat} (hgiven : numPackets ≠ 0)
    (hfull : (pkts : Int) ≥ numPackets) (rows : List Row) : left numPackets pkts rows = [] := by
  have hzero : (numPackets - pkts).toNat = 0 := by omega
  rw [left, if_neg hgiven, hzero, List.take_zero]

theorem left_cons {numPackets : Int} {pkts : Nat}
    (h : ¬(numPackets ≠ 0 ∧ (pkts : Int) ≥ numPackets)) (row : Row) (rows : List Row) :
    left numPackets pkts (row :: rows) = row :: left numPackets (pkts + 1) rows := by
  unfold left
  by_cases hgiven : numPackets = 0
  · rw [if_pos hgiven, if_pos hgiven]
  · have hroom : (numPackets - pkts).toNat = (numPackets - (pkts + 1 : Nat)).toNat + 1 := by omega
    rw [if_neg hgiven, if_neg hgiven, hroom, List.take_succ_cons]

/-- The loop adds to the rows it has those of the records it comes to, as far as they are still
taken. -/
theorem queryLoop_eq (h : PcapQuery.build added names = .ok q) (args : PcapQuery.QueryArgs)
    (l : List Captured) (hparses : Parses parser l) (hreads : Reads added names parser l)
    {s s₀ : σ} (hs : Synced q s s₀) (pkts : Nat) (data : List Row) :
    ∃ reader, q.queryLoop parser args l s pkts data =
      .ok (data ++ left args.numPackets pkts
        (rowsOf added names (decoded parser s₀ (visited args l))), reader) := by
  induction l generalizing s s₀ pkts data with
  | nil => exact ⟨⟨[], s⟩, by simp [PcapQuery.queryLoop, visited, decoded, rowsOf]⟩
  | cons c rest ih =>
    have hmem : c ∈ c :: rest := List.mem_cons_self ..
    have hparses' : Parses parser rest := fun c hc => hparses c (List.mem_cons_of_mem _ hc)
    have hreads' : Reads added names parser rest := fun c hc => hreads c (List.mem_cons_of_mem _ hc)
    obtain ⟨p, s₁, hparse⟩ := hparses c hmem s₀
    have hfull := not_empty_of_parses hparse
    have hstart : c.beforeStart args = true ↔ args.starttime ≠ 0 ∧ c.frame.ts < args.starttime := by
      simp [Captured.beforeStart]
    have hend : c.pastEnd args = true ↔ args.endtime ≠ 0 ∧ c.frame.ts > args.endtime := by
      simp [Captured.pastEnd]
    unfold PcapQuery.queryLoop visited
    simp only [hfull, ← hstart, ← hend, Bool.false_eq_true, if_false]
    cases hbefore : c.beforeStart args with
    | true =>
      simp only [if_true]
      exact ih hparses' hreads' hs pkts data
    | false =>
      simp only [Bool.false_eq_true, if_false]
      cases hpast : c.pastEnd args with
      | true =>
        simp only [if_true]
        exact ⟨⟨rest, s⟩, by simp [decoded, rowsOf]⟩
      | false =>
        simp only [Bool.false_eq_true, if_false]
        by_cases hnum : args.numPackets ≠ 0 ∧ (pkts : Int) ≥ args.numPackets
        · rw [if_pos hnum, left_full hnum.1 hnum.2, List.append_nil]
          exact ⟨⟨rest, s⟩, rfl⟩
        · obtain ⟨s', hrow, hs'⟩ := rowOf_expected h hparses hreads hmem hs hparse
          rw [if_neg hnum, hrow]
          simp only [bind, Except.bind, decoded, hparse]
          rw [rowsOf_cons, ← length_expectedRow h (c, p)]
          by_cases hvalue : (expectedRow added names (c, p)).any Option.isSome = true
          · obtain ⟨reader, hloop⟩ := ih hparses' hreads' hs' (pkts + 1)
              (data ++ [expectedRow added names (c, p)])
            refine ⟨reader, ?_⟩
            rw [if_pos ((count_none_ne_length_iff _).mpr hvalue), if_pos hvalue,
              left_cons hnum, hloop, List.append_assoc, List.singleton_append]
          · rw [if_neg fun hcount => hvalue ((count_none_ne_length_iff _).mp hcount), if_neg hvalue]
            exact ih hparses' hreads' hs' pkts data

theorem iterate_eq (h : PcapQuery.build added names = .ok q) (l : List Captured)
    (hparses : Parses parser l) (hreads : Reads added names parser l) {s s₀ : σ}
    (hs : Synced q s s₀) {turns : Nat} (hturns : l.length < turns) :
    q.iterate parser turns ⟨l, s⟩ = .ok ((decoded parser s₀ l).map (expectedRow added names)) := by
  induction l generalizing s s₀ turns with
  | nil =>
    obtain ⟨turns, rfl⟩ : ∃ k, turns = k + 1 := ⟨turns - 1, by simp at hturns; omega⟩
    rfl
  | cons c rest ih =>
    have hmem : c ∈ c :: rest := List.mem_cons_self ..
    obtain ⟨turns, rfl⟩ : ∃ k, turns = k + 1 := ⟨turns - 1, by simp at hturns; omega⟩
    obtain ⟨p, s₁, hparse⟩ := hparses c hmem s₀
    obtain ⟨s', hrow, hs'⟩ := rowOf_expected h hparses hreads hmem hs hparse
    have hrest := ih (fun c hc => hparses c (List.mem_cons_of_mem _ hc))
      (fun c hc => hreads c (List.mem_cons_of_mem _ hc)) hs'
      (Nat.lt_of_succ_lt_succ hturns)
    simp only [PcapQuery.iterate, PcapQuery.next, not_empty_of_parses hparse, hrow, bind,
      Except.bind, pure, Except.pure, Bool.false_eq_true, if_false, hrest, decoded, hparse,
      List.map_cons]

end Object

/-- The rows of a query are those of the packets before the first past the end, from the start
on, that have one of the fields, as many as are asked for.  A cell is the value in the first
layer of the class that registered the field last. -/
theorem query_rows {added : List PacketClass} {names : List String} {q : PcapQuery}
    (h : PcapQuery.build added names = .ok q) (parser : FrameParser σ) (reader : Reader σ)
    (hparses : Parses parser reader.rest) (hreads : Reads added names parser reader.rest)
    (args : PcapQuery.QueryArgs) :
    (∃ reader', q.query parser args reader = .ok (cut args.numPackets (rowsOf added names
        (decoded parser reader.context (window args reader.rest))), reader')) ∧
      q.iterate parser (reader.rest.length + 1) reader =
        .ok ((decoded parser reader.context reader.rest).map (expectedRow added names)) := by
  refine ⟨?_, iterate_eq h reader.rest hparses hreads (Or.inr rfl) (Nat.lt_succ_self _)⟩
  obtain ⟨reader', hloop⟩ := queryLoop_eq h args reader.rest hparses hreads (Or.inr rfl) 0 []
  refine ⟨reader', ?_⟩
  rw [PcapQuery.query, hloop, left_zero, visited_eq_window, List.nil_append]

theorem reads_of_not_refused {added : List PacketClass} (hlabels : LabelsOwn added)
    {names : List String} (h : ∀ name ∈ names, ¬Refused added name) (parser : FrameParser σ)
    (l : List Captured) : Reads added names parser l :=
  fun c _ _ p _ _ name hname => expectedCell_shown hlabels (h name hname) c.frame p

/-- An empty datagram from a port. -/
def datagramFrom (port : UInt8) : Bytes :=
  [2, 0, 0, 0, 0, 1, 2, 0, 0, 0, 0, 2, 8, 0,
    69, 0, 0, 28, 0, 1, 0, 0, 64, 17, 0, 0, 10, 0, 0, 1, 10, 0, 0, 2, 0, port, 0, 80, 0, 8, 0, 0]

/-- Three datagrams, the last of them captured before the second. -/
def unordered : List Captured :=
  [⟨⟨10, 42, 42⟩, datagramFrom 1⟩, ⟨⟨30, 42, 42⟩, datagramFrom 2⟩, ⟨⟨20, 42, 42⟩, datagramFrom 3⟩]

def portAndTime : List String := ["udp.srcport", "frame.time_epoch"]

theorem parses_unordered : Parses plainParsing.parser unordered := by
  have hok : ∀ port ∈ [1, 2, 3], (ethernetPacket plainParsing (datagramFrom port)).isOk := by
    decide +kernel
  intro c hc s
  have hbytes : ∃ port ∈ ([1, 2, 3] : List UInt8), c.bytes = datagramFrom port := by
    simp only [unordered, List.mem_cons, List.not_mem_nil, or_false] at hc
    rcases hc with rfl | rfl | rfl
    · exact ⟨1, by decide, rfl⟩
    · exact ⟨2, by decide, rfl⟩
    · exact ⟨3, by decide, rfl⟩
  obtain ⟨port, hport, hc⟩ := hbytes
  have hone := hok port hport
  cases hparse : ethernetPacket plainParsing (datagramFrom port) with
  | error e => rw [hparse] at hone; cases hone
  | ok p => exact ⟨p, (), by rw [hc]; simp [Parsing.parser, hparse, Except.map]⟩

theorem not_refused_portAndTime : ∀ name ∈ portAndTime, ¬Refused [] name := by
  intro name hname
  simp only [portAndTime, List.mem_cons, List.not_mem_nil, or_false] at hname
  rintro ⟨t, hoffer, hbad⟩
  rcases hname with rfl | rfl
  · have htype : offering [] "udp.srcport" = some PQ_UDP := by decide
    obtain rfl := Option.some.inj (htype.symm.trans hoffer)
    exact absurd hbad (by decide)
  · have htype : offering [] "frame.time_epoch" = some PQ_FRAME := by decide
    obtain rfl := Option.some.inj (htype.symm.trans hoffer)
    exact absurd hbad (by decide)

theorem reads_unordered : Reads [] portAndTime plainParsing.parser unordered :=
  reads_of_not_refused (by intro c hc; cases hc) not_refused_portAndTime _ _

theorem build_portAndTime : ∃ q, PcapQuery.build [] portAndTime = .ok q := by
  apply exists_build
  apply supported_of_registered
  intro name hname
  simp only [portAndTime, List.mem_cons, List.not_mem_nil, or_false] at hname
  rcases hname with rfl | rfl
  · rw [contains_registered]
    decide
  · rw [contains_registered]
    decide

/-- The query up to a time, of the datagrams out of order. -/
theorem query_rows_unordered : ∃ q, PcapQuery.build [] portAndTime = .ok q ∧
    (∃ reader', q.query plainParsing.parser ⟨0, 25, 0⟩ ⟨unordered, ()⟩ =
      .ok (cut 0 (rowsOf [] portAndTime
        (decoded plainParsing.parser () (window ⟨0, 25, 0⟩ unordered))), reader')) ∧
    q.iterate plainParsing.parser 4 ⟨unordered, ()⟩ =
      .ok ((decoded plainParsing.parser () unordered).map (expectedRow [] portAndTime)) := by
  obtain ⟨q, hq⟩ := build_portAndTime
  exact ⟨q, hq, query_rows hq plainParsing.parser ⟨unordered, ()⟩ parses_unordered
    reads_unordered ⟨0, 25, 0⟩⟩

/-- The packets from the start to the end, wherever in the file they are. -/
def between (args : PcapQuery.QueryArgs) (l : List Captured) : List Captured :=
  l.filter fun c => !c.beforeStart args && !c.pastEnd args

/-- A packet in time is missed behind one that is past the end. -/
theorem not_query_between : ¬∀ (names : List String) (q : PcapQuery),
    PcapQuery.build [] names = .ok q → ∀ (parser : FrameParser Unit) (reader : Reader Unit),
      Parses parser reader.rest → Reads [] names parser reader.rest →
        ∀ args : PcapQuery.QueryArgs, args.numPackets = 0 →
          ∃ reader', q.query parser args reader = .ok (rowsOf [] names
            (decoded parser reader.context (between args reader.rest)), reader') := by
  intro h
  have hmissed : rowsOf [] portAndTime
      (decoded plainParsing.parser () (visited ⟨0, 25, 0⟩ unordered)) ≠
        rowsOf [] portAndTime (decoded plainParsing.parser () (between ⟨0, 25, 0⟩ unordered)) := by
    decide +kernel
  obtain ⟨q, hq⟩ := build_portAndTime
  obtain ⟨reader, hloop⟩ := queryLoop_eq hq ⟨0, 25, 0⟩ unordered parses_unordered reads_unordered
    (Or.inr rfl) 0 []
  obtain ⟨reader', hquery⟩ := h portAndTime q hq plainParsing.parser ⟨unordered, ()⟩
    parses_unordered reads_unordered ⟨0, 25, 0⟩ rfl
  exact hmissed (Prod.mk.inj (Except.ok.inj (hloop.symm.trans hquery))).1

end Packets.Query
