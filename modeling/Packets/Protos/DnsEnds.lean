/-
How a DNS parse ends: the 16-bit offset against one that does not wrap.
-/
import Packets.Protos.Dns

namespace Packets.Protos

open Reader Tracked

/-- A turn of the loop, as a function of the cursor. -/
theorem readPart_apply (wrap : Nat → Nat) (msg : Bytes) (c : Cursor) :
    readPart wrap msg c =
      if msg.length < c.offset + 1 then (.error .truncated, c)
      else if 1 ≤ (wordAt 1 msg c.offset).value ∧ (wordAt 1 msg c.offset).value ≤ 63 then
        if msg.length < c.offset + 1 + (wordAt 1 msg c.offset).value then (.error .truncated, c)
        else
          match Utf8.decode? (Slices.slice msg (c.offset + 1)
              (c.offset + 1 + (wordAt 1 msg c.offset).value)) with
          | none => (.error .undecodable, c)
          | some text => (.ok (.label c.offset text),
              c.move wrap ((wordAt 1 msg c.offset).value + 1))
      else if (wordAt 1 msg c.offset).value = 0 then (.ok (.root c.offset), c.move wrap 1)
      else if 192 ≤ (wordAt 1 msg c.offset).value then
        if msg.length < c.offset + 2 then (.error .truncated, c)
        else (.ok (.pointer c.offset ((wordAt 2 msg c.offset).value % 0x4000)), c.move wrap 2)
      else (.error .labelLength, c) := by
  rw [readPart, offset, get_bind, need]
  split
  · rfl
  rw [pure_bind_apply]
  dsimp only
  split
  · rw [need]
    split
    · rfl
    rw [pure_bind_apply, decode]
    cases Utf8.decode? (Slices.slice msg (c.offset + 1)
      (c.offset + 1 + (wordAt 1 msg c.offset).value)) with
    | none => rfl
    | some text => rfl
  split
  · rfl
  split
  · rw [need]
    split
    · rfl
    · rfl
  · rfl

/-- A relation of the parser's two readings that its moves and its stores respect. -/
structure Parallel (wrap wrap' : Nat → Nat)
    (R : ∀ {α : Type}, Reader α → Reader α → Prop) : Prop extends Congruent @R where
  raise : ∀ {α : Type} (e : DnsStop), e ≠ .unfinished → R (raise e : Reader α) (raise e)
  store : ∀ place suffix, R (store place suffix) (store place suffix)
  advance : ∀ n, R (advance wrap n) (advance wrap' n)

variable {wrap wrap' : Nat → Nat} {R : ∀ {α : Type}, Reader α → Reader α → Prop}

namespace Parallel

variable (hR : Parallel wrap wrap' @R) {msg : Bytes}

include hR

theorem need (msg : Bytes) (least : Nat) : R (need msg least) (Reader.need msg least) := by
  rw [Reader.need]
  split
  · exact hR.raise _ (by decide)
  · exact hR.pure ()

theorem decode (s : Bytes) : R (decode s) (Reader.decode s) := by
  rw [Reader.decode]
  split
  · exact hR.raise _ (by decide)
  · exact hR.pure _

theorem part : R (readPart wrap msg) (readPart wrap' msg) := by
  refine hR.bind (hR.get _) fun o => hR.bind (hR.need msg _) fun _ => ?_
  dsimp only
  split
  · exact hR.bind (hR.need msg _) fun _ => hR.bind (hR.decode _) fun _ =>
      hR.bind (hR.advance _) fun _ => hR.pure _
  split
  · exact hR.bind (hR.advance _) fun _ => hR.pure _
  split
  · exact hR.bind (hR.need msg _) fun _ => hR.bind (hR.advance _) fun _ => hR.pure _
  · exact hR.raise _ (by decide)

/-- The one name reader may have more fuel, if it does well where the other has none. -/
theorem name {more : Nat}
    (hbase : R (Tracked.raise .unfinished : Reader Text) (readDnsName wrap' msg more))
    (fuel : Nat) : R (readDnsName wrap msg fuel) (readDnsName wrap' msg (fuel + more)) := by
  induction fuel with
  | zero =>
    rw [Nat.zero_add]
    exact hbase
  | succ fuel ih =>
    rw [Nat.add_right_comm]
    refine hR.bind hR.part fun turn => ?_
    cases turn with
    | label place text => exact hR.bind ih fun suffix => hR.bind (hR.store _ _) fun _ => hR.pure _
    | root place => exact hR.bind (hR.store _ _) fun _ => hR.pure _
    | pointer place location =>
      refine hR.bind (hR.get _) fun found => ?_
      cases found with
      | none => exact hR.raise _ (by decide)
      | some suffix => exact hR.bind (hR.store _ _) fun _ => hR.pure _

variable {fuel fuel' : Nat} (hname : R (readDnsName wrap msg fuel) (readDnsName wrap' msg fuel'))

include hname

theorem soa (rlen : Nat) : R (parseSoa wrap msg fuel rlen) (parseSoa wrap' msg fuel' rlen) := by
  refine hR.bind (hR.get _) fun o => ?_
  dsimp only
  split
  · exact hR.bind hname fun _ => hR.bind hname fun _ => hR.bind (hR.get _) fun _ =>
      hR.bind (hR.need msg _) fun _ => hR.bind (hR.advance _) fun _ => hR.pure _
  split
  · exact hR.decode _
  · exact hR.raise _ (by decide)

theorem data (type rlen : Nat) :
    R (parseData wrap msg fuel type rlen) (parseData wrap' msg fuel' type rlen) := by
  refine hR.bind (hR.get _) fun o => ?_
  dsimp only
  split
  · exact hname
  split
  · exact hR.bind (hR.need msg _) fun _ => hR.bind (hR.advance _) fun _ => hR.pure _
  split
  · split
    · exact hR.bind (hR.advance _) fun _ => hR.pure _
    · exact hR.raise _ (by decide)
  split
  · exact hR.soa hname rlen
  · exact hR.bind (hR.decode _) fun _ => hR.bind (hR.advance _) fun _ => hR.pure _

omit hname in
theorem checkName (type : Nat) (name : Text) :
    R (checkName type name) (Protos.checkName type name) := by
  rw [Protos.checkName]
  split
  · exact hR.pure ()
  · exact hR.raise _ (by decide)

theorem resource : R (parseResource wrap msg fuel) (parseResource wrap' msg fuel') :=
  hR.bind hname fun _ => hR.bind (hR.get _) fun _ => hR.bind (hR.need msg _) fun _ =>
    hR.bind (hR.advance _) fun _ => hR.bind (hR.data hname _ _) fun _ =>
      hR.bind (hR.checkName _ _) fun _ => hR.pure _

theorem query : R (parseQuery wrap msg fuel) (parseQuery wrap' msg fuel') :=
  hR.bind hname fun _ => hR.bind (hR.get _) fun _ => hR.bind (hR.need msg _) fun _ =>
    hR.bind (hR.checkName _ _) fun _ => hR.bind (hR.advance _) fun _ => hR.pure _

theorem sections : R (parseSections wrap msg fuel) (parseSections wrap' msg fuel') := by
  have htimes := fun {α : Type} {x y : Reader α} => @Congruent.times _ _ _ x y _ hR.toCongruent
  have hresource := hR.resource hname
  exact hR.bind (htimes (hR.query hname) _) fun _ => hR.bind (htimes hresource _) fun _ =>
    hR.bind (htimes hresource _) fun _ => hR.bind (htimes hresource _) fun _ => hR.pure _

end Parallel

/-- Every move so far ends inside the message, and below what 16 bits hold. -/
def Inside (msg : Bytes) (c : Cursor) : Prop :=
  ∀ move ∈ c.moves, move.1 + move.2 ≤ msg.length ∧ move.1 + move.2 < 65536

instance (msg : Bytes) (c : Cursor) : Decidable (Inside msg c) :=
  inferInstanceAs (Decidable (∀ move ∈ c.moves, _))

theorem Inside.of_move {msg : Bytes} {c : Cursor} {n : Nat} (h : Inside msg (c.move wrap n)) :
    Inside msg c := fun move hmove => h move (List.mem_cons_of_mem _ hmove)

theorem parallel_agrees (msg : Bytes) : Parallel wrap16 id (Agrees (Inside msg)) where
  toCongruent := congruent_agrees (Inside msg)
  raise _ _ := Agrees.rfl fun _ h => h
  store _ _ := Agrees.rfl fun _ h => h
  advance n := by
    refine ⟨fun c h => ?_, fun c h => h.of_move, fun c h => h.of_move⟩
    have hmove : c.offset + n < 65536 := by
      rcases h with h | h
      · exact (h _ List.mem_cons_self).2
      · exact (h _ List.mem_cons_self).2
    simp only [advance, modify_apply, Cursor.move, wrap16, Nat.mod_eq_of_lt hmove, id_eq]

theorem parallel_extends (wrap : Nat → Nat) : Parallel wrap wrap (Extends DnsStop.unfinished) where
  toCongruent := congruent_extends _
  raise _ _ := Extends.rfl
  store _ _ := Extends.rfl
  advance _ := Extends.rfl

theorem parallel_never (wrap : Nat → Nat) :
    Parallel wrap wrap fun x _ => Never DnsStop.unfinished x where
  toCongruent := congruent_never _
  raise e h := fun c heq => h (by cases heq; rfl)
  store _ _ := fun c heq => by cases heq
  advance _ := fun c heq => by cases heq

theorem parseSections_fuel {msg : Bytes} {fuel : Nat} {c : Cursor} (more : Nat)
    (h : (parseSections wrap msg fuel c).1 ≠ .error .unfinished) :
    parseSections wrap msg (fuel + more) c = parseSections wrap msg fuel c :=
  (parallel_extends wrap).sections ((parallel_extends wrap).name (extends_raise _ _) fuel) c h

/-- A label that is read moves the offset on, and not past the end. -/
theorem readPart_label {msg : Bytes} {c c' : Cursor} {place : Nat} {text : Text}
    (h : readPart wrap msg c = (.ok (.label place text), c')) :
    ∃ n, 1 ≤ n ∧ c.offset + n ≤ msg.length ∧ c' = c.move wrap n := by
  rw [readPart_apply] at h
  split at h
  · cases h
  split at h
  · split at h
    · cases h
    split at h
    · cases h
    · cases h
      exact ⟨_, by omega, by omega, rfl⟩
  split at h
  · cases h
  split at h
  · split at h
    · cases h
    · cases h
  · cases h

/-- A name ends when its offset does not wrap: every label takes it further. -/
theorem readDnsName_ends {msg : Bytes} (fuel : Nat) :
    ∀ c : Cursor, msg.length < c.offset + fuel → 0 < fuel →
      (readDnsName id msg fuel c).1 ≠ .error .unfinished := by
  induction fuel with
  | zero => exact fun c _ h => absurd h (by decide)
  | succ fuel ih =>
    intro c hfuel _
    rw [readDnsName, bind_apply]
    rcases hpart : readPart id msg c with ⟨e | turn, c'⟩
    · have hnever : (readPart id msg c).1 ≠ .error .unfinished := (parallel_never id).part c
      rw [hpart] at hnever
      exact fun heq => hnever (by cases heq; rfl)
    · cases turn with
      | label place text =>
        obtain ⟨n, hn, hle, rfl⟩ := readPart_label hpart
        have hrest := ih (c.move id n) (by simp only [Cursor.move, id_eq]; omega) (by omega)
        dsimp only
        rw [bind_apply]
        rcases hname : readDnsName id msg fuel (c.move id n) with ⟨e | suffix, c''⟩
        · rw [hname] at hrest
          exact fun heq => hrest (by cases heq; rfl)
        · exact fun heq => by cases heq
      | root place => exact fun heq => by cases heq
      | pointer place location =>
        dsimp only
        rw [lookup, get_bind]
        cases c'.labels.get? location with
        | none => exact fun heq => by cases heq
        | some suffix => exact fun heq => by cases heq

/-- The parse ends, and no offset on the way wraps or leaves the message. -/
def EndsInside (msg : Bytes) : Prop :=
  ∃ fuel, (parseMessage wrap16 msg fuel).1 ≠ .error .unfinished ∧
    Inside msg (parseMessage wrap16 msg fuel).2

/-- Read with offsets that do not wrap, the message is never left, and never read past what
16 bits hold. -/
def ReadsInside (msg : Bytes) : Prop := Inside msg (parseMessage id msg (msg.length + 1)).2

instance (msg : Bytes) : Decidable (ReadsInside msg) := inferInstanceAs (Decidable (Inside msg _))

theorem parseMessage_agrees (msg : Bytes) (fuel : Nat)
    (h : Inside msg (parseMessage wrap16 msg fuel).2 ∨ Inside msg (parseMessage id msg fuel).2) :
    parseMessage wrap16 msg fuel = parseMessage id msg fuel := by
  rw [parseMessage, parseMessage] at *
  split
  · rfl
  next hlong =>
    rw [if_neg hlong, if_neg hlong] at h
    have hbase : Agrees (Inside msg) (raise .unfinished : Reader Text) (readDnsName id msg 0) :=
      ⟨fun c h => rfl, fun c h => h, fun c h => h⟩
    have hname := (parallel_agrees msg).name hbase fuel
    exact ((parallel_agrees msg).sections hname).same _ h

theorem parseMessage_ends (msg : Bytes) :
    (parseMessage id msg (msg.length + 1)).1 ≠ .error .unfinished := by
  rw [parseMessage]
  split
  · exact fun heq => by cases heq
  · have hname : Never .unfinished (readDnsName id msg (msg.length + 1)) :=
      fun c => readDnsName_ends (msg.length + 1) c (by omega) (by omega)
    exact @Parallel.sections _ _ _ (parallel_never id) _ _ 0 hname _

theorem parseMessage_fuel {msg : Bytes} {fuel : Nat} (more : Nat)
    (h : (parseMessage wrap msg fuel).1 ≠ .error .unfinished) :
    parseMessage wrap msg (fuel + more) = parseMessage wrap msg fuel := by
  rw [parseMessage, parseMessage] at *
  split
  · rfl
  next hlong =>
    rw [if_neg hlong] at h
    exact parseSections_fuel more h

end Packets.Protos
