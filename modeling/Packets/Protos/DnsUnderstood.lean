/-
Which well-formed DNS messages the parser understands.
-/
import Packets.Protos.DnsNames

namespace Packets.Protos

open BigEndian (ofNat toNat)
open Reader Tracked WireFields
open Slices (slice)

theorem enter_of_lt {labels rest : List Label} {place p : Nat} {sites : Sites} (h : p < place) :
    enter labels rest place sites p = sites p := by
  induction labels generalizing place with
  | nil => exact Function.update_of_ne (by omega) _ _
  | cons l labels ih =>
    rw [enter, Function.update_of_ne (by omega)]
    exact ih (by omega)

/-- A name enters sites from its start up to its tail. -/
theorem enter_of_isSome {labels rest : List Label} {place p : Nat} {sites : Sites}
    (h : (enter labels rest place sites p).isSome) :
    (sites p).isSome ∨ p ≤ place + wireLength labels := by
  induction labels generalizing place with
  | nil =>
    by_cases hp : p = place
    · exact Or.inr (by omega)
    · rw [enter, Function.update_of_ne hp] at h
      exact Or.inl h
  | cons l labels ih =>
    by_cases hp : p = place
    · exact Or.inr (by omega)
    · rw [enter, Function.update_of_ne hp] at h
      rcases ih h with h | h
      · exact Or.inl h
      · right
        rw [wireLength, List.flatMap_cons, List.length_append]
        rw [wireLength] at h
        omega

theorem enter_mono {labels rest : List Label} {place : Nat} {met known : Sites}
    (h : ∀ p site, met p = some site → known p = some site) :
    ∀ p site, enter labels rest place met p = some site →
      enter labels rest place known p = some site := by
  induction labels generalizing place with
  | nil =>
    intro p site hp
    rw [enter, Function.update_apply] at hp ⊢
    by_cases heq : p = place
    · rwa [if_pos heq] at hp ⊢
    · rw [if_neg heq] at hp ⊢
      exact h p site hp
  | cons l labels ih =>
    intro p site hp
    rw [enter, Function.update_apply] at hp ⊢
    by_cases heq : p = place
    · rwa [if_pos heq] at hp ⊢
    · rw [if_neg heq] at hp ⊢
      exact ih p site hp

theorem NameTail.bytes_pos (t : NameTail) : 1 ≤ t.bytes.length := by
  cases t <;> simp [NameTail.bytes]

theorem WireName.length_bytes (n : WireName) :
    n.bytes.length = wireLength n.labels + n.tail.bytes.length := List.length_append

/-- The names read are among the names that stand so far, which all stand before. -/
structure Ground.Sound (g : Ground) : Prop where
  known_of_met : ∀ p site, g.met p = some site → g.known p = some site
  earlier : ∀ p, (g.known p).isSome → p < g.place

theorem Ground.pass_place (read : Bool) (n : WireName) (g : Ground) :
    (g.pass read n).place = g.place + n.bytes.length := rfl

theorem Ground.start_sound : Ground.start.Sound := ⟨by simp [start], by simp [start]⟩

theorem Ground.Sound.skip {g : Ground} (h : g.Sound) (n : Nat) : (g.skip n).Sound :=
  ⟨h.known_of_met, fun p hp => (h.earlier p hp).trans_le (Nat.le_add_right _ _)⟩

theorem Ground.Sound.pass {g : Ground} (h : g.Sound) (read : Bool) (n : WireName) :
    (g.pass read n).Sound := by
  constructor
  · intro p site hp
    cases read with
    | true => exact enter_mono h.known_of_met p site hp
    | false =>
      have hknown := h.known_of_met p site hp
      have hlt := h.earlier p (Option.isSome_of_eq_some hknown)
      exact (enter_of_lt hlt).trans hknown
  · intro p hp
    have hpos := n.tail.bytes_pos
    have hlength := n.length_bytes
    simp only [Ground.pass] at hp ⊢
    rcases enter_of_isSome hp with hold | hnew
    · have := h.earlier p hold
      omega
    · omega

theorem Ground.Sound.segment {g : Ground} (h : g.Sound) (read : Bool) (s : Segment) :
    (g.segment read s).Sound := by
  cases s with
  | name n => exact h.pass read n
  | raw s => exact h.skip _

theorem Ground.Sound.segments {g : Ground} (h : g.Sound) (read : Bool) (data : List Segment) :
    (data.foldl (Ground.segment read) g).Sound := by
  induction data generalizing g with
  | nil => exact h
  | cons s rest ih => exact ih (h.segment read s)

theorem Ground.Sound.query {g : Ground} (h : g.Sound) (q : WireQuery) : (g.query q).Sound :=
  (h.pass true q.name).skip 4

theorem Ground.Sound.dataStart {g : Ground} (h : g.Sound) (r : WireRecord) :
    (g.dataStart r).Sound := (h.pass true r.owner).skip 10

theorem Ground.Sound.record {g : Ground} (h : g.Sound) (r : WireRecord) : (g.record r).Sound :=
  (h.dataStart r).segments _ _

theorem Ground.segments_place (read : Bool) (data : List Segment) (g : Ground) :
    (data.foldl (Ground.segment read) g).place = g.place + (data.flatMap Segment.bytes).length := by
  induction data generalizing g with
  | nil => simp
  | cons s rest ih =>
    rw [List.foldl_cons, ih, List.flatMap_cons, List.length_append]
    cases s with
    | name n => simp only [Ground.segment, Ground.pass, Segment.bytes]; omega
    | raw s => simp only [Ground.segment, Ground.skip, Segment.bytes]; omega

theorem Ground.segments_met (data : List Segment) (g : Ground) :
    (data.foldl (Ground.segment false) g).met = g.met := by
  induction data generalizing g with
  | nil => rfl
  | cons s rest ih =>
    rw [List.foldl_cons, ih]
    cases s <;> rfl

variable {msg : Bytes}

/-- The message, shorter than what 16 bits hold, has the bytes at a place. -/
structure Holds (msg : Bytes) (place : Nat) (s : Bytes) : Prop where
  short : msg.length < 65536
  there : ∃ rest, msg.drop place = s ++ rest

theorem Holds.left {place : Nat} {s t : Bytes} (h : Holds msg place (s ++ t)) :
    Holds msg place s := by
  obtain ⟨rest, hrest⟩ := h.there
  exact ⟨h.short, t ++ rest, by rw [hrest, List.append_assoc]⟩

theorem Holds.right {place : Nat} {s t : Bytes} (h : Holds msg place (s ++ t)) :
    Holds msg (place + s.length) t := by
  obtain ⟨rest, hrest⟩ := h.there
  rw [List.append_assoc] at hrest
  exact ⟨h.short, rest, drop_of_drop hrest⟩

theorem Holds.le {place : Nat} {s : Bytes} (h : Holds msg place s) (hs : s ≠ []) :
    place + s.length ≤ msg.length := by
  obtain ⟨rest, hrest⟩ := h.there
  exact le_of_drop hrest hs

theorem Holds.slice {place : Nat} {s : Bytes} (h : Holds msg place s) :
    slice msg place (place + s.length) = s := by
  obtain ⟨rest, hrest⟩ := h.there
  exact slice_of_drop hrest

theorem Holds.wordAt {place width : Nat} {w : Word width} (h : Holds msg place w.bytes) :
    wordAt width msg place = w := by
  obtain ⟨rest, hrest⟩ := h.there
  exact wordAt_of_drop hrest

/-- The parser is where the ground is, and has stored the names that were met. -/
structure At (c : Cursor) (g : Ground) : Prop where
  offset : c.offset = g.place
  stored : Stored c.labels g.met

variable {c c' : Cursor} {g : Ground} {fuel : Nat}

theorem at_start : At ⟨12, Dict.empty, []⟩ Ground.start :=
  ⟨rfl, fun _ => ⟨rfl, by simp [Ground.start]⟩⟩

theorem At.move (h : At c g) {n : Nat} (hn : g.place + n < 65536) :
    At (c.move wrap16 n) (g.skip n) := by
  refine ⟨?_, h.stored⟩
  rw [Cursor.move, h.offset, wrap16, Nat.mod_eq_of_lt hn]
  rfl

/-- The tail of a readable name stands for the same among the names met and the known. -/
theorem WireName.Readable.resolve {n : WireName} (h : n.Readable g) (hsound : g.Sound)
    (hstored : Stored c.labels g.met) :
    ∃ site text, n.tail.resolve g.met = some site ∧ n.tail.resolve g.known = some site ∧
      nameText? (n.labels ++ site) = some text := by
  obtain ⟨site, hsite⟩ := Option.isSome_iff_exists.mp h.2
  have hboth : n.tail.resolve g.known = some site ∧ (nameText? site).isSome := by
    cases htail : n.tail with
    | root =>
      rw [htail] at hsite
      cases hsite
      exact ⟨rfl, rfl⟩
    | pointer location fits =>
      rw [htail] at hsite
      exact ⟨hsound.known_of_met _ _ hsite, (hstored location).2 _ hsite⟩
  obtain ⟨text, htext⟩ := Option.isSome_iff_exists.mp (nameText?_append_isSome.mpr ⟨h.1, hboth.2⟩)
  exact ⟨site, text, hsite, hboth.1, htext⟩

theorem length_labels_le (labels : List Label) : labels.length ≤ wireLength labels := by
  induction labels with
  | nil => exact Nat.le_refl 0
  | cons l labels ih =>
    rw [wireLength, List.flatMap_cons, List.length_append, Label.wire, List.length_cons,
      List.length_cons]
    rw [wireLength] at ih
    omega

/-- A readable name is read. -/
theorem readDnsName_ok {n : WireName} (hholds : Holds msg g.place n.bytes) (hat : At c g)
    (hsound : g.Sound) (h : n.Readable g) (hfuel : n.labels.length < fuel) :
    ∃ text c', readDnsName wrap16 msg fuel c = (.ok text, c') ∧ n.Is g text ∧
      At c' (g.pass true n) := by
  obtain ⟨site, text, hmet, hknown, htext⟩ := h.resolve hsound hat.stored
  obtain ⟨hshort, rest, hdrop⟩ := hholds
  rw [WireName.bytes, List.append_assoc, ← hat.offset] at hdrop
  obtain ⟨c', hread, hoffset, hstored⟩ := readDnsName_reads n.labels hshort hmet c fuel text
    hfuel hdrop hat.stored htext
  refine ⟨text, c', hread, ⟨n.labels ++ site, ?_, htext⟩, ?_, ?_⟩
  · rw [WireName.resolve, hknown, Option.map_some]
  · rw [hoffset, hat.offset, Ground.pass, n.length_bytes, Nat.add_assoc]
  · rw [hat.offset] at hstored
    simpa only [Ground.pass, hknown, Option.getD_some, ↓reduceIte] using hstored

theorem WireName.labels_lt {n : WireName} {place : Nat} (hholds : Holds msg place n.bytes)
    (hfuel : msg.length < fuel) : n.labels.length < fuel := by
  have hpos := n.tail.bytes_pos
  have hlength := n.length_bytes
  have hle := hholds.le (by rintro hnil; rw [hnil] at hlength; simp at hlength; omega)
  have hlabels := length_labels_le n.labels
  omega

/-- A name that is read was readable. -/
theorem readDnsName_at {n : WireName} {text : Text} (hholds : Holds msg g.place n.bytes)
    (hat : At c g) (hsound : g.Sound) (h : readDnsName wrap16 msg fuel c = (.ok text, c')) :
    n.Readable g ∧ n.Is g text ∧ At c' (g.pass true n) := by
  obtain ⟨hshort, rest, hdrop⟩ := id hholds
  rw [WireName.bytes, List.append_assoc, ← hat.offset] at hdrop
  obtain ⟨hfuel, hlabels, htail⟩ := readDnsName_readable n.labels c c' fuel text hshort hdrop
    hat.stored h
  have hreadable : n.Readable g := ⟨hlabels, htail⟩
  obtain ⟨text', c'', hread, hmeans⟩ := readDnsName_ok hholds hat hsound hreadable hfuel
  rw [h] at hread
  cases hread
  exact ⟨hreadable, hmeans⟩

theorem WireName.Is.unique {n : WireName} {text text' : Text} (h : n.Is g text)
    (h' : n.Is g text') : text = text' := by
  obtain ⟨labels, hresolve, htext⟩ := h
  obtain ⟨labels', hresolve', htext'⟩ := h'
  rw [hresolve] at hresolve'
  cases hresolve'
  rw [htext] at htext'
  exact Option.some.inj htext'

theorem need_of_le {least : Nat} (h : least ≤ msg.length) (c : Cursor) :
    need msg least c = (.ok (), c) := by
  rw [need, if_neg (by omega)]
  rfl

theorem checkName_apply (type : Nat) (name : Text) (c : Cursor) :
    checkName type name c = if takesName type name then (.ok (), c) else (.error .name, c) := by
  rw [checkName]
  split <;> rfl

/-- A question behind its name. -/
theorem parseQuery_of_name {q : WireQuery} {text : Text} (hholds : Holds msg g.place q.bytes)
    (hat : At c' (g.pass true q.name)) (hname : readDnsName wrap16 msg fuel c = (.ok text, c')) :
    parseQuery wrap16 msg fuel c =
      if takesName q.type.value text then (.ok ⟨text, q.type, q.cls⟩, c'.move wrap16 4)
      else (.error .name, c') := by
  have hfields := hholds.right
  have hplace : g.place + q.name.bytes.length = c'.offset := hat.offset.symm
  rw [hplace] at hfields
  have hend := hfields.le (by simp [Word.bytes, ofNat])
  have htype : wordAt 2 msg c'.offset = q.type := hfields.left.wordAt
  have hcls : wordAt 2 msg (c'.offset + 2) = q.cls := by
    have hright := hfields.right
    rw [Word.length_bytes] at hright
    exact hright.wordAt
  simp only [List.length_append, Word.length_bytes] at hend
  rw [parseQuery, bind_of_ok hname, offset, get_bind, bind_of_ok (need_of_le hend c'), htype, hcls,
    bind_apply, checkName_apply]
  by_cases htakes : takesName q.type.value text
  · rw [if_pos htakes, if_pos htakes]
    rfl
  · rw [if_neg htakes, if_neg htakes]

theorem parseQuery_ok {q : WireQuery} (hholds : Holds msg g.place q.bytes) (hat : At c g)
    (hsound : g.Sound) (h : q.name.Taken q.type.value g) (hfuel : msg.length < fuel) :
    ∃ query c', parseQuery wrap16 msg fuel c = (.ok query, c') ∧ QueryMeans (g, q) query ∧
      At c' (g.query q) := by
  obtain ⟨text, c', hread, his, hat'⟩ := readDnsName_ok hholds.left hat hsound h.1
    (WireName.labels_lt hholds.left hfuel)
  have hquery := parseQuery_of_name hholds hat' hread
  rw [if_pos (h.2 text his)] at hquery
  have hend := hholds.le (by simp [WireQuery.bytes, Word.bytes, ofNat])
  refine ⟨_, _, hquery, ⟨his, rfl, rfl⟩, hat'.move ?_⟩
  have hshort := hholds.short
  simp only [WireQuery.bytes, List.length_append, Word.length_bytes] at hend
  rw [Ground.pass_place]
  omega

theorem parseQuery_at {q : WireQuery} {query : DNSQuery} (hholds : Holds msg g.place q.bytes)
    (hat : At c g) (hsound : g.Sound) (h : parseQuery wrap16 msg fuel c = (.ok query, c')) :
    q.name.Taken q.type.value g := by
  obtain ⟨text, c₁, hread, hrest⟩ := bind_eq_ok_iff.mp h
  obtain ⟨hreadable, his, hat'⟩ := readDnsName_at hholds.left hat hsound hread
  have hquery := parseQuery_of_name hholds hat' hread
  rw [h] at hquery
  split at hquery
  next htakes =>
    refine ⟨hreadable, fun text' his' => ?_⟩
    rw [← his.unique his']
    exact htakes
  next => cases hquery

theorem Ground.data_place (g : Ground) (r : WireRecord) :
    (r.data.foldl (segment (readsNames r.type.value)) g).place = g.place + r.dataBytes.length :=
  segments_place _ _ g

theorem At.stepped {r : WireRecord} (hat : At c g) (hreads : Ground.readsNames r.type.value = false)
    (hend : g.place + r.dataBytes.length < 65536) :
    At (c.move wrap16 r.dataBytes.length)
      (r.data.foldl (Ground.segment (Ground.readsNames r.type.value)) g) := by
  refine ⟨?_, ?_⟩
  · rw [Ground.data_place, Cursor.move, hat.offset, wrap16, Nat.mod_eq_of_lt hend]
  · rw [hreads, Ground.segments_met]
    exact hat.stored

/-- What reading some data comes to: it is read to its end and means what it says, or not. -/
structure ReadsData (msg : Bytes) (fuel : Nat) (g : Ground) (r : WireRecord) (c : Cursor) :
    Prop where
  ok : DataReadable g r → ∃ text c', parseData wrap16 msg fuel r.type.value r.dataBytes.length c =
    (.ok text, c') ∧ DataMeans g r text ∧
      At c' (r.data.foldl (Ground.segment (Ground.readsNames r.type.value)) g)
  readable : ∀ text c', parseData wrap16 msg fuel r.type.value r.dataBytes.length c =
    (.ok text, c') → c'.offset = g.place + r.dataBytes.length → DataReadable g r

theorem readsData_name {r : WireRecord} (htype : isNameType r.type.value = true)
    (hshaped : r.Shaped) (hholds : Holds msg g.place r.dataBytes) (hat : At c g)
    (hsound : g.Sound) (hfuel : msg.length < fuel) : ReadsData msg fuel g r c := by
  obtain ⟨n, hdata⟩ := hshaped.1 htype
  have hbytes : r.dataBytes = n.bytes := by
    rw [WireRecord.dataBytes, hdata, List.flatMap_singleton, Segment.bytes]
  have hreads : Ground.readsNames r.type.value = true := by rw [Ground.readsNames, htype]; rfl
  have hrun : parseData wrap16 msg fuel r.type.value r.dataBytes.length c =
      readDnsName wrap16 msg fuel c := by
    rw [parseData, offset, get_bind, if_pos htype]
  rw [hbytes] at hholds
  constructor
  · intro h
    rw [DataReadable, if_pos htype] at h
    obtain ⟨text, c', hread, his, hat'⟩ := readDnsName_ok hholds hat hsound (h n hdata)
      (WireName.labels_lt hholds hfuel)
    refine ⟨text, c', hrun.trans hread, ?_, ?_⟩
    · rw [DataMeans, if_pos htype]
      exact ⟨n, hdata, his⟩
    · rw [hdata, hreads]
      exact hat'
  · intro text c' hread _
    rw [DataReadable, if_pos htype]
    rw [hrun] at hread
    intro m hm
    rw [hdata] at hm
    cases hm
    exact (readDnsName_at hholds hat hsound hread).1

theorem readsNames_eq_false {type : Nat} (hname : isNameType type = false)
    (hsoa : type ≠ DNSTYPE_SOA) : Ground.readsNames type = false := by
  rw [Ground.readsNames, hname, Bool.false_or, decide_eq_false hsoa]

theorem readsData_a {r : WireRecord} (htype : r.type.value = DNSTYPE_A)
    (hholds : Holds msg g.place r.dataBytes) (hend : g.place + r.dataBytes.length ≤ msg.length)
    (hat : At c g) : ReadsData msg fuel g r c := by
  have hname : isNameType r.type.value = false := by rw [htype]; rfl
  have hreads := readsNames_eq_false hname (by rw [htype]; decide)
  have hshort := hholds.short
  have hrun : parseData wrap16 msg fuel r.type.value r.dataBytes.length c =
      if msg.length < c.offset + 4 then (.error .truncated, c)
      else (.ok (inetNtop4 (slice msg c.offset (c.offset + 4))).toList, c.move wrap16 4) := by
    rw [parseData, offset, get_bind, hname, if_neg Bool.false_ne_true, if_pos htype, need]
    split <;> rfl
  constructor
  · intro h
    rw [DataReadable, hname, if_neg Bool.false_ne_true, if_pos htype] at h
    have hslice := hholds.slice
    rw [h, ← hat.offset] at hslice
    rw [hat.offset, if_neg (by omega), ← hat.offset, hslice] at hrun
    refine ⟨_, _, hrun, ?_, ?_⟩
    · rw [DataMeans, hname, if_neg Bool.false_ne_true, if_pos htype]
    · have hstep := hat.stepped (r := r) hreads (by omega)
      rwa [h] at hstep
  · intro text c' hread hoffset
    rw [DataReadable, hname, if_neg Bool.false_ne_true, if_pos htype]
    rw [hrun] at hread
    split at hread
    · cases hread
    next hlong =>
      cases hread
      rw [Cursor.move, hat.offset, wrap16, Nat.mod_eq_of_lt (by rw [← hat.offset]; omega)] at hoffset
      dsimp only at hoffset
      omega

theorem readsData_aaaa {r : WireRecord} (htype : r.type.value = DNSTYPE_AAAA)
    (hholds : Holds msg g.place r.dataBytes) (hend : g.place + r.dataBytes.length ≤ msg.length)
    (hat : At c g) : ReadsData msg fuel g r c := by
  have hname : isNameType r.type.value = false := by rw [htype]; rfl
  have hreads := readsNames_eq_false hname (by rw [htype]; decide)
  have ha : r.type.value ≠ DNSTYPE_A := by rw [htype]; decide
  have hshort := hholds.short
  have hrun : parseData wrap16 msg fuel r.type.value r.dataBytes.length c =
      if (slice msg c.offset (c.offset + 16)).length = 16 then
        (.ok (inetNtop6 (slice msg c.offset (c.offset + 16))).toList, c.move wrap16 16)
      else (.error .address, c) := by
    rw [parseData, offset, get_bind, hname, if_neg Bool.false_ne_true, if_neg ha, if_pos htype]
    split <;> rfl
  constructor
  · intro h
    rw [DataReadable, hname, if_neg Bool.false_ne_true, if_neg ha, if_pos htype] at h
    have hslice := hholds.slice
    rw [h, ← hat.offset] at hslice
    rw [hslice, if_pos h] at hrun
    refine ⟨_, _, hrun, ?_, ?_⟩
    · rw [DataMeans, hname, if_neg Bool.false_ne_true, if_neg ha, if_pos htype]
    · have hstep := hat.stepped (r := r) hreads (by omega)
      rwa [h] at hstep
  · intro text c' hread hoffset
    rw [DataReadable, hname, if_neg Bool.false_ne_true, if_neg ha, if_pos htype]
    rw [hrun] at hread
    split at hread
    next hlong =>
      cases hread
      have hfits : c.offset + 16 ≤ msg.length := by
        rw [slice, List.length_drop, List.length_take] at hlong
        omega
      rw [Cursor.move, hat.offset, wrap16, Nat.mod_eq_of_lt (by rw [← hat.offset]; omega)] at hoffset
      dsimp only at hoffset
      omega
    · cases hread

theorem readsData_opaque {r : WireRecord} (hname : isNameType r.type.value = false)
    (ha : r.type.value ≠ DNSTYPE_A) (haaaa : r.type.value ≠ DNSTYPE_AAAA)
    (hsoa : r.type.value ≠ DNSTYPE_SOA) (hholds : Holds msg g.place r.dataBytes)
    (hend : g.place + r.dataBytes.length ≤ msg.length) (hat : At c g) :
    ReadsData msg fuel g r c := by
  have hreads := readsNames_eq_false hname hsoa
  have hshort := hholds.short
  have hslice := hholds.slice
  rw [← hat.offset] at hslice
  have hrun : parseData wrap16 msg fuel r.type.value r.dataBytes.length c =
      (Utf8.decode? r.dataBytes).elim (.error .undecodable, c)
        fun text => (.ok text, c.move wrap16 r.dataBytes.length) := by
    rw [parseData, offset, get_bind, hname, if_neg Bool.false_ne_true, if_neg ha, if_neg haaaa,
      if_neg hsoa, hslice, Reader.decode]
    cases Utf8.decode? r.dataBytes <;> rfl
  constructor
  · intro h
    rw [DataReadable, hname, if_neg Bool.false_ne_true, if_neg ha, if_neg haaaa, if_neg hsoa] at h
    obtain ⟨text, htext⟩ := Option.isSome_iff_exists.mp h
    rw [htext] at hrun
    refine ⟨_, _, hrun, ?_, hat.stepped hreads (by omega)⟩
    rw [DataMeans, hname, if_neg Bool.false_ne_true, if_neg ha, if_neg haaaa, if_neg hsoa]
    exact (Utf8.decode?_eq_some_iff.mp htext).symm
  · intro text c' hread hoffset
    rw [DataReadable, hname, if_neg Bool.false_ne_true, if_neg ha, if_neg haaaa, if_neg hsoa]
    cases htext : Utf8.decode? r.dataBytes with
    | none =>
      rw [hrun, htext] at hread
      cases hread
    | some text => rfl

theorem wordAt_numbers {place : Nat} {numbers : Bytes} (hholds : Holds msg place numbers)
    (hlength : numbers.length = 20) {i : Nat} (hi : i < 5) :
    (wordAt 4 msg (place + 4 * i)).value = numberAt numbers i := by
  obtain ⟨-, rest, hdrop⟩ := hholds
  have htake : (msg.drop (place + 4 * i)).take 4 = (numbers.drop (4 * i)).take 4 := by
    rw [← List.drop_drop, hdrop, List.drop_append_of_le_length (by omega),
      List.take_append_of_le_length (by rw [List.length_drop]; omega)]
  have hvalue := congrArg toNat htake
  exact hvalue

/-- The part of `parse_soa` behind the two names. -/
theorem soa_numbers {numbers : Bytes} {mtext rtext : Text} (hholds : Holds msg c.offset numbers)
    (hlength : numbers.length = 20) :
    ((do
      let o ← offset
      need msg (o + 20)
      advance wrap16 20
      pure (soaText mtext (mailbox rtext) (wordAt 4 msg o).value (wordAt 4 msg (o + 4)).value
        (wordAt 4 msg (o + 8)).value (wordAt 4 msg (o + 12)).value
        (wordAt 4 msg (o + 16)).value) : Reader Text)) c =
      (.ok (soaText mtext (mailbox rtext) (numberAt numbers 0) (numberAt numbers 1)
        (numberAt numbers 2) (numberAt numbers 3) (numberAt numbers 4)), c.move wrap16 20) := by
  have hend := hholds.le (by rintro rfl; cases hlength)
  rw [hlength] at hend
  have hnumber := fun (i : Nat) (hi : i < 5) => wordAt_numbers hholds hlength hi
  rw [offset, get_bind, bind_of_ok (need_of_le hend c), ← hnumber 0 (by decide),
    ← hnumber 1 (by decide), ← hnumber 2 (by decide), ← hnumber 3 (by decide),
    ← hnumber 4 (by decide)]
  rfl

theorem readsData_soa {r : WireRecord} (htype : r.type.value = DNSTYPE_SOA) (hshaped : r.Shaped)
    (hholds : Holds msg g.place r.dataBytes) (hend : g.place + r.dataBytes.length ≤ msg.length)
    (hat : At c g) (hsound : g.Sound) (hfuel : msg.length < fuel) : ReadsData msg fuel g r c := by
  obtain ⟨mname, rname, numbers, hdata, hlength⟩ := hshaped.2.1 htype
  have hbytes : r.dataBytes = mname.bytes ++ (rname.bytes ++ numbers) := by
    rw [WireRecord.dataBytes, hdata]
    simp [Segment.bytes]
  have hname : isNameType r.type.value = false := by rw [htype]; rfl
  have ha : r.type.value ≠ DNSTYPE_A := by rw [htype]; decide
  have haaaa : r.type.value ≠ DNSTYPE_AAAA := by rw [htype]; decide
  have hreads : Ground.readsNames r.type.value = true := by rw [htype]; rfl
  have hslice := hholds.slice
  rw [← hat.offset] at hslice
  have hfits : c.offset + r.dataBytes.length ≤ msg.length := by rw [hat.offset]; exact hend
  have hrun : parseData wrap16 msg fuel r.type.value r.dataBytes.length c =
      parseSoa wrap16 msg fuel r.dataBytes.length c := by
    rw [parseData, offset, get_bind, hname, if_neg Bool.false_ne_true, if_neg ha, if_neg haaaa,
      if_pos htype]
  have hshort := hholds.short
  have hnames : Holds msg g.place (mname.bytes ++ (rname.bytes ++ numbers)) := hbytes ▸ hholds
  constructor
  · intro h
    rw [DataReadable, hname, if_neg Bool.false_ne_true, if_neg ha, if_neg haaaa, if_pos htype] at h
    obtain ⟨hcount, hreadable⟩ := h
    obtain ⟨hmname, hrname⟩ := hreadable mname rname numbers hdata
    obtain ⟨mtext, c₁, hmread, hmis, hat₁⟩ := readDnsName_ok hnames.left hat hsound hmname
      (WireName.labels_lt hnames.left hfuel)
    obtain ⟨rtext, c₂, hrread, hris, hat₂⟩ := readDnsName_ok (hnames.right).left hat₁
      (hsound.pass true mname) hrname (WireName.labels_lt (hnames.right).left hfuel)
    have hrest : Holds msg c₂.offset numbers := by
      rw [hat₂.offset]
      exact hnames.right.right
    have hlast := hrest.le (by rintro rfl; cases hlength)
    refine ⟨soaText mtext (mailbox rtext) (numberAt numbers 0) (numberAt numbers 1)
      (numberAt numbers 2) (numberAt numbers 3) (numberAt numbers 4), c₂.move wrap16 20,
      ?_, ?_, ?_⟩
    · rw [hrun, parseSoa, offset, get_bind, hslice, if_pos ⟨hcount, hfits⟩, bind_of_ok hmread,
        bind_of_ok hrread]
      exact soa_numbers hrest hlength
    · rw [DataMeans, hname, if_neg Bool.false_ne_true, if_neg ha, if_neg haaaa, if_pos htype]
      exact ⟨mname, rname, numbers, mtext, rtext, hdata, hmis, hris, rfl⟩
    · rw [hdata, hreads]
      rw [hlength, hat₂.offset] at hlast
      have hmoved := hat₂.move (n := 20) (by omega)
      rw [← hlength] at hmoved ⊢
      exact hmoved
  · intro text c' hread hoffset
    rw [DataReadable, hname, if_neg Bool.false_ne_true, if_neg ha, if_neg haaaa, if_pos htype]
    rw [hrun, parseSoa, offset, get_bind, hslice] at hread
    by_cases hbinary : r.dataBytes.count 0x20 ≤ 7 ∧ c.offset + r.dataBytes.length ≤ msg.length
    · rw [if_pos hbinary] at hread
      obtain ⟨mtext, c₁, hmread, hread⟩ := bind_eq_ok_iff.mp hread
      obtain ⟨rtext, c₂, hrread, -⟩ := bind_eq_ok_iff.mp hread
      refine ⟨hbinary.1, ?_⟩
      rintro m r' num heq
      rw [hdata] at heq
      cases heq
      obtain ⟨hmname, -, hat₁⟩ := readDnsName_at hnames.left hat hsound hmread
      exact ⟨hmname, (readDnsName_at hnames.right.left hat₁ (hsound.pass true mname) hrread).1⟩
    · rw [if_neg hbinary] at hread
      have hlong : 20 ≤ r.dataBytes.length := by
        rw [hbytes, List.length_append, List.length_append]
        omega
      -- A SOA record that counts as printed is not stepped over.
      have hstays : c'.offset = c.offset := by
        split at hread
        · rw [Reader.decode] at hread
          cases hdecode : Utf8.decode? msg with
          | none =>
            rw [hdecode] at hread
            cases hread
          | some printed =>
            rw [hdecode] at hread
            cases hread
            rfl
        · cases hread
      rw [hstays, hat.offset] at hoffset
      omega

theorem readsData {r : WireRecord} (hshaped : r.Shaped) (hholds : Holds msg g.place r.dataBytes)
    (hend : g.place + r.dataBytes.length ≤ msg.length) (hat : At c g) (hsound : g.Sound)
    (hfuel : msg.length < fuel) : ReadsData msg fuel g r c := by
  cases hname : isNameType r.type.value with
  | true => exact readsData_name hname hshaped hholds hat hsound hfuel
  | false =>
    by_cases ha : r.type.value = DNSTYPE_A
    · exact readsData_a ha hholds hend hat
    by_cases haaaa : r.type.value = DNSTYPE_AAAA
    · exact readsData_aaaa haaaa hholds hend hat
    by_cases hsoa : r.type.value = DNSTYPE_SOA
    · exact readsData_soa hsoa hshaped hholds hend hat hsound hfuel
    · exact readsData_opaque hname ha haaaa hsoa hholds hend hat

/-- The length of some data as it stands in a record. -/
def sizeWord (r : WireRecord) (h : r.dataBytes.length < 65536) : Word 2 := ⟨r.dataBytes.length, h⟩

/-- A record behind its owner. -/
theorem parseResource_of_name {r : WireRecord} {text : Text} (hsize : r.dataBytes.length < 65536)
    (hholds : Holds msg g.place r.bytes) (hat : At c' (g.pass true r.owner))
    (hname : readDnsName wrap16 msg fuel c = (.ok text, c')) :
    parseResource wrap16 msg fuel c =
      ((do
        let data ← parseData wrap16 msg fuel r.type.value r.dataBytes.length
        checkName r.type.value text
        pure ⟨text, r.type, r.cls, r.ttl, sizeWord r hsize, data⟩ : Reader DNSResource))
          (c'.move wrap16 10) := by
  have hfixed : Holds msg c'.offset r.fixed := by
    have hplace : g.place + r.owner.bytes.length = c'.offset := hat.offset.symm
    rw [← hplace]
    exact hholds.right.left
  have hend := hfixed.le (by simp [WireRecord.fixed, Word.bytes, ofNat])
  have hlength : r.fixed.length = 10 := by simp [WireRecord.fixed]
  rw [hlength] at hend
  have hcls := hfixed.right
  have httl := hcls.right
  have hlen := httl.right
  rw [Word.length_bytes] at hcls httl hlen
  rw [Word.length_bytes] at httl hlen
  rw [Word.length_bytes] at hlen
  have h₁ : wordAt 2 msg c'.offset = r.type := hfixed.left.wordAt
  have h₂ : wordAt 2 msg (c'.offset + 2) = r.cls := hcls.left.wordAt
  have h₃ : wordAt 4 msg (c'.offset + 4) = r.ttl := httl.left.wordAt
  have h₄ : wordAt 2 msg (c'.offset + 8) = sizeWord r hsize :=
    Holds.wordAt (w := sizeWord r hsize) hlen
  rw [parseResource, bind_of_ok hname, offset, get_bind, bind_of_ok (need_of_le hend c'), h₁, h₂,
    h₃, h₄]
  rfl

theorem Ground.dataStart_place (g : Ground) (r : WireRecord) :
    (g.dataStart r).place = g.place + r.owner.bytes.length + 10 := rfl

theorem Ground.record_place (g : Ground) (r : WireRecord) :
    (g.record r).place = (g.dataStart r).place + r.dataBytes.length :=
  (g.dataStart r).data_place r

/-- Where the data of a record stands. -/
theorem Holds.data {r : WireRecord} (hholds : Holds msg g.place r.bytes) :
    Holds msg (g.dataStart r).place r.dataBytes ∧
      (g.dataStart r).place + r.dataBytes.length ≤ msg.length := by
  have hlength : r.fixed.length = 10 := by simp [WireRecord.fixed]
  have hdata := hholds.right.right
  have hend := hholds.le (by
    intro hnil
    have hzero := congrArg List.length hnil
    simp [WireRecord.bytes, hlength] at hzero)
  rw [hlength] at hdata
  refine ⟨hdata, ?_⟩
  rw [WireRecord.bytes, List.length_append, List.length_append, hlength] at hend
  rw [Ground.dataStart_place]
  omega

theorem parseResource_ok {r : WireRecord} (hholds : Holds msg g.place r.bytes) (hat : At c g)
    (hsound : g.Sound) (hshaped : r.Shaped)
    (h : r.owner.Taken r.type.value g ∧ DataReadable (g.dataStart r) r)
    (hfuel : msg.length < fuel) :
    ∃ res c', parseResource wrap16 msg fuel c = (.ok res, c') ∧ RecordMeans (g, r) res ∧
      At c' (g.record r) := by
  obtain ⟨hdata, hend⟩ := hholds.data
  have hshort := hholds.short
  obtain ⟨text, c₁, hread, his, hat₁⟩ := readDnsName_ok hholds.left hat hsound h.1.1
    (WireName.labels_lt hholds.left hfuel)
  have hrun := parseResource_of_name (by omega) hholds hat₁ hread
  have hstart : At (c₁.move wrap16 10) (g.dataStart r) := by
    apply hat₁.move
    rw [Ground.dataStart_place] at hend
    rw [Ground.pass_place]
    omega
  obtain ⟨data, c₂, hdataread, hmeans, hat₂⟩ :=
    (readsData hshaped hdata hend hstart (hsound.dataStart r) hfuel).ok h.2
  have hcheck : checkName r.type.value text c₂ = (.ok (), c₂) := by
    rw [checkName_apply, if_pos (h.1.2 text his)]
  rw [bind_of_ok hdataread, bind_of_ok hcheck] at hrun
  exact ⟨_, c₂, hrun, ⟨his, rfl, rfl, rfl, rfl, hmeans⟩, hat₂⟩

/-- A record that is read, and to its end, was readable. -/
theorem parseResource_at {r : WireRecord} {res : DNSResource} (hholds : Holds msg g.place r.bytes)
    (hat : At c g) (hsound : g.Sound) (hshaped : r.Shaped) (hfuel : msg.length < fuel)
    (h : parseResource wrap16 msg fuel c = (.ok res, c'))
    (hoffset : c'.offset = (g.record r).place) :
    r.owner.Taken r.type.value g ∧ DataReadable (g.dataStart r) r := by
  obtain ⟨hdata, hend⟩ := hholds.data
  have hshort := hholds.short
  obtain ⟨text, c₁, hread, -⟩ := bind_eq_ok_iff.mp h
  obtain ⟨hreadable, his, hat₁⟩ := readDnsName_at hholds.left hat hsound hread
  rw [parseResource_of_name (by omega) hholds hat₁ hread] at h
  have hstart : At (c₁.move wrap16 10) (g.dataStart r) := by
    apply hat₁.move
    rw [Ground.dataStart_place] at hend
    rw [Ground.pass_place]
    omega
  obtain ⟨data, c₂, hdataread, h⟩ := bind_eq_ok_iff.mp h
  obtain ⟨⟨⟩, c₃, hcheck, h⟩ := bind_eq_ok_iff.mp h
  rw [checkName_apply] at hcheck
  by_cases htakes : takesName r.type.value text
  · rw [if_pos htakes] at hcheck
    cases hcheck
    cases h
    refine ⟨⟨hreadable, fun text' his' => ?_⟩, ?_⟩
    · rw [← his.unique his']
      exact htakes
    · refine (readsData hshaped hdata hend hstart (hsound.dataStart r) hfuel).readable _ _
        hdataread ?_
      rw [hoffset, Ground.record_place]
  · rw [if_neg htakes] at hcheck
    cases hcheck

/-- A parser of items, on the ground each of them starts on: it reads the ones that are fit,
and what it reads, to its end if that is asked for, was fit. -/
structure Stepwise {α β : Type} (msg : Bytes) (next : Ground → α → Ground) (bytes : α → Bytes)
    (Allowed : α → Prop) (Fit : Ground → α → Prop) (Means : Ground × α → β → Prop) (strict : Bool)
    (x : Reader β) : Prop where
  place : ∀ g a, (next g a).place = g.place + (bytes a).length
  sound : ∀ {g : Ground}, g.Sound → ∀ a, (next g a).Sound
  ok : ∀ {g a c}, Holds msg g.place (bytes a) → At c g → g.Sound → Allowed a → Fit g a →
    ∃ b c', x c = (.ok b, c') ∧ Means (g, a) b ∧ At c' (next g a)
  fit : ∀ {g a c b c'}, Holds msg g.place (bytes a) → At c g → g.Sound → Allowed a →
    x c = (.ok b, c') → (strict = true → c'.offset = (next g a).place) → Fit g a

namespace Stepwise

variable {α β : Type} {next : Ground → α → Ground} {bytes : α → Bytes}
  {Allowed : α → Prop} {Fit : Ground → α → Prop} {Means : Ground × α → β → Prop} {strict : Bool}
  {x : Reader β} (hx : Stepwise msg next bytes Allowed Fit Means strict x)

include hx

theorem place_foldl (items : List α) (g : Ground) :
    (items.foldl next g).place = g.place + (items.flatMap bytes).length := by
  induction items generalizing g with
  | nil => rfl
  | cons a rest ih =>
    rw [List.foldl_cons, ih, hx.place, List.flatMap_cons, List.length_append, Nat.add_assoc]

theorem sound_foldl (items : List α) (hsound : g.Sound) : (items.foldl next g).Sound := by
  induction items generalizing g with
  | nil => exact hsound
  | cons a rest ih => exact ih (hx.sound hsound a)

theorem times_ok (items : List α) (hholds : Holds msg g.place (items.flatMap bytes)) (hat : At c g)
    (hsound : g.Sound) (hall : ∀ p ∈ before next g items, Allowed p.2 ∧ Fit p.1 p.2) :
    ∃ values c', x.times items.length c = (.ok values, c') ∧
      List.Forall₂ Means (before next g items) values ∧ At c' (items.foldl next g) := by
  induction items generalizing g c with
  | nil => exact ⟨[], c, rfl, List.Forall₂.nil, hat⟩
  | cons a rest ih =>
    rw [List.flatMap_cons] at hholds
    obtain ⟨hallowed, hfit⟩ := hall (g, a) List.mem_cons_self
    obtain ⟨b, c₁, hrun, hmeans, hat₁⟩ := hx.ok hholds.left hat hsound hallowed hfit
    have hrest := hholds.right
    rw [← hx.place] at hrest
    obtain ⟨values, c', htimes, hvalues, hat'⟩ := ih hrest hat₁ (hx.sound hsound a)
      fun p hp => hall p (List.mem_cons_of_mem _ hp)
    exact ⟨b :: values, c', times_succ_eq_ok_iff.mpr ⟨b, values, c₁, hrun, htimes, rfl⟩,
      List.Forall₂.cons hmeans hvalues, hat'⟩

/-- On the way, the parser is behind each item in turn. -/
theorem times_offset (items : List α) (hholds : Holds msg g.place (items.flatMap bytes))
    (hat : At c g) (hsound : g.Sound)
    (hall : ∀ p ∈ before next g items, Allowed p.2 ∧ Fit p.1 p.2) (k : Nat)
    (hk : k ≤ items.length) : (x.times k c).2.offset = ((items.take k).foldl next g).place := by
  induction k generalizing g c items with
  | zero => exact hat.offset
  | succ k ih =>
    cases items with
    | nil => exact absurd hk (by simp)
    | cons a rest =>
      rw [List.flatMap_cons] at hholds
      obtain ⟨hallowed, hfit⟩ := hall (g, a) List.mem_cons_self
      obtain ⟨b, c₁, hrun, -, hat₁⟩ := hx.ok hholds.left hat hsound hallowed hfit
      have hrest := hholds.right
      rw [← hx.place] at hrest
      have hoffset := ih rest hrest hat₁ (hx.sound hsound a)
        (fun p hp => hall p (List.mem_cons_of_mem _ hp)) (by simpa using hk)
      rw [times, bind_of_ok hrun, List.take_succ_cons, List.foldl_cons, ← hoffset, bind_apply]
      rcases x.times k c₁ with ⟨e | values, c'⟩ <;> rfl

theorem times_fit (items : List α) {values : List β}
    (hholds : Holds msg g.place (items.flatMap bytes)) (hat : At c g) (hsound : g.Sound)
    (hallowed : ∀ p ∈ before next g items, Allowed p.2)
    (hrun : x.times items.length c = (.ok values, c'))
    (hoffset : strict = true → ∀ k ≤ items.length,
      (x.times k c).2.offset = ((items.take k).foldl next g).place) :
    ∀ p ∈ before next g items, Fit p.1 p.2 := by
  induction items generalizing g c values with
  | nil => simp [before]
  | cons a rest ih =>
    rw [List.flatMap_cons] at hholds
    obtain ⟨b, others, c₁, hfirst, hothers, rfl⟩ := times_succ_eq_ok_iff.mp hrun
    have hallow := hallowed (g, a) List.mem_cons_self
    have hfit : Fit g a := by
      refine hx.fit hholds.left hat hsound hallow hfirst fun hstrict => ?_
      have hone := hoffset hstrict 1 (by simp)
      rwa [times, bind_of_ok hfirst] at hone
    obtain ⟨b', c₂, hrun', -, hat₁⟩ := hx.ok hholds.left hat hsound hallow hfit
    rw [hfirst] at hrun'
    cases hrun'
    have hrest := hholds.right
    rw [← hx.place] at hrest
    have htail := ih hrest hat₁ (hx.sound hsound a)
      (fun p hp => hallowed p (List.mem_cons_of_mem _ hp)) hothers fun hstrict k hk => by
        have hnext := hoffset hstrict (k + 1) (by simpa using hk)
        rw [times, bind_of_ok hfirst, List.take_succ_cons, List.foldl_cons] at hnext
        rw [← hnext, bind_apply]
        rcases x.times k c₁ with ⟨e | values, c'⟩ <;> rfl
    intro p hp
    rcases List.mem_cons.mp hp with rfl | hp
    · exact hfit
    · exact htail p hp

end Stepwise

theorem stepwise_query (hfuel : msg.length < fuel) :
    Stepwise msg Ground.query WireQuery.bytes (fun _ => True)
      (fun g q => q.name.Taken q.type.value g) QueryMeans false (parseQuery wrap16 msg fuel) where
  place g q := by
    simp only [Ground.query, Ground.skip, Ground.pass_place, WireQuery.bytes, List.length_append,
      Word.length_bytes]
    omega
  sound h q := h.query q
  ok hholds hat hsound _ hfit := parseQuery_ok hholds hat hsound hfit hfuel
  fit hholds hat hsound _ hrun _ := parseQuery_at hholds hat hsound hrun

theorem stepwise_record (hfuel : msg.length < fuel) :
    Stepwise msg Ground.record WireRecord.bytes WireRecord.Shaped
      (fun g r => r.owner.Taken r.type.value g ∧ DataReadable (g.dataStart r) r) RecordMeans true
      (parseResource wrap16 msg fuel) where
  place g r := by
    have hlength : r.fixed.length = 10 := by simp [WireRecord.fixed]
    rw [Ground.record_place, Ground.dataStart_place, WireRecord.bytes, List.length_append,
      List.length_append, hlength]
    omega
  sound h r := h.record r
  ok hholds hat hsound hallowed hfit := parseResource_ok hholds hat hsound hallowed hfit hfuel
  fit hholds hat hsound hallowed hrun hoffset :=
    parseResource_at hholds hat hsound hallowed hfuel hrun (hoffset rfl)

theorem length_le_flatMap {α : Type} {bytes : α → Bytes} (items : List α)
    (h : ∀ a, bytes a ≠ []) : items.length ≤ (items.flatMap bytes).length := by
  induction items with
  | nil => exact Nat.le_refl 0
  | cons a rest ih =>
    have hpos := List.length_pos_iff.mpr (h a)
    rw [List.flatMap_cons, List.length_append, List.length_cons]
    omega

theorem WireQuery.bytes_ne_nil (q : WireQuery) : q.bytes ≠ [] := by
  simp [WireQuery.bytes, Word.bytes, ofNat]

theorem WireRecord.bytes_ne_nil (r : WireRecord) : r.bytes ≠ [] := by
  simp [WireRecord.bytes, WireRecord.fixed, Word.bytes, ofNat]

namespace WireMessage

variable {m : WireMessage}

theorem length_header (m : WireMessage) : m.header.length = 12 := by simp [header]

theorem holds (hshort : m.bytes.length < 65536) : Holds m.bytes 0 m.bytes := ⟨hshort, [], by simp⟩

theorem holds_queries (hshort : m.bytes.length < 65536) :
    Holds m.bytes 12 (m.queries.flatMap WireQuery.bytes) := by
  have hbody := (holds hshort).right
  rw [length_header] at hbody
  exact hbody.left

theorem holds_records (hshort : m.bytes.length < 65536) :
    Holds m.bytes m.answered.place (m.records.flatMap WireRecord.bytes) := by
  have hbody := (holds hshort).right.right
  rw [length_header] at hbody
  rw [answered, (stepwise_query (Nat.lt_succ_self m.bytes.length)).place_foldl]
  exact hbody

theorem length_records (m : WireMessage) :
    m.records.length = m.answers.length + (m.authority.length + m.ad.length) := by
  rw [records, List.length_append, List.length_append]

/-- What the parser reads from the header. -/
theorem header_words (hshort : m.bytes.length < 65536) :
    wordAt 2 m.bytes 0 = m.ident ∧ wordAt 2 m.bytes 2 = m.flags ∧
      (wordAt 2 m.bytes 4).value = m.queries.length ∧
      (wordAt 2 m.bytes 6).value = m.answers.length ∧
      (wordAt 2 m.bytes 8).value = m.authority.length ∧
      (wordAt 2 m.bytes 10).value = m.ad.length := by
  have hqueries := length_le_flatMap m.queries WireQuery.bytes_ne_nil
  have hrecords := length_le_flatMap m.records WireRecord.bytes_ne_nil
  have hlength : m.bytes.length = 12 + ((m.queries.flatMap WireQuery.bytes).length +
      (m.records.flatMap WireRecord.bytes).length) := by
    rw [bytes, List.length_append, List.length_append, length_header]
  have hparts := m.length_records
  have hident := (holds hshort).left
  have hflags := hident.right
  have hquery := hflags.right
  have hanswer := hquery.right
  have hauth := hanswer.right
  have had := hauth.right
  rw [Word.length_bytes] at hflags hquery hanswer hauth had
  rw [Word.length_bytes] at hquery hanswer hauth had
  rw [BigEndian.length_ofNat] at hanswer hauth had
  rw [BigEndian.length_ofNat] at hauth had
  rw [BigEndian.length_ofNat] at had
  have hcount : ∀ {place n : Nat}, n < 65536 → Holds m.bytes place (ofNat 2 n) →
      (wordAt 2 m.bytes place).value = n := by
    rintro place n hn ⟨-, rest, hdrop⟩
    exact wordAt_ofNat hn hdrop
  exact ⟨hident.left.wordAt, hflags.left.wordAt, hcount (by omega) hquery.left,
    hcount (by omega) hanswer.left, hcount (by omega) hauth.left, hcount (by omega) had⟩

theorem parseMessage_eq (hshort : m.bytes.length < 65536) (fuel : Nat) :
    parseMessage wrap16 m.bytes fuel = parseSections wrap16 m.bytes fuel ⟨12, Dict.empty, []⟩ := by
  have hlength : 12 ≤ m.bytes.length := by
    rw [bytes, List.length_append, length_header]
    omega
  rw [parseMessage, if_neg (by omega)]

/-- The sections of the records, one behind the other. -/
theorem sections_ok (hshort : m.bytes.length < 65536) {fuel : Nat} {dns : DNS} {c : Cursor}
    (h : parseSections wrap16 m.bytes fuel ⟨12, Dict.empty, []⟩ = (.ok dns, c)) :
    ∃ c₁, (parseQuery wrap16 m.bytes fuel).times m.queries.length ⟨12, Dict.empty, []⟩ =
        (.ok dns.queries, c₁) ∧
      (parseResource wrap16 m.bytes fuel).times m.records.length c₁ =
        (.ok (dns.answers ++ (dns.authority ++ dns.ad)), c) := by
  obtain ⟨-, -, hqueries, hanswers, hauth, had⟩ := header_words hshort
  rw [parseSections, hqueries, hanswers, hauth, had] at h
  obtain ⟨queries, c₁, h₁, h⟩ := bind_eq_ok_iff.mp h
  obtain ⟨answers, c₂, h₂, h⟩ := bind_eq_ok_iff.mp h
  obtain ⟨authority, c₃, h₃, h⟩ := bind_eq_ok_iff.mp h
  obtain ⟨ad, c₄, h₄, h⟩ := bind_eq_ok_iff.mp h
  cases h
  refine ⟨c₁, h₁, ?_⟩
  rw [length_records]
  exact times_add_eq_ok_iff.mpr ⟨answers, authority ++ ad, c₂, h₂,
    times_add_eq_ok_iff.mpr ⟨authority, ad, c₃, h₃, h₄, rfl⟩, rfl⟩

/-- A readable message is understood. -/
theorem Readable.understood (h : m.Readable) (hshort : m.bytes.length < 65536)
    (hshaped : ∀ p ∈ m.recordGrounds, p.2.Shaped) : m.Understood := by
  have hfuel := Nat.lt_succ_self m.bytes.length
  have hq := stepwise_query hfuel
  have hr := stepwise_record hfuel
  have hgrounds : ∀ p ∈ m.queryGrounds, True ∧ p.2.name.Taken p.2.type.value p.1 :=
    fun p hp => ⟨trivial, h.queries p hp⟩
  have hrecords : ∀ p ∈ m.recordGrounds, p.2.Shaped ∧
      (p.2.owner.Taken p.2.type.value p.1 ∧ DataReadable (p.1.dataStart p.2) p.2) :=
    fun p hp => ⟨hshaped p hp, h.records p hp⟩
  obtain ⟨queries, c₁, hqueries, hqmeans, hat₁⟩ := hq.times_ok m.queries (holds_queries hshort)
    at_start Ground.start_sound hgrounds
  have hsound₁ : m.answered.Sound := hq.sound_foldl m.queries Ground.start_sound
  obtain ⟨all, c₂, hall, hrmeans, -⟩ := hr.times_ok m.records (holds_records hshort) hat₁ hsound₁
    hrecords
  have hsplit := hall
  rw [length_records] at hsplit
  obtain ⟨answers, others, c₃, hanswers, hothers, rfl⟩ := times_add_eq_ok_iff.mp hsplit
  obtain ⟨authority, ad, c₄, hauthority, had, rfl⟩ := times_add_eq_ok_iff.mp hothers
  obtain ⟨hident, hflags, hqc, hanc, hauc, hadc⟩ := header_words hshort
  refine ⟨m.bytes.length + 1, ⟨⟨m.ident, m.flags, wordAt 2 m.bytes 4, wordAt 2 m.bytes 6,
    wordAt 2 m.bytes 8, wordAt 2 m.bytes 10, queries, answers, authority, ad⟩, ?_,
    ⟨rfl, rfl, hqc, hanc, hauc, hadc, hqmeans,
      ⟨length_of_times hanswers, length_of_times hauthority⟩, hrmeans⟩⟩, ?_⟩
  · rw [parseMessage_eq hshort, parseSections, hqc, hanc, hauc, hadc, bind_of_ok hqueries,
      bind_of_ok hanswers, bind_of_ok hauthority, bind_of_ok had, hident, hflags]
    rfl
  · intro k hk
    rw [offsetAfter, bind_of_ok hqueries]
    exact hr.times_offset m.records (holds_records hshort) hat₁ hsound₁ hrecords k hk

/-- More fuel leaves the parser at the same places. -/
theorem offsetAfter_fuel (hshort : m.bytes.length < 65536) {fuel : Nat} {dns : DNS} {c : Cursor}
    (h : parseSections wrap16 m.bytes fuel ⟨12, Dict.empty, []⟩ = (.ok dns, c)) (more : Nat)
    {k : Nat} (hk : k ≤ m.records.length) :
    offsetAfter m.bytes (fuel + more) m.queries.length k =
      offsetAfter m.bytes fuel m.queries.length k := by
  obtain ⟨c₁, hqueries, hrecords⟩ := sections_ok hshort h
  obtain ⟨rest, hrest⟩ := Nat.exists_eq_add_of_le hk
  rw [hrest] at hrecords
  obtain ⟨front, back, c₂, hfront, -, -⟩ := times_add_eq_ok_iff.mp hrecords
  have hR := parallel_extends wrap16
  have hname := hR.name (extends_raise DnsStop.unfinished (readDnsName wrap16 m.bytes more)) fuel
  have hsame := hR.bind (hR.toCongruent.times (hR.query hname) m.queries.length)
    (fun _ => hR.toCongruent.times (hR.resource hname) k) ⟨12, Dict.empty, []⟩ (by
      rw [bind_of_ok hqueries, hfront]
      exact fun heq => by cases heq)
  rw [offsetAfter, offsetAfter]
  exact congrArg (fun run => run.2.offset) hsame

/-- A message that is understood is readable. -/
theorem Understood.readable (h : m.Understood) (hm : m.WellFormed) : m.Readable := by
  have hshort := hm.size
  obtain ⟨fuel, ⟨dns, hparse, -⟩, hoffsets⟩ := h
  obtain ⟨c, hrun⟩ : ∃ c, parseMessage wrap16 m.bytes fuel = (.ok dns, c) := ⟨_, Prod.ext hparse rfl⟩
  rw [parseMessage_eq hshort] at hrun
  have hmore := parseSections_fuel (m.bytes.length + 1) (by rw [hrun]; exact fun heq => by cases heq)
  obtain ⟨c₁, hqueries, hrecords⟩ := sections_ok hshort (hmore.trans hrun)
  have hfuel : m.bytes.length < fuel + (m.bytes.length + 1) := by omega
  have hq := stepwise_query hfuel
  have hr := stepwise_record hfuel
  have hqfit := hq.times_fit m.queries (holds_queries hshort) at_start Ground.start_sound
    (fun _ _ => trivial) hqueries (fun hstrict => by cases hstrict)
  obtain ⟨values, c₁', hqueries', -, hat₁⟩ := hq.times_ok m.queries (holds_queries hshort)
    at_start Ground.start_sound fun p hp => ⟨trivial, hqfit p hp⟩
  rw [hqueries] at hqueries'
  cases hqueries'
  refine ⟨hqfit, hr.times_fit m.records (holds_records hshort) hat₁
    (hq.sound_foldl m.queries Ground.start_sound) (fun p hp => (hm.records p hp).2.1) hrecords ?_⟩
  intro _ k hk
  have hoffset := (offsetAfter_fuel hshort hrun (m.bytes.length + 1) hk).trans (hoffsets k hk)
  rwa [offsetAfter, bind_of_ok hqueries] at hoffset

/-- Of the well-formed messages, the parser understands exactly the ones it can read. -/
theorem understood_iff (m : WireMessage) (hm : m.WellFormed) : m.Understood ↔ m.Readable :=
  ⟨fun h => h.readable hm, fun h => h.understood hm.size fun p hp => (hm.records p hp).2.1⟩

/-- The address of a host. -/
def address (owner : WireName) : WireRecord :=
  ⟨owner, ⟨1, by decide⟩, ⟨1, by decide⟩, ⟨60, by decide⟩, [.raw [192, 0, 2, 1]]⟩

theorem address_allowed {owner : WireName} {g : Ground} (h : owner.Allowed g) :
    (address owner).Allowed g := by
  refine ⟨h, ⟨fun hname => ?_, fun hsoa => ?_, fun _ _ => rfl⟩, fun n hn => ?_, trivial⟩
  · exact absurd hname (show ¬ isNameType 1 = true by decide)
  · exact absurd hsoa (show ¬ 1 = DNSTYPE_SOA by decide)
  · cases hn

/-- A host, asked for and answered with a pointer to the question. -/
def answer : WireMessage :=
  ⟨⟨1, by decide⟩, ⟨0x8180, by decide⟩,
    [⟨⟨[⟨[0x61], by decide⟩], .root⟩, ⟨1, by decide⟩, ⟨1, by decide⟩⟩],
    [address ⟨[], .pointer 12 (by decide)⟩], [], []⟩

theorem answer_wellFormed : answer.WellFormed := by
  refine ⟨by decide, ?_, ?_⟩
  · simp only [queryGrounds, before, answer, List.mem_singleton]
    rintro _ rfl
    exact ⟨_, rfl, by decide⟩
  · simp only [recordGrounds, before, answer, records, List.append_nil, List.mem_singleton]
    rintro _ rfl
    exact address_allowed ⟨_, rfl, by decide⟩

theorem understood_answer : answer.Understood := by
  refine (understood_iff answer answer_wellFormed).mpr ⟨?_, ?_⟩
  · simp only [queryGrounds, before, answer, List.mem_singleton]
    rintro _ rfl
    refine ⟨⟨by decide +kernel, rfl⟩, ?_⟩
    rintro text ⟨labels, hlabels, htext⟩
    cases hlabels
    have ha : text = ['a'] := Option.some.inj (htext.symm.trans (by decide +kernel))
    rw [ha]
    decide +kernel
  · simp only [recordGrounds, before, answer, records, List.append_nil, List.mem_singleton]
    rintro _ rfl
    refine ⟨⟨⟨rfl, rfl⟩, ?_⟩, rfl⟩
    rintro text ⟨labels, hlabels, htext⟩
    cases hlabels
    have ha : text = ['a'] := Option.some.inj (htext.symm.trans (by decide +kernel))
    rw [ha]
    decide +kernel

/-- The address of every host of a domain. -/
def wildcard : WireMessage :=
  ⟨⟨1, by decide⟩, ⟨0x8180, by decide⟩, [],
    [address ⟨[⟨[0x2a], by decide⟩, ⟨[0x61], by decide⟩], .root⟩], [], []⟩

/-- A wildcard owner is legal, and refused. -/
theorem not_understood : ¬ ∀ m : WireMessage, m.WellFormed → m.Understood := by
  intro h
  have hwildcard : wildcard.WellFormed := by
    refine ⟨by decide, by simp [queryGrounds, before, wildcard], ?_⟩
    simp only [recordGrounds, before, wildcard, records, List.append_nil, List.mem_singleton]
    rintro _ rfl
    exact address_allowed ⟨_, rfl, by decide⟩
  obtain ⟨fuel, ⟨dns, hparse, -⟩, -⟩ := h wildcard hwildcard
  have hraised : (parseMessage wrap16 wildcard.bytes 3).1 = .error .name := by decide +kernel
  have hmore : parseMessage wrap16 wildcard.bytes (3 + fuel) =
      parseMessage wrap16 wildcard.bytes 3 :=
    parseMessage_fuel fuel (by rw [hraised]; exact fun heq => by cases heq)
  have hless := parseMessage_fuel 3 (by rw [hparse]; exact fun heq => by cases heq)
  rw [Nat.add_comm, hmore] at hless
  rw [← hless, hraised] at hparse
  cases hparse

end WireMessage

end Packets.Protos
