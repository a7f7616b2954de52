/-
What the LSA walks make of the bodies of OSPF messages (`core/inetpkt.pyx`).
-/
import Packets.Inet.OspfPackets

namespace Packets.Inet

open BigEndian (ofNat readInt takeBytes readInt_ofNat readInt_sound takeBytes_sound takeBytes_of_length length_ofNat)
open Records (readAll)

/-- An LSA header, whose length is that of the whole LSA. -/
structure LsaHeader (v3 : Bool) where
  age : Nat
  options : Nat
  type : Nat
  id : Bytes
  advrouter : Bytes
  seqnum : Nat
  chksum : Nat
  length : Nat
  age_fits : age < 256 ^ 2
  options_fits : options < if v3 then 1 else 256 ^ 1
  type_fits : type < if v3 then 256 ^ 2 else 256 ^ 1
  id_size : id.length = 4
  advrouter_size : advrouter.length = 4
  seqnum_fits : seqnum < 256 ^ 4
  chksum_fits : chksum < 256 ^ 2
  length_fits : length < 256 ^ 2
  length_least : 20 ≤ length

/-- An LSA with its body. -/
structure Lsa (v3 : Bool) where
  header : LsaHeader v3
  body : Bytes
  length_own : header.length = 20 + body.length

/-- An entry of a Link State Request. -/
structure LsaRequest (v3 : Bool) where
  type : Nat
  id : Bytes
  advrouter : Bytes
  type_fits : type < if v3 then 256 ^ 2 else 256 ^ 1
  id_size : id.length = 4
  advrouter_size : advrouter.length = 4

variable {v3 : Bool}

def LsaHeader.typeBytes (h : LsaHeader v3) : Bytes :=
  if v3 then ofNat 2 h.type else ofNat 1 h.options ++ ofNat 1 h.type

def LsaHeader.bytes (h : LsaHeader v3) : Bytes :=
  ofNat 2 h.age ++ (h.typeBytes ++ (h.id ++ (h.advrouter ++ (ofNat 4 h.seqnum ++
    (ofNat 2 h.chksum ++ ofNat 2 h.length)))))

def Lsa.bytes (l : Lsa v3) : Bytes := l.header.bytes ++ l.body

def LsaRequest.bytes (r : LsaRequest v3) : Bytes := ofNat 4 r.type ++ (r.id ++ r.advrouter)

/-- The entry of `lsas` with a header's own values. -/
def LsaHeader.entry (h : LsaHeader v3) (raw : Bytes) : OSPFLSA :=
  ⟨v3, h.age, h.options, h.type, some h.id, some h.advrouter, h.seqnum, h.chksum, h.length, false,
    raw⟩

def Lsa.entry (l : Lsa v3) : OSPFLSA := l.header.entry l.bytes

def LsaRequest.entry (r : LsaRequest v3) : OSPFLSA :=
  ⟨v3, 0, 0, r.type, some r.id, some r.advrouter, 0, 0, 12, false, r.bytes⟩

/-- The body of a message that carries LSAs or speaks of them. -/
inductive LsaContent (v3 : Bool) where
  | description (fixed : Bytes) (fixed_size : fixed.length = dbdLen v3)
      (headers : List (LsaHeader v3))
  | request (entries : List (LsaRequest v3))
  | update (lsas : List (Lsa v3))
  | acknowledgment (headers : List (LsaHeader v3))

namespace LsaContent

def type : LsaContent v3 → Nat
  | description _ _ _ => 2
  | request _ => 3
  | update _ => 4
  | acknowledgment _ => 5

def area : LsaContent v3 → Bytes
  | description _ _ headers => headers.flatMap LsaHeader.bytes
  | request entries => entries.flatMap LsaRequest.bytes
  | update lsas => lsas.flatMap Lsa.bytes
  | acknowledgment headers => headers.flatMap LsaHeader.bytes

def bytes : LsaContent v3 → Bytes
  | description fixed _ headers => fixed ++ headers.flatMap LsaHeader.bytes
  | request entries => entries.flatMap LsaRequest.bytes
  | update lsas => ofNat 4 lsas.length ++ lsas.flatMap Lsa.bytes
  | acknowledgment headers => headers.flatMap LsaHeader.bytes

/-- One entry for each LSA. -/
def entries : LsaContent v3 → List OSPFLSA
  | description _ _ headers => headers.map fun h => h.entry h.bytes
  | request entries => entries.map LsaRequest.entry
  | update lsas => lsas.map Lsa.entry
  | acknowledgment headers => headers.map fun h => h.entry h.bytes

/-- The headers that travel alone. -/
def alone : LsaContent v3 → List (LsaHeader v3)
  | description _ _ headers => headers
  | request _ => []
  | update _ => []
  | acknowledgment headers => headers

end LsaContent

def ospfHeaderLen (v3 : Bool) : Nat := if v3 then 16 else 24

/-- A packet of either version, and what follows it.  `last` is what the header has after its
checksum. -/
structure OspfPacket (v3 : Bool) where
  version : Nat
  srcRouter : Bytes
  areaId : Bytes
  checksum : Nat
  last : Bytes
  content : LsaContent v3
  behind : Bytes
  version_fits : version < 256 ^ 1
  srcRouter_size : srcRouter.length = 4
  areaId_size : areaId.length = 4
  checksum_fits : checksum < 256 ^ 2
  last_size : last.length = if v3 then 2 else 10
  length_fits : ospfHeaderLen v3 + content.bytes.length < 256 ^ 2

def OspfPacket.bytes (p : OspfPacket v3) : Bytes :=
  ofNat 1 p.version ++ (ofNat 1 p.content.type ++
    (ofNat 2 (ospfHeaderLen v3 + p.content.bytes.length) ++ (p.srcRouter ++ (p.areaId ++
      (ofNat 2 p.checksum ++ (p.last ++ (p.content.bytes ++ p.behind)))))))

/-- A packet is split into its LSAs. -/
structure Split (p : OspfPacket v3) : Prop where
  entries : lsasOf v3 p.bytes = p.content.entries
  area : (lsasOf v3 p.bytes).flatMap OSPFLSA.raw = p.content.area
  sound : ∀ lsa ∈ lsasOf v3 p.bytes, lsa.malformed = false

/-- The walk over any body ends within it, behind its last entry and with nothing more to read. -/
structure EndsInside (v3 : Bool) (type : Nat) (body : Bytes) : Prop where
  spells : lsaArea v3 type body =
    (walkLsas v3 type body).1.flatMap OSPFLSA.raw ++ (walkLsas v3 type body).2
  «over» : nextEntry v3 type (walkLsas v3 type body).2 = none
  short : (walkLsas v3 type body).1.length ≤ (lsaArea v3 type body).length

theorem LsaHeader.length_bytes (h : LsaHeader v3) : h.bytes.length = 20 := by
  have htype : h.typeBytes.length = 2 := by
    rw [LsaHeader.typeBytes]
    split <;> simp
  simp only [LsaHeader.bytes, List.length_append, length_ofNat, htype, h.id_size, h.advrouter_size]

theorem readLsType_typeBytes (h : LsaHeader v3) (rest : Bytes) :
    readLsType v3 (h.typeBytes ++ rest) = some (h.options, h.type, rest) := by
  have hoptions := h.options_fits
  have htype := h.type_fits
  cases v3 with
  | true =>
    have hzero : h.options = 0 := Nat.lt_one_iff.mp hoptions
    have hread := readInt_ofNat (show h.type < 256 ^ 2 from htype) rest
    simp [readLsType, LsaHeader.typeBytes, hread, hzero]
  | false =>
    have hread := readInt_ofNat (show h.options < 256 ^ 1 from hoptions) (ofNat 1 h.type ++ rest)
    have hread' := readInt_ofNat (show h.type < 256 ^ 1 from htype) rest
    simp [readLsType, LsaHeader.typeBytes, hread, hread']

theorem readLsaHeader_bytes (h : LsaHeader v3) (rest : Bytes) :
    readLsaHeader v3 (h.bytes ++ rest) = some (h.entry (h.bytes ++ rest)) := by
  have hlength := readInt_ofNat h.length_fits rest
  simp only [LsaHeader.bytes, List.append_assoc, readLsaHeader, readInt_ofNat h.age_fits,
    readLsType_typeBytes, takeBytes_of_length h.id_size, takeBytes_of_length h.advrouter_size,
    readInt_ofNat h.seqnum_fits, readInt_ofNat h.chksum_fits, hlength, Option.bind_eq_bind,
    Option.bind_some, Option.pure_def, LsaHeader.entry]

theorem decodeOneLsa_header (h : LsaHeader v3) : decodeOneLsa v3 h.bytes =
    ({ h.entry h.bytes with malformed := decide (h.length ≠ 20) }, 20) := by
  have hread := readLsaHeader_bytes h []
  rw [List.append_nil] at hread
  have hleast := h.length_least
  by_cases hbare : h.length = 20
  · have htake : h.bytes.take 20 = h.bytes := List.take_of_length_le (Nat.le_of_eq h.length_bytes)
    simp [decodeOneLsa, hread, h.length_bytes, LsaHeader.entry, hbare, htake]
  · have hlong : 20 < h.length := by omega
    simp [decodeOneLsa, hread, h.length_bytes, LsaHeader.entry, hbare, hlong]

theorem Lsa.length_bytes (l : Lsa v3) : l.bytes.length = l.header.length := by
  rw [Lsa.bytes, List.length_append, l.header.length_bytes, l.length_own]

theorem decodeOneLsa_lsa (l : Lsa v3) (rest : Bytes) :
    decodeOneLsa v3 (l.bytes ++ rest) = (l.entry, l.bytes.length) := by
  have hread := readLsaHeader_bytes l.header (l.body ++ rest)
  rw [← List.append_assoc, ← Lsa.bytes] at hread
  have hleast := l.header.length_least
  have hfits : ¬(l.header.length < 20 ∨ (l.bytes ++ rest).length < l.header.length) := by
    rw [List.length_append, l.length_bytes]
    omega
  have htake : (l.bytes ++ rest).take l.header.length = l.bytes := by
    rw [← l.length_bytes, List.take_left]
  simp only [decodeOneLsa, hread, LsaHeader.entry, hfits, if_false, htake, l.length_bytes,
    Lsa.entry]

theorem lsrEntry_bytes (r : LsaRequest v3) (rest : Bytes) :
    lsrEntry v3 (r.bytes ++ rest) = some (r.entry, rest) := by
  have hword : r.type < 256 ^ 4 := by
    have htype := r.type_fits
    split at htype <;> omega
  have hsize : r.bytes.length = 12 := by
    simp only [LsaRequest.bytes, List.length_append, length_ofNat, r.id_size, r.advrouter_size]
  have htake : (r.bytes ++ rest).take 12 = r.bytes := by rw [← hsize, List.take_left]
  have htype : (if v3 then r.type % 65536 else r.type % 256) = r.type := by
    have htype := r.type_fits
    cases v3 with
    | true => exact Nat.mod_eq_of_lt htype
    | false => exact Nat.mod_eq_of_lt htype
  have hread : readInt 4 (r.bytes ++ rest) = some (r.type, r.id ++ (r.advrouter ++ rest)) := by
    rw [LsaRequest.bytes, List.append_assoc, List.append_assoc]
    exact readInt_ofNat hword _
  simp only [lsrEntry, hread, htake, htype, takeBytes_of_length r.id_size,
    takeBytes_of_length r.advrouter_size, Option.bind_eq_bind, Option.bind_some, Option.pure_def,
    LsaRequest.entry]

theorem nextLsaHeader_header (h : LsaHeader v3) (rest : Bytes) :
    nextLsaHeader v3 (h.bytes ++ rest) =
      some ({ h.entry h.bytes with malformed := decide (h.length ≠ 20) }, rest) := by
  have hroom : 20 ≤ (h.bytes ++ rest).length := by
    rw [List.length_append, h.length_bytes]
    omega
  have htake : (h.bytes ++ rest).take 20 = h.bytes := List.take_left' h.length_bytes
  have hdrop : (h.bytes ++ rest).drop 20 = rest := List.drop_left' h.length_bytes
  rw [nextLsaHeader, if_pos hroom, htake, hdrop, decodeOneLsa_header]

theorem nextLsa_lsa (l : Lsa v3) (rest : Bytes) :
    nextLsa v3 (l.bytes ++ rest) = some (l.entry, rest) := by
  have hempty : (l.bytes ++ rest).isEmpty = false := by
    have hleast := l.header.length_least
    rw [List.isEmpty_eq_false_iff, ← List.length_pos_iff, List.length_append, l.length_bytes]
    omega
  simp only [nextLsa, hempty, decodeOneLsa_lsa, Bool.false_eq_true, if_false, List.drop_left]

/-- An LSA is the bytes that it consumed, which are a header at least, or all there are. -/
theorem decodeOneLsa_consumed (v3 : Bool) (s : Bytes) :
    (decodeOneLsa v3 s).1.raw = s.take (decodeOneLsa v3 s).2 ∧
      (20 ≤ (decodeOneLsa v3 s).2 ∨ (decodeOneLsa v3 s).2 = s.length) := by
  unfold decodeOneLsa
  cases hread : readLsaHeader v3 s with
  | none => exact ⟨by simp, .inr rfl⟩
  | some lsa =>
    have hraw : lsa.raw = s := by
      simp only [readLsaHeader, Option.bind_eq_bind, Option.bind_eq_some_iff, Prod.exists,
        Option.pure_def, Option.some.injEq] at hread
      obtain ⟨_, _, -, _, _, _, -, _, _, -, _, _, -, _, _, -, _, _, -, _, _, -, rfl⟩ := hread
      rfl
    dsimp only
    split
    · exact ⟨by simp [hraw], .inr rfl⟩
    · exact ⟨rfl, .inl (by simp only; omega)⟩

theorem nextLsaHeader_spells {s rest : Bytes} {a : OSPFLSA}
    (h : nextLsaHeader v3 s = some (a, rest)) : s = a.raw ++ rest ∧ a.raw ≠ [] := by
  unfold nextLsaHeader at h
  split at h
  · rename_i hroom
    simp only [Option.some.injEq, Prod.mk.injEq] at h
    obtain ⟨rfl, rfl⟩ := h
    have hsize : (s.take 20).length = 20 := List.length_take_of_le hroom
    obtain ⟨hraw, hconsumed⟩ := decodeOneLsa_consumed v3 (s.take 20)
    have hwhole : (decodeOneLsa v3 (s.take 20)).1.raw = s.take 20 := by
      rw [hraw, List.take_of_length_le (by omega)]
    rw [hwhole]
    refine ⟨(List.take_append_drop 20 s).symm, ?_⟩
    rw [← List.length_pos_iff, hsize]
    decide
  · cases h

/-- An entry is what it takes off the front. -/
theorem nextEntry_spells {type : Nat} {s rest : Bytes} {a : OSPFLSA}
    (h : nextEntry v3 type s = some (a, rest)) : s = a.raw ++ rest ∧ a.raw ≠ [] := by
  unfold nextEntry at h
  split at h
  · have hread := h
    simp only [lsrEntry, Option.bind_eq_bind, Option.bind_eq_some_iff, Prod.exists,
      Option.pure_def, Option.some.injEq, Prod.mk.injEq] at hread
    obtain ⟨word, _, h1, lsId, _, h2, advrouter, _, h3, rfl, rfl⟩ := hread
    obtain ⟨rfl, -⟩ := readInt_sound h1
    obtain ⟨rfl, hid⟩ := takeBytes_sound h2
    obtain ⟨rfl, hadvrouter⟩ := takeBytes_sound h3
    have hsize : (ofNat 4 word ++ (lsId ++ advrouter)).length = 12 := by
      simp only [List.length_append, length_ofNat, hid, hadvrouter]
    rw [← List.append_assoc lsId, ← List.append_assoc, ← hsize, List.take_left]
    exact ⟨rfl, by rw [← List.length_pos_iff, hsize]; decide⟩
  · split at h
    · unfold nextLsa at h
      split at h
      · cases h
      · rename_i hempty
        have hne : s ≠ [] := by simpa using hempty
        have hpos := List.length_pos_iff.mpr hne
        obtain ⟨hraw, hconsumed⟩ := decodeOneLsa_consumed v3 s
        simp only [Option.some.injEq, Prod.mk.injEq] at h
        obtain ⟨rfl, rfl⟩ := h
        rw [hraw]
        refine ⟨(List.take_append_drop _ s).symm, ?_⟩
        rw [← List.length_pos_iff, List.length_take]
        omega
    · exact nextLsaHeader_spells h

theorem nextEntry_consumes (type : Nat) : Records.Consumes (nextEntry v3 type) := by
  intro s a rest h
  obtain ⟨hs, hraw⟩ := nextEntry_spells h
  have hpos := List.length_pos_iff.mpr hraw
  rw [hs, List.length_append]
  omega

theorem ends_inside (v3 : Bool) (type : Nat) (body : Bytes) : EndsInside v3 type body where
  spells := Records.readAll_sound _ OSPFLSA.raw (fun _ _ _ h => (nextEntry_spells h).1) _ _
  «over» := Records.readAll_refused (nextEntry_consumes type) _
  short := by
    have hpaid : ((walkLsas v3 type body).1.map fun _ => 1).sum ≤ (lsaArea v3 type body).length :=
      Records.sum_readAll_le
        (fun s a rest h => by have := nextEntry_consumes type s a rest h; omega) _ _
    rwa [List.map_const', List.sum_replicate_nat, Nat.mul_one] at hpaid

theorem nextEntry_nil (type : Nat) : nextEntry v3 type [] = none := by
  cases hread : nextEntry v3 type [] with
  | none => rfl
  | some out =>
    obtain ⟨hnil, hraw⟩ := nextEntry_spells hread
    exact absurd (List.append_eq_nil_iff.mp hnil.symm).1 hraw

/-- What the walk finds for a header alone. -/
def LsaHeader.found (h : LsaHeader v3) : OSPFLSA :=
  { h.entry h.bytes with malformed := decide (h.length ≠ 20) }

/-- A run of entries is read back. -/
theorem walk_entries {α : Type} (type : Nat) {bytes : α → Bytes} (found : α → OSPFLSA)
    (hraw : ∀ a, (found a).raw = bytes a)
    (hread : ∀ a rest, nextEntry v3 type (bytes a ++ rest) = some (found a, rest)) (as : List α) :
    (readAll (nextEntry v3 type) (as.flatMap bytes).length (as.flatMap bytes)).1 =
      as.map found := by
  have hbytes : as.flatMap bytes = (as.map found).flatMap OSPFLSA.raw := by
    rw [List.flatMap_map]
    exact congrArg (as.flatMap ·) (funext fun a => (hraw a).symm)
  have hfound : ∀ lsa ∈ as.map found, ∀ rest,
      nextEntry v3 type (lsa.raw ++ rest) = some (lsa, rest) := by
    intro lsa hlsa rest
    obtain ⟨a, -, rfl⟩ := List.mem_map.mp hlsa
    rw [hraw]
    exact hread a rest
  have hall := Records.readAll_flatMap (nextEntry_consumes type) hfound (nextEntry_nil type)
  rw [List.append_nil, ← hbytes] at hall
  rw [hall]

namespace LsaContent

/-- The entries, a header alone marked malformed where it is not the whole LSA. -/
def found : LsaContent v3 → List OSPFLSA
  | description _ _ headers => headers.map LsaHeader.found
  | request entries => entries.map LsaRequest.entry
  | update lsas => lsas.map Lsa.entry
  | acknowledgment headers => headers.map LsaHeader.found

theorem lsaArea_bytes (c : LsaContent v3) : lsaArea v3 c.type c.bytes = c.area := by
  cases c with
  | description fixed fixed_size headers => exact List.drop_left' fixed_size
  | request entries => rfl
  | update lsas => exact List.drop_left' (length_ofNat 4 _)
  | acknowledgment headers => rfl

theorem walk_bytes (c : LsaContent v3) : (walkLsas v3 c.type c.bytes).1 = c.found := by
  rw [walkLsas, c.lsaArea_bytes]
  cases c with
  | description fixed fixed_size headers =>
    exact walk_entries 2 LsaHeader.found (fun _ => rfl) nextLsaHeader_header headers
  | request entries => exact walk_entries 3 LsaRequest.entry (fun _ => rfl) lsrEntry_bytes entries
  | update lsas => exact walk_entries 4 Lsa.entry (fun _ => rfl) nextLsa_lsa lsas
  | acknowledgment headers =>
    exact walk_entries 5 LsaHeader.found (fun _ => rfl) nextLsaHeader_header headers

theorem found_headers_iff (headers : List (LsaHeader v3)) :
    (headers.map LsaHeader.found = headers.map fun h => h.entry h.bytes) ↔
      ∀ h ∈ headers, h.length = 20 := by
  rw [List.map_inj_left]
  apply forall₂_congr
  intro h _
  simp [LsaHeader.found, LsaHeader.entry]

theorem found_iff (c : LsaContent v3) : c.found = c.entries ↔ ∀ h ∈ c.alone, h.length = 20 := by
  cases c with
  | description fixed fixed_size headers => exact found_headers_iff headers
  | request entries => exact iff_of_true rfl (fun _ h => absurd h List.not_mem_nil)
  | update lsas => exact iff_of_true rfl (fun _ h => absurd h List.not_mem_nil)
  | acknowledgment headers => exact found_headers_iff headers

theorem raw_entries (c : LsaContent v3) : c.entries.flatMap OSPFLSA.raw = c.area := by
  cases c with
  | description fixed fixed_size headers => exact List.flatMap_map _ _ _
  | request entries => exact List.flatMap_map _ _ _
  | update lsas => exact List.flatMap_map _ _ _
  | acknowledgment headers => exact List.flatMap_map _ _ _

theorem malformed_entries (c : LsaContent v3) : ∀ lsa ∈ c.entries, lsa.malformed = false := by
  intro lsa hlsa
  cases c with
  | description fixed fixed_size headers =>
    obtain ⟨h, -, rfl⟩ := List.mem_map.mp hlsa
    rfl
  | request entries =>
    obtain ⟨r, -, rfl⟩ := List.mem_map.mp hlsa
    rfl
  | update lsas =>
    obtain ⟨l, -, rfl⟩ := List.mem_map.mp hlsa
    rfl
  | acknowledgment headers =>
    obtain ⟨h, -, rfl⟩ := List.mem_map.mp hlsa
    rfl

end LsaContent

/-- The body of a packet is what it was given. -/
theorem lsasOf_bytes (p : OspfPacket v3) : lsasOf v3 p.bytes = p.content.found := by
  have hlast := p.last_size
  have htype : p.content.type < 256 ^ 1 := by cases p.content <;> simp [LsaContent.type]
  have hbody (headerLen : Nat) : (if headerLen ≤ headerLen + p.content.bytes.length ∧
      headerLen + p.content.bytes.length ≤ headerLen + (p.content.bytes ++ p.behind).length
      then (p.content.bytes ++ p.behind).take (headerLen + p.content.bytes.length - headerLen)
      else p.content.bytes ++ p.behind) = p.content.bytes := by
    rw [if_pos ⟨Nat.le_add_right _ _, by rw [List.length_append]; omega⟩,
      Nat.add_sub_cancel_left, List.take_left]
  cases v3 with
  | false =>
    obtain ⟨authType, auth, hauthType, hsplit⟩ :=
      BigEndian.exists_ofNat_append (show 2 ≤ p.last.length by rw [hlast]; decide)
    have hauth : auth.length = 8 := by
      rw [hsplit, List.length_append, length_ofNat] at hlast
      exact Nat.add_left_cancel hlast
    have hbytes : p.bytes = ofNat 1 p.version ++ (ofNat 1 p.content.type ++
        (ofNat 2 (24 + p.content.bytes.length) ++ (p.srcRouter ++ (p.areaId ++
          (ofNat 2 p.checksum ++ (ofNat 2 authType ++ (auth ++
            (p.content.bytes ++ p.behind)))))))) := by
      rw [OspfPacket.bytes, hsplit, List.append_assoc (ofNat 2 authType)]
      rfl
    have hread := decodeOspfv2_read hbytes p.version_fits htype p.length_fits p.srcRouter_size
      p.areaId_size p.checksum_fits hauthType hauth
    rw [hbody] at hread
    simp only [lsasOf, Bool.false_eq_true, if_false, hread]
    exact p.content.walk_bytes
  | true =>
    obtain ⟨instanceId, rest, hinstanceId, hsplit⟩ :=
      BigEndian.exists_ofNat_append (show 1 ≤ p.last.length by rw [hlast]; decide)
    have hrest : rest.length = 1 := by
      rw [hsplit, List.length_append, length_ofNat] at hlast
      exact Nat.add_left_cancel hlast
    obtain ⟨reserved, rest', hreserved, rfl⟩ :=
      BigEndian.exists_ofNat_append (show 1 ≤ rest.length by omega)
    have hnil : rest' = [] := by
      rw [List.length_append, length_ofNat] at hrest
      exact List.length_eq_zero_iff.mp (Nat.add_left_cancel hrest)
    have hbytes : p.bytes = ofNat 1 p.version ++ (ofNat 1 p.content.type ++
        (ofNat 2 (16 + p.content.bytes.length) ++ (p.srcRouter ++ (p.areaId ++
          (ofNat 2 p.checksum ++ (ofNat 1 instanceId ++ (ofNat 1 reserved ++
            (p.content.bytes ++ p.behind)))))))) := by
      rw [OspfPacket.bytes, hsplit, hnil, List.append_nil, List.append_assoc (ofNat 1 instanceId)]
      rfl
    have hread := decodeOspfv3_read hbytes p.version_fits htype p.length_fits p.srcRouter_size
      p.areaId_size p.checksum_fits hinstanceId hreserved
    rw [hbody] at hread
    simp only [lsasOf, if_true, hread]
    exact p.content.walk_bytes

/-- Every walk ends inside of its body, and a packet is split into its LSAs exactly where the
headers that travel alone are whole LSAs. -/
theorem lsas_split_iff (v3 : Bool) :
    (∀ type body, EndsInside v3 type body) ∧
      ∀ p : OspfPacket v3, Split p ↔ ∀ h ∈ p.content.alone, h.length = 20 := by
  refine ⟨ends_inside v3, fun p => ⟨fun h => ?_, fun h => ?_⟩⟩
  · rw [← p.content.found_iff, ← lsasOf_bytes p]
    exact h.entries
  · have hentries : lsasOf v3 p.bytes = p.content.entries := by
      rw [lsasOf_bytes p, p.content.found_iff.mpr h]
    exact ⟨hentries, by rw [hentries, p.content.raw_entries],
      by rw [hentries]; exact p.content.malformed_entries⟩

/-- An acknowledgment of a router LSA of 36 bytes. -/
def routerLsaHeader : LsaHeader false :=
  ⟨1, 2, 1, [10, 0, 0, 1], [10, 0, 0, 1], 0x80000001, 0, 36, Nat.le_of_ble_eq_true rfl,
    by decide, by decide, rfl, rfl, by decide, Nat.le_of_ble_eq_true rfl, by decide, by decide⟩

def routerAck : OspfPacket false :=
  ⟨2, [10, 0, 0, 1], [0, 0, 0, 0], 0, List.replicate 10 0, .acknowledgment [routerLsaHeader], [],
    by decide, rfl, rfl, Nat.le_of_ble_eq_true rfl, rfl, by decide⟩

theorem not_split_routerAck :
    ¬((∀ v3 type body, EndsInside v3 type body) ∧ ∀ v3 (p : OspfPacket v3), Split p) := by
  rintro ⟨-, h⟩
  have hsound := (h false routerAck).sound
  revert hsound
  decide +kernel

end Packets.Inet
