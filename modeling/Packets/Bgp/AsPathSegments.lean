/-
AS_PATH values as lists of segments.

A value is canonical when it encodes segments with four-octet members, of a known type and not
empty; reading and writing these are inverse.
-/
import Packets.Bgp.Policy
import Packets.Bgp.Wire

namespace Packets

theorem length_rdGroups (width n : Nat) (s : Bytes) : (rdGroups width n s).length = n := by
  induction n generalizing s with
  | zero => rfl
  | succ n ih => rw [rdGroups, List.length_cons, ih]

theorem rdGroups_lt {width n asn : Nat} {s : Bytes} (h : asn ∈ rdGroups width n s)
    (hroom : width * n ≤ s.length) : asn < 256 ^ width := by
  rw [rdGroups_eq] at h
  obtain ⟨g, hg, rfl⟩ := List.mem_map.mp h
  have hlen := length_of_mem_wholeGroups (by rwa [Nat.mul_comm]) hg
  rw [← hlen]
  exact BigEndian.toNat_lt g

theorem rdGroups_append {width : Nat} {asns : List Nat} (h : ∀ asn ∈ asns, asn < 256 ^ width)
    (rest : Bytes) :
    rdGroups width asns.length (asns.flatMap (BigEndian.ofNat width) ++ rest) = asns := by
  induction asns with
  | nil => rfl
  | cons asn asns ih =>
    have hlen := BigEndian.length_ofNat width asn
    rw [List.length_cons, rdGroups, List.flatMap_cons, List.append_assoc,
      List.take_left' hlen, List.drop_left' hlen,
      BigEndian.toNat_ofNat (h asn List.mem_cons_self),
      ih fun other hother => h other (List.mem_cons_of_mem asn hother)]

theorem flatMap_rdGroups {width n : Nat} {s : Bytes} (hroom : width * n ≤ s.length) :
    (rdGroups width n s).flatMap (BigEndian.ofNat width) = s.take (width * n) := by
  induction n generalizing s with
  | zero => rfl
  | succ n ih =>
    rw [Nat.mul_succ] at hroom
    have hlen : (s.take width).length = width := List.length_take_of_le (by omega)
    rw [rdGroups, List.flatMap_cons, BigEndian.ofNat_toNat hlen,
      ih (by rw [List.length_drop]; omega), Nat.mul_succ, Nat.add_comm, List.take_add]

theorem length_flatMap_ofNat (width : Nat) (asns : List Nat) :
    (asns.flatMap (BigEndian.ofNat width)).length = width * asns.length := by
  induction asns with
  | nil => rfl
  | cons asn asns ih =>
    rw [List.flatMap_cons, List.length_append, ih, BigEndian.length_ofNat, List.length_cons,
      Nat.mul_succ, Nat.add_comm]

/-- A segment whose header and members an encoding can say. -/
structure SegmentFits (width : Nat) (seg : Segment) : Prop where
  count : seg.2.length ≤ 255
  members : ∀ asn ∈ seg.2, asn < 256 ^ width

theorem nextSegment_encodeSegment {width : Nat} {seg : Segment} (h : SegmentFits width seg)
    (rest : Bytes) : nextSegment width (encodeSegment width seg ++ rest) = some (seg, rest) := by
  obtain ⟨segType, asns⟩ := seg
  have hcount : (UInt8.ofNat asns.length).toNat = asns.length :=
    UInt8.toNat_ofNat_of_lt' (Nat.lt_succ_of_le h.count)
  have hlen := length_flatMap_ofNat width asns
  have hfit : ¬(asns.flatMap (BigEndian.ofNat width) ++ rest).length < width * asns.length := by
    rw [List.length_append, hlen]
    omega
  rw [encodeSegment, List.cons_append, List.cons_append, nextSegment, hcount, if_neg hfit,
    rdGroups_append h.members, List.drop_left' hlen]

/-- What is read as a segment is its encoding. -/
theorem nextSegment_sound {width : Nat} {s rest : Bytes} {seg : Segment}
    (h : nextSegment width s = some (seg, rest)) :
    SegmentFits width seg ∧ s = encodeSegment width seg ++ rest := by
  match s with
  | [] | [_] => simp [nextSegment] at h
  | segType :: count :: tail =>
    simp only [nextSegment, Option.ite_none_left_eq_some, Option.some.injEq,
      Prod.mk.injEq, Nat.not_lt] at h
    obtain ⟨hfit, rfl, rfl⟩ := h
    have hcount := length_rdGroups width count.toNat tail
    constructor
    · constructor
      · rw [hcount]
        exact Nat.le_of_lt_succ count.toNat_lt
      · intro asn hasn
        exact rdGroups_lt hasn hfit
    · rw [encodeSegment, hcount, flatMap_rdGroups hfit, UInt8.ofNat_toNat, List.cons_append,
        List.cons_append, List.take_append_drop]

/-- The encoding of segments one after the other. -/
def encodePath (width : Nat) (segments : List Segment) : Bytes :=
  segments.flatMap (encodeSegment width)

theorem readAll_encodePath {width : Nat} {segments : List Segment}
    (h : ∀ seg ∈ segments, SegmentFits width seg) :
    Records.readAll (nextSegment width) (encodePath width segments).length
      (encodePath width segments) = (segments, []) := by
  have hread : Records.readAll (nextSegment width)
      (segments.flatMap (encodeSegment width) ++ []).length
        (segments.flatMap (encodeSegment width) ++ []) = (segments, []) :=
    Records.readAll_flatMap (nextSegment_consumes width)
      (fun seg hseg => nextSegment_encodeSegment (h seg hseg)) rfl
  rwa [List.append_nil] at hread

theorem pathSegments_encodePath {width : Nat} {segments : List Segment}
    (h : ∀ seg ∈ segments, SegmentFits width seg) :
    pathSegments width (encodePath width segments) = segments := by
  rw [pathSegments, readAll_encodePath h]

theorem pathSegments_fits {width : Nat} {path : Bytes} :
    ∀ seg ∈ pathSegments width path, SegmentFits width seg :=
  Records.readAll_forall _ _ (fun _ _ _ h => (nextSegment_sound h).1) _ _

theorem eq_encodePath_append (width : Nat) (path : Bytes) :
    path = encodePath width (pathSegments width path) ++
      (Records.readAll (nextSegment width) path.length path).2 :=
  Records.readAll_sound _ _ (fun _ _ _ h => (nextSegment_sound h).2) _ _

/-- The AS_PATH values a set holds: whole segments of known types, none of them empty. -/
def CanonicalPath (path : Bytes) : Prop := canonAsPath true path = some path

theorem canonicalPath_iff {path : Bytes} :
    CanonicalPath path ↔
      path = encodePath 4 (pathSegments 4 path) ∧ ∀ seg ∈ pathSegments 4 path, segmentOk seg := by
  have hsplit := eq_encodePath_append 4 path
  rw [CanonicalPath, canonAsPath]
  simp only [if_true, Option.ite_none_left_eq_some, Bool.or_eq_true, decide_eq_true_eq,
    Bool.not_eq_true', not_or, not_not, Bool.not_eq_false, List.all_eq_true, and_true]
  rw [← pathSegments]
  constructor
  · rintro ⟨hrest, hok⟩
    rw [hrest, List.append_nil] at hsplit
    exact ⟨hsplit, hok⟩
  · rintro ⟨heq, hok⟩
    rw [← heq] at hsplit
    exact ⟨List.self_eq_append_right.mp hsplit, hok⟩

theorem canonicalPath_encodePath {segments : List Segment}
    (h : ∀ seg ∈ segments, SegmentFits 4 seg) (hok : ∀ seg ∈ segments, segmentOk seg) :
    CanonicalPath (encodePath 4 segments) := by
  rw [canonicalPath_iff, pathSegments_encodePath h]
  exact ⟨rfl, hok⟩

/-- No segment of a set is longer than its header can say. -/
def Short (segments : List Segment) : Prop := ∀ seg ∈ segments, seg.2.length ≤ 255

theorem pathSegments_short (width : Nat) (path : Bytes) : Short (pathSegments width path) :=
  fun seg hseg => (pathSegments_fits seg hseg).count

theorem chunksOf_short {size fuel : Nat} {l : List Nat} (h : l.length ≤ size) :
    chunksOf size fuel l = [l] := by
  cases fuel with
  | zero => rfl
  | succ fuel => rw [chunksOf, if_pos h]

theorem makeAsPath_short {segments : List Segment} (h : Short segments) :
    makeAsPath segments = some (encodePath 4 segments) := by
  induction segments with
  | nil => rfl
  | cons seg segments ih =>
    have hseg := h seg List.mem_cons_self
    have hfits : ¬(seg.2.length > 255 ∧ seg.1 ≠ AS_SEQUENCE) := by omega
    rw [makeAsPath, if_neg hfits, ih fun other hother => h other (List.mem_cons_of_mem seg hother),
      chunksOf_short hseg]
    simp [encodePath]

theorem makeAsPath_isSome {segments : List Segment} (h : Short segments) :
    (makeAsPath segments).isSome := by
  rw [makeAsPath_short h]
  rfl

theorem makeAsPath_pathSegments {path : Bytes} (h : CanonicalPath path) :
    makeAsPath (pathSegments 4 path) = some path := by
  rw [makeAsPath_short (pathSegments_short 4 path), ← (canonicalPath_iff.mp h).1]

theorem prependOne_short {segments : List Segment} (h : Short segments) (asn : Nat) :
    Short (prependOne segments asn) := by
  have hfresh : Short ((AS_SEQUENCE, [asn]) :: segments) := by
    intro seg hseg
    rcases List.mem_cons.mp hseg with rfl | htail
    · simp
    · exact h seg htail
  cases segments with
  | nil => exact hfresh
  | cons head rest =>
    rw [prependOne]
    split
    · next hroom =>
        intro seg hseg
        rcases List.mem_cons.mp hseg with rfl | htail
        · have hlt := hroom.2
          simp only [List.length_cons]
          omega
        · exact h seg (List.mem_cons_of_mem head htail)
    · exact hfresh

end Packets
