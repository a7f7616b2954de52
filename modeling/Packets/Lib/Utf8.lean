/-
Text and the byte strings that spell it in UTF-8.
-/
import Mathlib.Data.List.Basic

namespace Utf8

/-- `str.encode()` -/
def encode (text : List Char) : List UInt8 := (String.ofList text).toByteArray.data.toList

/-- `bytes.decode()`; `none` where the bytes spell no text. -/
def decode? (s : List UInt8) : Option (List Char) :=
  (ByteArray.utf8Decode? ⟨s.toArray⟩).map Array.toList

theorem encode_eq (text : List Char) : encode text = text.utf8Encode.data.toList := by
  rw [encode, String.toByteArray_ofList]

theorem decode?_encode (text : List Char) : decode? (encode text) = some text := by
  rw [decode?, encode_eq, Array.toArray_toList, List.utf8Decode?_utf8Encode, Option.map_some]

theorem decode?_eq_some_iff {s : List UInt8} {text : List Char} :
    decode? s = some text ↔ s = encode text := by
  constructor
  · intro h
    obtain ⟨chars, hchars, rfl⟩ := Option.map_eq_some_iff.mp h
    have hget := ByteArray.utf8Encode_get_utf8Decode? (h := Option.isSome_of_eq_some hchars)
    rw [Option.get_of_eq_some _ hchars] at hget
    rw [encode_eq, hget]
  · rintro rfl
    exact decode?_encode text

theorem encode_cons (c : Char) (text : List Char) :
    encode (c :: text) = String.utf8EncodeChar c ++ encode text := by
  rw [encode_eq, encode_eq, List.utf8Encode_cons, List.utf8Encode_singleton]
  simp

end Utf8
