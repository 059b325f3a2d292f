/-!
# Text as bytes

Files hold bytes, and text is kept in them as UTF-8. Decoding refuses every
byte sequence that encodes no text, so encoding and decoding are inverse to
each other.
-/

namespace Parley

/-- The contents of a file. -/
abbrev Bytes := List UInt8

namespace Text

/-- The bytes of a text. -/
def encode (s : String) : Bytes := s.toByteArray.data.toList

/-- The text that the bytes encode, if they encode one. -/
def decode? (bytes : Bytes) : Option String := String.fromUTF8? ⟨bytes.toArray⟩

theorem decode?_encode (s : String) : decode? (encode s) = some s := by
  have h : (⟨(encode s).toArray⟩ : ByteArray) = s.toByteArray := by simp [encode]
  rw [decode?, h]
  simp [String.fromUTF8?, s.isValidUTF8, String.fromUTF8]

theorem eq_encode_of_decode? {bytes : Bytes} {s : String} (h : decode? bytes = some s) :
    bytes = encode s := by
  simp only [decode?, String.fromUTF8?] at h
  split at h
  · obtain rfl := Option.some.inj h
    simp [encode, String.fromUTF8]
  · simp at h

/-- Decoding succeeds on the encoded texts and on nothing else. -/
theorem decode?_eq_some_iff {bytes : Bytes} {s : String} :
    decode? bytes = some s ↔ bytes = encode s :=
  ⟨eq_encode_of_decode?, fun h => h ▸ decode?_encode s⟩

end Text

end Parley
