import Parley.Text.Utf8

/-!
# Bytes of a text

The bytes of a text are those of its characters, one after the other. A byte
below 128 stands for the character with its code and occurs in the bytes of no
other one, so a separator that is absent from a text is absent from its bytes
as well.
-/

namespace Parley.Text

theorem encode_eq_flatMap (s : String) : encode s = s.toList.flatMap String.utf8EncodeChar := by
  rw [encode, ← String.utf8Encode_toList, List.utf8Encode]
  simp

@[simp] theorem encode_empty : encode "" = [] := by
  rw [encode_eq_flatMap, String.toList_empty, List.flatMap_nil]

theorem encode_injective {s t : String} (h : encode s = encode t) : s = t := by
  apply Option.some.inj
  rw [← decode?_encode s, h, decode?_encode t]

/-- A byte below 128 in the bytes of a character is the code of that character. -/
theorem toNat_eq_of_mem_utf8EncodeChar {c : Char} {byte : UInt8} (hbyte : byte.toNat < 128)
    (hmem : byte ∈ String.utf8EncodeChar c) : byte.toNat = c.toNat := by
  have hcode : c.val.toNat = c.toNat := rfl
  unfold String.utf8EncodeChar at hmem
  rw [hcode] at hmem
  dsimp only at hmem
  split at hmem
  · rw [List.mem_singleton] at hmem
    rw [hmem, UInt8.toNat_ofNat']
    omega
  -- All bytes of a longer encoding carry a mark of at least 128.
  · exfalso
    split at hmem
    · simp only [List.mem_cons, List.not_mem_nil, or_false] at hmem
      rcases hmem with rfl | rfl <;> rw [UInt8.toNat_ofNat'] at hbyte <;> omega
    · split at hmem
      · simp only [List.mem_cons, List.not_mem_nil, or_false] at hmem
        rcases hmem with rfl | rfl | rfl <;> rw [UInt8.toNat_ofNat'] at hbyte <;> omega
      · simp only [List.mem_cons, List.not_mem_nil, or_false] at hmem
        rcases hmem with rfl | rfl | rfl | rfl <;> rw [UInt8.toNat_ofNat'] at hbyte <;> omega

theorem not_mem_encode {s : String} {c : Char} (hc : c.toNat < 128) (hs : c ∉ s.toList) :
    UInt8.ofNat c.toNat ∉ encode s := by
  intro hmem
  rw [encode_eq_flatMap, List.mem_flatMap] at hmem
  obtain ⟨d, hd, hbyte⟩ := hmem
  have hcode : (UInt8.ofNat c.toNat).toNat = c.toNat := by
    rw [UInt8.toNat_ofNat']
    omega
  have hsame := toNat_eq_of_mem_utf8EncodeChar (by omega) hbyte
  rw [hcode] at hsame
  exact hs (Char.toNat_inj.mp hsame ▸ hd)

/-- The byte order mark. -/
def mark : Char := '\ufeff'

/-- Only a text that begins with the byte order mark has its bytes in front. -/
theorem eq_mark_of_encode_eq {c : Char} {cs : List Char} {rest more : Bytes}
    (h : encode (String.ofList (c :: cs)) ++ rest = 0xEF :: 0xBB :: 0xBF :: more) : c = mark := by
  have hdecode : ∀ (d : Char) (bytes : Bytes),
      ByteArray.utf8DecodeChar? ⟨(String.utf8EncodeChar d ++ bytes).toArray⟩ 0 = some d := by
    intro d bytes
    have happend : (⟨(String.utf8EncodeChar d ++ bytes).toArray⟩ : ByteArray) =
        (String.utf8EncodeChar d).toByteArray ++ bytes.toByteArray := by
      apply ByteArray.ext
      simp
    rw [happend, ByteArray.utf8DecodeChar?_utf8EncodeChar_append]
  have hmark : String.utf8EncodeChar mark = [0xEF, 0xBB, 0xBF] := by decide
  rw [encode_eq_flatMap, String.toList_ofList, List.flatMap_cons, List.append_assoc] at h
  apply Option.some.inj
  rw [← hdecode c (cs.flatMap String.utf8EncodeChar ++ rest), h, ← hdecode mark more, hmark]
  rfl

end Parley.Text
