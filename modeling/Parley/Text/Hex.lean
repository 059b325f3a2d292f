import Parley.Text.Utf8

/-!
# Bytes as hexadecimal digits

A byte is written as two digits, the higher one first, with small letters.
-/

namespace Parley.Text

/-- The digits in the order of their values. -/
def hexDigits : List Char := "0123456789abcdef".toList

/-- The digit with a value. -/
def hexDigit (value : Nat) : Char := hexDigits.getD value '0'

/-- The value of a digit. -/
def hexValue? (c : Char) : Option Nat := hexDigits.idxOf? c

/-- The digits of bytes. -/
def toHex : Bytes → List Char
  | [] => []
  | byte :: rest => hexDigit (byte.toNat / 16) :: hexDigit (byte.toNat % 16) :: toHex rest

/-- The bytes with given digits. -/
def ofHex? : List Char → Option Bytes
  | [] => some []
  | high :: low :: rest => do
      let high ← hexValue? high
      let low ← hexValue? low
      let bytes ← ofHex? rest
      some (UInt8.ofNat (16 * high + low) :: bytes)
  | [_] => none

theorem hexValue?_hexDigit {value : Nat} (h : value < 16) :
    hexValue? (hexDigit value) = some value := by
  have hall : ∀ v : Fin 16, hexValue? (hexDigit v) = some v.val := by decide
  exact hall ⟨value, h⟩

/-- Bytes are read back from their digits. -/
theorem ofHex?_toHex (bytes : Bytes) : ofHex? (toHex bytes) = some bytes := by
  induction bytes with
  | nil => rfl
  | cons byte rest ih =>
      have hbyte : byte.toNat < 256 := byte.toNat_lt
      rw [toHex, ofHex?, hexValue?_hexDigit (by omega), hexValue?_hexDigit (by omega), ih]
      have hsum : 16 * (byte.toNat / 16) + byte.toNat % 16 = byte.toNat := by omega
      change some (UInt8.ofNat (16 * (byte.toNat / 16) + byte.toNat % 16) :: rest) = _
      rw [hsum, UInt8.ofNat_toNat]

end Parley.Text
