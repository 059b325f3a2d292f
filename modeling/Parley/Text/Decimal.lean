/-!
# Decimal numbers of a fixed width

Dates and clock times are written with a fixed number of ASCII digits. Reading
takes exactly that many and leaves the rest of the text alone, so a number can
be read in front of anything.
-/

namespace Parley.Text

/-- The ASCII digit of a number below ten. -/
def digit (n : Nat) : Char := Char.ofNat ('0'.toNat + n % 10)

/-- The number that an ASCII digit stands for. -/
def digitValue? (c : Char) : Option Nat :=
  if c.isDigit then some (c.toNat - '0'.toNat) else none

/-- The last `width` decimal digits of a number, with zeros in front. -/
def fixedDigits : Nat → Nat → List Char
  | 0, _ => []
  | width + 1, n => fixedDigits width (n / 10) ++ [digit n]

/-- Read exactly `width` digits onto a number read so far. -/
def readDigits : Nat → Nat → List Char → Option (Nat × List Char)
  | 0, n, cs => some (n, cs)
  | _ + 1, _, [] => none
  | width + 1, n, c :: cs => (digitValue? c).bind fun d => readDigits width (10 * n + d) cs

/-- Read a number of exactly `width` digits at the front of a text. -/
def number? (width : Nat) (cs : List Char) : Option (Nat × List Char) :=
  readDigits width 0 cs

/-- Read one given character at the front of a text. -/
def expect? (c : Char) : List Char → Option (List Char)
  | [] => none
  | d :: cs => if d = c then some cs else none

theorem digitValue?_digit (n : Nat) : digitValue? (digit n) = some (n % 10) := by
  have h : ∀ k : Fin 10, digitValue? (digit k) = some k.val := by decide
  have hn := h ⟨n % 10, Nat.mod_lt n (by decide)⟩
  simpa [digit] using hn

/-- Reading a written number goes on with the number that the digits continue. -/
theorem readDigits_fixedDigits (width n m : Nat) (rest : List Char) :
    readDigits width m (fixedDigits width n ++ rest) =
      some (m * Nat.pow 10 width + n % Nat.pow 10 width, rest) := by
  suffices h : ∀ extra, readDigits (width + extra) m (fixedDigits width n ++ rest) =
      readDigits extra (m * Nat.pow 10 width + n % Nat.pow 10 width) rest by
    simpa [readDigits] using h 0
  induction width generalizing n rest with
  | zero => simp [fixedDigits, Nat.mod_one]
  | succ width ih =>
      intro extra
      rw [fixedDigits, List.append_assoc, Nat.add_right_comm, Nat.add_assoc, ih,
        List.cons_append, readDigits, digitValue?_digit, List.nil_append,
        Option.bind_some]
      congr 1
      have hpow : Nat.pow 10 (width + 1) = 10 * Nat.pow 10 width := Nat.mul_comm _ _
      rw [hpow, Nat.mod_mul, Nat.mul_add, Nat.mul_left_comm]
      omega

/-- A number that fits its width is read back. -/
theorem number?_fixedDigits {width n : Nat} (hn : n < Nat.pow 10 width) (rest : List Char) :
    number? width (fixedDigits width n ++ rest) = some (n, rest) := by
  rw [number?, readDigits_fixedDigits, Nat.mod_eq_of_lt hn, Nat.zero_mul, Nat.zero_add]

end Parley.Text
