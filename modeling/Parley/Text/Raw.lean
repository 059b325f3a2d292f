import Parley.Text.Utf8

/-!
# Raw texts

The names of files are kept as bytes, and nothing makes these the bytes of a
text. Where a raw text is shown, and where it is looked up among texts, every
part of it that is no character is replaced, so that different raw texts may
look alike. The raw texts of texts are shown as they are.
-/

namespace Parley

/-- A text as the system keeps it: any bytes. -/
structure RawText where
  bytes : Bytes
  deriving DecidableEq, Repr

namespace RawText

open Text

/-- The raw text of a text. -/
def ofText (s : String) : RawText := ⟨encode s⟩

instance : Coe String RawText := ⟨ofText⟩

instance : Append RawText := ⟨fun front back => ⟨front.bytes ++ back.bytes⟩⟩

instance : LT RawText := ⟨fun raw other => raw.bytes < other.bytes⟩

instance : LE RawText := ⟨fun raw other => raw.bytes ≤ other.bytes⟩

instance (raw other : RawText) : Decidable (raw < other) :=
  inferInstanceAs (Decidable (raw.bytes < other.bytes))

instance (raw other : RawText) : Decidable (raw ≤ other) :=
  inferInstanceAs (Decidable (raw.bytes ≤ other.bytes))

/-- How many bytes follow the first byte of a character, and the bounds of the
next one. No byte follows one that begins no character. -/
def lead (byte : UInt8) : Nat × UInt8 × UInt8 :=
  if 0xC2 ≤ byte && byte ≤ 0xDF then (1, 0x80, 0xBF)
  else if byte = 0xE0 then (2, 0xA0, 0xBF)
  else if byte = 0xED then (2, 0x80, 0x9F)
  else if 0xE1 ≤ byte && byte ≤ 0xEF then (2, 0x80, 0xBF)
  else if byte = 0xF0 then (3, 0x90, 0xBF)
  else if 0xF1 ≤ byte && byte ≤ 0xF3 then (3, 0x80, 0xBF)
  else if byte = 0xF4 then (3, 0x80, 0x8F)
  else (0, 0x80, 0xBF)

/-- How many of the next bytes go on with a character: at most so many, the
first of them within its own bounds. -/
def followers : Nat × UInt8 × UInt8 → Bytes → Nat
  | (more + 1, low, high), byte :: rest =>
      if low ≤ byte && byte ≤ high then followers (more, 0x80, 0xBF) rest + 1 else 0
  | _, _ => 0

/-- The characters of any bytes behind those that are skipped. What begins like
a character and is none is replaced as a whole. -/
def replaced : Nat → Bytes → List Char
  | _, [] => []
  | skip + 1, _ :: rest => replaced skip rest
  | 0, byte :: rest =>
      let more := followers (lead byte) rest
      ((decode? (byte :: rest.take more)).map String.toList).getD ['\uFFFD'] ++ replaced more rest

/-- A raw text as it is shown. -/
def shown (raw : RawText) : String :=
  (decode? raw.bytes).getD (String.ofList (replaced 0 raw.bytes))

/-- Whether a raw text is that of a text. -/
def isText (raw : RawText) : Prop := raw = ofText raw.shown

instance (raw : RawText) : Decidable raw.isText := inferInstanceAs (Decidable (_ = _))

@[simp] theorem bytes_append (front back : RawText) :
    (front ++ back).bytes = front.bytes ++ back.bytes := rfl

@[simp] theorem bytes_ofText (s : String) : (ofText s).bytes = encode s := rfl

@[simp] theorem shown_ofText (s : String) : (ofText s).shown = s := by
  rw [shown, ofText, decode?_encode, Option.getD_some]

theorem isText_ofText (s : String) : (ofText s).isText := by
  rw [isText, shown_ofText]

@[simp] theorem ofText_inj {s t : String} : ofText s = ofText t ↔ s = t := by
  refine ⟨fun h => ?_, fun h => h ▸ rfl⟩
  rw [← shown_ofText s, h, shown_ofText]

/-- Texts that are shown alike are alike. -/
theorem isText.eq_of_shown {raw other : RawText} (h : raw.isText) (ho : other.isText)
    (heq : raw.shown = other.shown) : raw = other :=
  calc raw
    _ = ofText raw.shown := h
    _ = ofText other.shown := by rw [heq]
    _ = other := ho.symm

/-! Raw texts are ordered by their bytes. -/

section

variable {raw other third : RawText}

theorem not_lt : ¬ raw < other ↔ other ≤ raw := List.not_lt

theorem le_trans (h : raw ≤ other) (ho : other ≤ third) : raw ≤ third := List.le_trans h ho

theorem le_total (raw other : RawText) : raw ≤ other ∨ other ≤ raw := List.le_total _ _

theorem le_antisymm (h : raw ≤ other) (ho : other ≤ raw) : raw = other :=
  congrArg mk (List.le_antisymm h ho)

theorem lt_irrefl (raw : RawText) : ¬ raw < raw := List.lt_irrefl _

theorem lt_asymm (h : raw < other) : ¬ other < raw := List.lt_asymm h

theorem ne_of_lt (h : raw < other) : raw ≠ other := fun heq => lt_irrefl other (heq ▸ h)

end

end RawText

end Parley
