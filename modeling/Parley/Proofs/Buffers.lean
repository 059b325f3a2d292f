import Parley.Artifact.Buffer
import Parley.Proofs.Encoding

/-!
# Artifacts in bounded space

Pieces that are written one after the other leave what writing them at once
would leave: as much of all of them as there is room for. An artifact that is
written line by line therefore ends at the capacity of its buffer, be that
between two lines or within one, and a failure is reported only if something
is missing. How the artifact is cut into pieces makes no difference.
-/

namespace Parley

namespace Text

theorem encode_append (s t : String) : encode (s ++ t) = encode s ++ encode t := by
  simp only [encode_eq_flatMap, String.toList_append, List.flatMap_append]

theorem encode_join (pieces : List String) :
    encode (String.join pieces) = (pieces.map encode).flatten := by
  induction pieces with
  | nil => rw [String.join_nil, encode_empty, List.map_nil, List.flatten_nil]
  | cons piece pieces ih =>
      rw [String.join_cons, encode_append, ih, List.map_cons, List.flatten_cons]

end Text

namespace Buffer

/-- A buffer is its capacity and what is written in it. -/
theorem eq_of_written {buffer other : Buffer} (hcapacity : buffer.capacity = other.capacity)
    (hwritten : buffer.written = other.written) : buffer = other := by
  cases buffer
  cases other
  cases hcapacity
  cases hwritten
  rfl

@[simp] theorem capacity_write (buffer : Buffer) (data : Bytes) :
    (buffer.write data).1.capacity = buffer.capacity := rfl

@[simp] theorem written_write (buffer : Buffer) (data : Bytes) :
    (buffer.write data).1.written = buffer.written ++ data.take buffer.room := rfl

@[simp] theorem snd_write (buffer : Buffer) (data : Bytes) :
    (buffer.write data).2 = decide (data.length ≤ buffer.room) := rfl

@[simp] theorem room_empty (capacity : Nat) : (empty capacity).room = capacity := rfl

/-- What was written takes up room. -/
theorem room_write (buffer : Buffer) (data : Bytes) :
    (buffer.write data).1.room = buffer.room - data.length := by
  simp only [room, capacity_write, written_write, List.length_append, List.length_take]
  omega

theorem write_nil (buffer : Buffer) : buffer.write [] = (buffer, true) := by
  apply Prod.ext
  · apply eq_of_written
    · rfl
    · simp
  · simp

/-- What fits can be written ahead of the rest. -/
theorem write_append_of_le {buffer : Buffer} {data : Bytes} (h : data.length ≤ buffer.room)
    (rest : Bytes) : buffer.write (data ++ rest) = (buffer.write data).1.write rest := by
  apply Prod.ext
  · apply eq_of_written
    · rfl
    · simp only [written_write, room_write, List.take_append, List.take_of_length_le h,
        List.append_assoc]
  · simp only [snd_write, room_write, List.length_append, decide_eq_decide]
    omega

/-- Behind what does not fit nothing is written. -/
theorem write_append_of_lt {buffer : Buffer} {data : Bytes} (h : buffer.room < data.length)
    (rest : Bytes) : buffer.write (data ++ rest) = ((buffer.write data).1, false) := by
  apply Prod.ext
  · apply eq_of_written
    · rfl
    · simp only [written_write, List.take_append_of_le_length (Nat.le_of_lt h)]
  · simp only [snd_write, List.length_append, decide_eq_false_iff_not]
    omega

/-- Pieces that are written one after the other are written as a whole. -/
theorem writeAll_eq_write (buffer : Buffer) (pieces : List Bytes) :
    buffer.writeAll pieces = buffer.write pieces.flatten := by
  induction pieces generalizing buffer with
  | nil => rw [writeAll, List.flatten_nil, write_nil]
  | cons piece rest ih =>
      rw [writeAll, List.flatten_cons]
      split
      next next hwrite =>
        have hfits : piece.length ≤ buffer.room := by
          simpa using congrArg Prod.snd hwrite
        rw [write_append_of_le hfits, hwrite, ih]
      next next hwrite =>
        have hfull : buffer.room < piece.length := by
          simpa using congrArg Prod.snd hwrite
        rw [write_append_of_lt hfull, hwrite]

end Buffer

namespace Dialogue

theorem flatten_encode_lines (dialogue : Dialogue) :
    ((Artifact.lines dialogue).map Text.encode).flatten = Text.encode dialogue.artifact :=
  (Text.encode_join (Artifact.lines dialogue)).symm

theorem writeInto_eq_write (dialogue : Dialogue) (capacity : Nat) :
    dialogue.writeInto capacity =
      (Buffer.empty capacity).write (Text.encode dialogue.artifact) := by
  rw [writeInto, Buffer.writeAll_eq_write, flatten_encode_lines]

/-- A buffer takes the front of an artifact, as far as it reaches. Writing fails
if and only if the artifact is longer, and does so in whatever pieces it is
written. -/
theorem written_writeInto (dialogue : Dialogue) (capacity : Nat) :
    (dialogue.writeInto capacity).1.written =
        (Text.encode dialogue.artifact).take
          (min capacity (Text.encode dialogue.artifact).length) ∧
      ((dialogue.writeInto capacity).2 = false ↔
        capacity < (Text.encode dialogue.artifact).length) ∧
      ∀ pieces : List Bytes, pieces.flatten = Text.encode dialogue.artifact →
        (Buffer.empty capacity).writeAll pieces = dialogue.writeInto capacity := by
  rw [writeInto_eq_write]
  refine ⟨?_, ?_, ?_⟩
  · rw [Buffer.written_write, Buffer.room_empty, List.take_eq_take_min]
    rfl
  · rw [Buffer.snd_write, Buffer.room_empty, decide_eq_false_iff_not, Nat.not_le]
  · intro pieces hpieces
    rw [Buffer.writeAll_eq_write, hpieces]

end Dialogue

end Parley
