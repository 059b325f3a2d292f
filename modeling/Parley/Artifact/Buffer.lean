import Parley.Artifact.Basic

/-!
# Writing an artifact into bounded space

A buffer takes bytes up to its capacity. A write that does not fit leaves what
does fit in the buffer and is reported; an artifact is written line by line
and stops at the first line that does not fit.
-/

namespace Parley

/-- Bytes written so far into a space of bounded size. -/
structure Buffer where
  capacity : Nat
  written : Bytes
  fits : written.length ≤ capacity

namespace Buffer

/-- An empty buffer. -/
def empty (capacity : Nat) : Buffer := ⟨capacity, [], by simp⟩

/-- The space that is left. -/
def room (buffer : Buffer) : Nat := buffer.capacity - buffer.written.length

/-- Write what fits, and tell whether that was all. -/
def write (buffer : Buffer) (data : Bytes) : Buffer × Bool :=
  (⟨buffer.capacity, buffer.written ++ data.take buffer.room, by
      have := buffer.fits
      simp only [List.length_append, List.length_take, room]
      omega⟩,
    data.length ≤ buffer.room)

/-- Write one piece after the other until one does not fit. -/
def writeAll : Buffer → List Bytes → Buffer × Bool
  | buffer, [] => (buffer, true)
  | buffer, piece :: rest =>
      match buffer.write piece with
      | (next, true) => writeAll next rest
      | (next, false) => (next, false)

end Buffer

/-- Write the artifact of a dialogue into a space of bounded size. -/
def Dialogue.writeInto (dialogue : Dialogue) (capacity : Nat) : Buffer × Bool :=
  (Buffer.empty capacity).writeAll ((Artifact.lines dialogue).map Text.encode)

end Parley
