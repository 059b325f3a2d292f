import Parley.Script.Assembly

/-!
# Reading scripts

A script gives a dialogue or the first error in it. Its `name` directive names
the dialogue; a script without one falls back on a name that the caller gives.
-/

namespace Parley.Script

/-- What reading a script gives, and the remarks made on the way. -/
structure Reading where
  result : Except Error Dialogue
  log : Log

/-- Read a source. Errors and remarks speak of `file`. -/
def read (file fallback src : String) : Reading :=
  match Assembly.run file {} (readLines src.toList) with
  | (assembly, none) =>
      ⟨.ok (assembly.dialogue.rename (assembly.name.getD fallback)), assembly.log⟩
  | (assembly, some error) => ⟨.error error, assembly.log⟩

/-- The dialogue that a source describes. The file names it by default. -/
def parse (file src : String) : Except Error Dialogue :=
  (read file file src).result

end Parley.Script
