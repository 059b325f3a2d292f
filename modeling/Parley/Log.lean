/-!
# Log records

Reading a script or refreshing a directory may leave remarks that are no
errors. They are collected as values, in the order in which they arise, and
the outer layer decides which of them to show.
-/

namespace Parley

/-- How much a remark matters, from most to least. -/
inductive Level where
  | error
  | warn
  | info
  | debug
  | trace
  deriving DecidableEq, Repr

namespace Level

/-- The name of a level, in capitals. -/
def name : Level → String
  | error => "ERROR"
  | warn => "WARN"
  | info => "INFO"
  | debug => "DEBUG"
  | trace => "TRACE"

/-- The position of a level, the one that matters most first. -/
def rank : Level → Nat
  | error => 1
  | warn => 2
  | info => 3
  | debug => 4
  | trace => 5

end Level

/-- The part of the program that makes a remark. -/
inductive Origin where
  | command
  | script
  | table
  | batch
  deriving DecidableEq, Repr

/-- How a part of the program is called where remarks are shown. -/
def Origin.label : Origin → String
  | command => "compile"
  | script => "oud::parser"
  | table => "oud::cache"
  | batch => "oud::build"

/-- One remark. -/
structure LogRecord where
  level : Level
  origin : Origin
  message : String
  deriving DecidableEq, Repr

/-- Remarks in the order in which they were made. -/
abbrev Log := List LogRecord

end Parley
