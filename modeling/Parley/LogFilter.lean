import Parley.Log
import Parley.Text.Blank

/-!
# Which remarks are shown

A filter is written as rules between commas. A rule is a level for everything,
the beginning of an origin's label to show all of its remarks, or both with an
equals sign between them; of the rules that apply to an origin the longest one
decides. Behind a slash a text may follow that has to occur in each remark
shown. Parts that say nothing are passed over with a warning. Without any rule
only errors are shown.
-/

namespace Parley

/-- Show the remarks of some origins down to a level. -/
structure LogRule where
  /-- How the labels of the origins begin. -/
  target : String
  /-- The rank of the last level shown, zero to show nothing. -/
  rank : Nat
  deriving DecidableEq, Repr

/-- Which remarks are shown. -/
structure LogFilter where
  rules : List LogRule
  /-- What has to occur in a remark. -/
  phrase : String := ""
  deriving DecidableEq, Repr

namespace LogFilter

open Text

/-- Whether a text occurs in another. -/
def occursIn (phrase : List Char) : List Char → Bool
  | [] => phrase.isEmpty
  | c :: cs => phrase.isPrefixOf (c :: cs) || occursIn phrase cs

/-- The rank of a level, by its name in letters of any case. -/
def rank? (word : List Char) : Option Nat :=
  let name := (String.ofList word).toUpper
  if name = "OFF" then some 0
  else ([Level.error, .warn, .info, .debug, .trace].find? (·.name = name)).map Level.rank

/-- The warning on a part that says nothing. -/
def warning (part : List Char) : String :=
  "warning: invalid logging spec '" ++ String.ofList part ++ "', ignoring it"

/-- Read one rule, or give the warning on it. -/
def readRule (part : List Char) : Except String LogRule :=
  match splitOn (· == '=') part with
  | [word] =>
      match rank? word with
      | some rank => .ok ⟨"", rank⟩
      | none => .ok ⟨String.ofList word, Level.trace.rank⟩
  | [target, level] =>
      match trim level with
      | [] => .ok ⟨String.ofList target, Level.trace.rank⟩
      | c :: cs =>
          match rank? (c :: cs) with
          | some rank => .ok ⟨String.ofList target, rank⟩
          | none => .error (warning (c :: cs))
  | _ => .error (warning part)

/-- The rules between commas, and the warnings on what is none. -/
def readRules (text : List Char) : List LogRule × List String :=
  let parts := (runs (· == ',') text).map readRule
  (parts.filterMap Except.toOption,
    parts.filterMap fun part => match part with
      | .error warning => some warning
      | .ok _ => none)

/-- Read a filter, with the warnings on it. -/
def read (text : String) : LogFilter × List String :=
  match splitOn (· == '/') text.toList with
  | [rules] => (⟨(readRules rules).1, ""⟩, (readRules rules).2)
  | [rules, phrase] => (⟨(readRules rules).1, String.ofList phrase⟩, (readRules rules).2)
  | _ => (⟨[], ""⟩, [warning text.toList ++ " (too many '/'s)"])

/-- The rank down to which the remarks of an origin are shown. The longest rule
decides, and of two equally long ones the later. -/
def rankFor (filter : LogFilter) (label : String) : Nat :=
  match filter.rules with
  | [] => Level.error.rank
  | rule :: rules =>
      let ordered := (rule :: rules).mergeSort fun a b =>
        a.target.utf8ByteSize ≤ b.target.utf8ByteSize
      match ordered.reverse.find? fun rule => rule.target.toList.isPrefixOf label.toList with
      | some rule => rule.rank
      | none => 0

/-- Whether a remark is shown. -/
def shows (filter : LogFilter) (record : LogRecord) : Bool :=
  record.level.rank ≤ filter.rankFor record.origin.label &&
    occursIn filter.phrase.toList record.message.toList

end LogFilter

end Parley
