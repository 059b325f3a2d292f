/-!
# What can be wrong with a script

A script is refused at one line. The fault says what is wrong there; the error
adds where, and quotes the line without the blanks around it.
-/

namespace Parley.Script

/-- The words that open a directive. -/
inductive Keyword where
  | name
  | node
  | text
  | resp
  | trig
  deriving DecidableEq, Repr

namespace Keyword

/-- The spelling of a keyword. -/
def word : Keyword → String
  | name => "name"
  | node => "node"
  | text => "text"
  | resp => "resp"
  | trig => "trig"

/-- The keyword with a given spelling. -/
def ofWord? (word : String) : Option Keyword :=
  if word = "name" then some name
  else if word = "node" then some node
  else if word = "text" then some text
  else if word = "resp" then some resp
  else if word = "trig" then some trig
  else none

@[simp] theorem ofWord?_word (keyword : Keyword) : ofWord? keyword.word = some keyword := by
  cases keyword <;> rfl

end Keyword

/-- The fields that a directive may lack. -/
inductive Field where
  | identifier
  | kind
  | label
  | quotedText
  | successor
  | trigger
  deriving DecidableEq, Repr

/-- How a missing field is called. -/
def Field.description : Field → String
  | identifier => "identifier"
  | kind => "kind"
  | label => "label"
  | quotedText => "quoted text"
  | successor => "successor label"
  | trigger => "trigger"

/-- What is wrong at a line. -/
inductive Fault where
  /-- The line is no directive. -/
  | unrecognized
  /-- A directive lacks a field. -/
  | missing (keyword : Keyword) (field : Field)
  /-- A `text`, `resp` or `trig` before any `node`. -/
  | outsideNode (keyword : Keyword)
  /-- A `node` that is neither a statement nor a question. -/
  | unknownKind (tag : String)
  /-- A node that ends without a `text`. -/
  | noText (label : String)
  deriving DecidableEq, Repr

/-- The wording of a fault. -/
def Fault.message : Fault → String
  | unrecognized => "this line seems fishy"
  | missing keyword field =>
      "`" ++ keyword.word ++ "` is missing its " ++ field.description
  | outsideNode keyword => "`" ++ keyword.word ++ "` appears outside of a node"
  | unknownKind tag => "unknown node kind `" ++ tag ++ "`"
  | noText label => "node `" ++ label ++ "` has no text"

/-- A fault at a line of a file. Lines count from one. -/
structure Error where
  file : String
  line : Nat
  raw : String
  fault : Fault
  deriving DecidableEq, Repr

/-- The wording of an error: where, what, and the line itself. -/
def Error.message (error : Error) : String :=
  error.file ++ ":" ++ toString error.line ++ ": " ++ error.fault.message ++ ": " ++ error.raw

end Parley.Script
