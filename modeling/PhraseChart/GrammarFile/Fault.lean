/-
# PhraseChart.GrammarFile.Fault -- what can be wrong with a grammar file, and where

A location names a file and one of its lines, counted from 1; line 0 stands for
the file as a whole.  Two locations are equal when their lines are and their
paths name the same steps: repeated slashes, a slash at the end and the step `.`
do not count, except for a `.` that opens a relative path.

`Fault` lists the causes for which a grammar file is refused, `Fault.message` words
them, and `LocatedFault` ties a fault to its place.  Faults of reading are equal
when they are of one kind, whatever their wording; all other faults are equal
when their causes and the texts they quote are.
-/

namespace PhraseChart

set_option autoImplicit false

structure Location where
  path : String
  line : Nat

namespace Location

/-- The whole file. -/
def file (path : String) : Location := { path, line := 0 }

/-- The steps of a path that count, and whether they start at the root. -/
def steps (path : String) : Bool × List (List Char) :=
  match path.toList.splitOn '/' with
  | [] => (false, [])
  | first :: rest =>
      let inner := rest.filter fun step => !(step.isEmpty || step == ['.'])
      if first.isEmpty then (!path.isEmpty, inner) else (false, first :: inner)

instance : BEq Location where
  beq a b := steps a.path == steps b.path && a.line == b.line

/-- The path, and the line unless the whole file is meant. -/
def render (location : Location) : String :=
  if location.line = 0 then location.path
  else location.path ++ ":" ++ toString location.line

end Location

/-- Why a file could not be read. -/
inductive ReadError.Kind where
  | notFound
  | permissionDenied
  | invalidData
  | invalidName
  | invalidInput
  | notADirectory
  | other
deriving DecidableEq, Repr

structure ReadError where
  kind : ReadError.Kind
  text : String

namespace ReadError

instance : BEq ReadError := ⟨fun a b => a.kind == b.kind⟩

def notFound : ReadError := ⟨.notFound, "No such file or directory (os error 2)"⟩

def notText : ReadError := ⟨.invalidData, "stream did not contain valid UTF-8"⟩

end ReadError

/-- A cause for refusing a grammar file. -/
inductive Fault where
  /-- The token after the name that opens a rule line is not an equals sign. -/
  | missingEquals
  /-- An alternative holds an equals sign. -/
  | unexpectedEquals
  /-- A rule line does not open with a name. -/
  | missingNonterminal
  /-- A quote opens that none closes. -/
  | unmatchedQuote
  | emptyAlternative
  | emptyWord
  | blankInWord (word : String)
  /-- An alternative is neither a word nor a pair of names. -/
  | notNormalForm (shown : String)
  | undefinedNonterminal (name : String)
  /-- The file has no rule line. -/
  | noRules
  /-- An alternative still holds a bar. -/
  | unsplitAlternatives
  /-- A rule line without a token. -/
  | noTokens
  | unreadable (error : ReadError)
deriving BEq

namespace Fault

def message : Fault → String
  | .missingEquals => "Expected `=` after nonterminal"
  | .unexpectedEquals => "Unexpected `=` encountered"
  | .missingNonterminal => "Tried to define something other than a nonterminal"
  | .unmatchedQuote => "Unmatched quotes"
  | .emptyAlternative =>
      "Empty alternative (epsilon rules are not in Chomsky normal form)"
  | .emptyWord => "Empty terminal (epsilon rules are not in Chomsky normal form)"
  | .blankInWord word =>
      "Terminal \"" ++ word ++ "\" contains whitespace, so no sentence token can match it"
  | .notNormalForm shown =>
      "`" ++ shown ++
        "` is not in Chomsky normal form: expected two nonterminals or one terminal"
  | .undefinedNonterminal name => "Could not find definition for `" ++ name ++ "`"
  | .noRules => "No rules found"
  | .unsplitAlternatives =>
      "Rewrite was not fully split (this is a problem with cky, not the grammar)"
  | .noTokens =>
      "Blank line encountered in rule parser (this is a problem with cky, not the grammar)"
  | .unreadable error => "File error: " ++ error.text

end Fault

structure LocatedFault where
  location : Location
  fault : Fault
deriving BEq

/-- The place in red and bold, then the message. -/
def LocatedFault.render (f : LocatedFault) : String :=
  "\x1b[31;49;1m[" ++ f.location.render ++ "]\x1b[39;49;1m  " ++ f.fault.message ++ "\x1b[0m"

end PhraseChart
