/-
# PhraseChart.GrammarFile.Loading -- from a grammar file to a grammar

A file is read as a list of physical lines, each decoded by itself.  Blank lines
and lines that open with a semicolon say nothing; every other line is a rule
line.  Reading does not stop at a fault: the faults of all lines are reported
together, in the order of the lines.  Only a file whose every line can be read is
checked further: it must hold a rule line, and every name that an alternative
uses must be defined by some rule line.

`entries` is all of that; `grammar` then registers the rules in the order of
writing, and the nonterminal of the first rule line is the start symbol.  A rule
that is written again changes nothing, and `repeats` tells the lines where this
happens.
-/
import PhraseChart.Grammar.RuleSet
import PhraseChart.GrammarFile.Definition
import PhraseChart.Text

namespace PhraseChart.GrammarFile

set_option autoImplicit false

/-- A physical line, or the reason why it could not be read. -/
abbrev PhysicalLine := Except ReadError (List Char)

/-- A definition and the number of its line in the file. -/
structure Entry where
  number : Nat
  definition : Definition
deriving DecidableEq, Repr

/-- A line that says nothing: blank, or a comment after a semicolon. -/
def isSilent (line : List Char) : Bool :=
  match line.dropWhile Text.isBlank with
  | [] => true
  | c :: _ => c == ';'

/-- What one physical line contributes.  A line that could not be read is a fault of
the file as a whole. -/
def readLine (path : String) (number : Nat) : PhysicalLine → Option (Except LocatedFault Entry)
  | .error error => some (.error { location := .file path, fault := .unreadable error })
  | .ok line =>
      if isSilent line then none
      else
        match Definition.ofText line with
        | .error fault => some (.error { location := { path, line := number }, fault })
        | .ok definition => some (.ok { number, definition })

/-- What the lines contribute, in their order, counting lines from `number`. -/
def readLines (path : String) (number : Nat) :
    List PhysicalLine → List (Except LocatedFault Entry)
  | [] => []
  | line :: rest =>
      match readLine path number line with
      | none => readLines path (number + 1) rest
      | some reading => reading :: readLines path (number + 1) rest

def faultOf? : Except LocatedFault Entry → Option LocatedFault
  | .error fault => some fault
  | .ok _ => none

def entryOf? : Except LocatedFault Entry → Option Entry
  | .error _ => none
  | .ok entry => some entry

/-- One fault for every use of a name that no entry defines. -/
def undefinedUses (path : String) (entries : List Entry) : List LocatedFault :=
  let defined := entries.map fun entry => entry.definition.lhs
  entries.flatMap fun entry =>
    (entry.definition.used.filter fun name => !defined.contains name).map fun name =>
      { location := { path, line := entry.number }, fault := .undefinedNonterminal name.name }

/-- The rule lines of a file without faults, or all its faults. -/
def entries (path : String) (lines : List PhysicalLine) : Except (List LocatedFault) (List Entry) :=
  let readings := readLines path 1 lines
  let faults := readings.filterMap faultOf?
  let entries := readings.filterMap entryOf?
  if !faults.isEmpty then .error faults
  else if entries.isEmpty then .error [{ location := .file path, fault := .noRules }]
  else
    let undefined := undefinedUses path entries
    if !undefined.isEmpty then .error undefined else .ok entries

/-- The rules in the order of writing, each with the number of its line. -/
def writtenRules (entries : List Entry) : List (Nat × Rule) :=
  entries.flatMap fun entry => entry.definition.rules.map fun rule => (entry.number, rule)

/-- The grammar of the entries; without an entry the start symbol is the empty name. -/
def grammar (entries : List Entry) : Grammar :=
  { start := (entries.head?.map fun entry => entry.definition.lhs).getD ⟨""⟩
    rules := .ofList ((writtenRules entries).map Prod.snd) }

/-- The lines of the rules that `s` or an earlier rule of the list already holds, a
line as often as it has such rules. -/
def repeatsFrom (s : RuleSet) : List (Nat × Rule) → List Nat
  | [] => []
  | (number, rule) :: rest =>
      if s.contains rule then number :: repeatsFrom s rest
      else repeatsFrom (s.insert rule) rest

def repeats (entries : List Entry) : List Nat := repeatsFrom ∅ (writtenRules entries)

/-! ### The forms in which a file is given -/

def physicalLines (text : String) : List PhysicalLine :=
  (Text.lines text.toList).map Except.ok

def decodeLine (bytes : List UInt8) : PhysicalLine :=
  match Text.decode? bytes with
  | some line => .ok line
  | none => .error .notText

def physicalByteLines (bytes : List UInt8) : List PhysicalLine :=
  (Text.byteLines bytes).map decodeLine

/-- The entries of a file with the given content, or the fault that it cannot be read. -/
def fileEntries (path : String) :
    Except ReadError (List UInt8) → Except (List LocatedFault) (List Entry)
  | .error error => .error [{ location := .file path, fault := .unreadable error }]
  | .ok bytes => entries path (physicalByteLines bytes)

/-- Loads a grammar from its text. -/
def load (path : String) (text : String) : Except (List LocatedFault) Grammar :=
  (entries path (physicalLines text)).map grammar

/-- Loads a grammar from the bytes of a file. -/
def loadFile (path : String) (content : Except ReadError (List UInt8)) :
    Except (List LocatedFault) Grammar :=
  (fileEntries path content).map grammar

end PhraseChart.GrammarFile
