/-
# PhraseChart.Program.Arguments -- the command line

Arguments are read from left to right.  Options and names may stand in any order;
after `--` everything is a name.  The first name is the grammar file and the others
are sentences.

* A short option is a letter after one hyphen.  Letters of options without a value
  may be written together, and the first letter of an option with a value takes
  the rest of the argument for it, after an equals sign if one is there, or else
  the next argument.
* A long option is a word after two hyphens, never abbreviated; its value follows
  an equals sign or is the next argument.
* A value in an argument of its own does not begin with a hyphen, unless it is the
  hyphen alone.
* Numbers are decimal and may have a plus sign.  The amount to generate is read as a
  signed number that must not be negative, so that zero may have a minus sign too;
  the depth has no minus sign at all.

No option may be given twice.  The first argument that breaks a rule is reported,
and a request for the version or for help is answered as soon as it is read, so
whatever stands behind it is not looked at.

The program takes its parser as it comes (`ArgumentParser`); `Request.ofArguments` is
the one that follows these rules, with refusals and a help text in words of its own.
-/

namespace PhraseChart.Program

set_option autoImplicit false

/-- What a run is asked to do. -/
structure Options where
  file : String
  sentences : List String
  start : Option String
  /-- The number of sentences to generate instead of parsing. -/
  generate : Option Nat
  maxDepth : Nat
  printGrammar : Bool
  pretty : Bool
  chart : Bool
deriving DecidableEq, Repr

def defaultMaxDepth : Nat := 32

/-- What a command line comes to. -/
inductive Request where
  | run (options : Options)
  /-- Lines to print instead of a run: the version, or help. -/
  | inform (lines : List String)
deriving DecidableEq, Repr

/-- A parser of command lines: what the arguments ask for, or the text that refuses them. -/
abbrev ArgumentParser := List String → Except String Request

inductive UsageError where
  | missingFile
  | emptyFileName
  | unknownOption (name : String)
  | missingValue (name : String)
  | unexpectedValue (name : String)
  | repeatedOption (name : String)
  | badNumber (name : String) (text : String)
deriving DecidableEq, Repr

def UsageError.message : UsageError → String
  | .missingFile => "a grammar file is required"
  | .emptyFileName => "the name of the grammar file is empty"
  | .unknownOption name => "there is no option " ++ name
  | .missingValue name => "option " ++ name ++ " requires a value"
  | .unexpectedValue name => "option " ++ name ++ " takes no value"
  | .repeatedOption name => "option " ++ name ++ " may be given once only"
  | .badNumber name text => "option " ++ name ++ " requires a number, not `" ++ text ++ "`"

/-! ### Options by name -/

/-- An option without a value. -/
inductive Flag where
  | printGrammar
  | pretty
  | chart
deriving DecidableEq, Repr

/-- An option with a value. -/
inductive Setting where
  | start
  | generate
  | maxDepth
deriving DecidableEq, Repr

inductive Switch where
  | flag (flag : Flag)
  | setting (setting : Setting)
  | inform (lines : List String)

def versionLines : List String := ["cky 0.1.0"]

def helpLines : List String :=
  ["Parses sentences with a grammar in Chomsky normal form.",
    "",
    "Usage: cky [OPTIONS] FILE [SENTENCES]...",
    "",
    "FILE holds the grammar. Without SENTENCES, they are read from standard input.",
    "",
    "  -s, --start SYMBOL     Start symbol (first in the file)",
    "  -n, --generate AMOUNT  Generate random sentences instead of parsing",
    "      --max-depth DEPTH  Deepest derivation allowed when generating (" ++
      toString defaultMaxDepth ++ ")",
    "  -g, --print-grammar    Print the grammar and exit",
    "  -p, --pretty           Print trees one node per line",
    "  -c, --chart            Print every non-empty chart cell",
    "  -h, --help             Print help",
    "  -V, --version          Print version"]

def short? : Char → Option Switch
  | 'g' => some (.flag .printGrammar)
  | 'p' => some (.flag .pretty)
  | 'c' => some (.flag .chart)
  | 's' => some (.setting .start)
  | 'n' => some (.setting .generate)
  | 'V' => some (.inform versionLines)
  | 'h' => some (.inform helpLines)
  | _ => none

def long? (name : String) : Option Switch :=
  if name = "print-grammar" then some (.flag .printGrammar)
  else if name = "pretty" then some (.flag .pretty)
  else if name = "chart" then some (.flag .chart)
  else if name = "start" then some (.setting .start)
  else if name = "generate" then some (.setting .generate)
  else if name = "max-depth" then some (.setting .maxDepth)
  else if name = "version" then some (.inform versionLines)
  else if name = "help" then some (.inform helpLines)
  else none

def Flag.name : Flag → String
  | .printGrammar => "--print-grammar"
  | .pretty => "--pretty"
  | .chart => "--chart"

def Setting.name : Setting → String
  | .start => "--start"
  | .generate => "--generate"
  | .maxDepth => "--max-depth"

/-! ### Values -/

def digit? (c : Char) : Option Nat :=
  if c.isDigit then some (c.toNat - '0'.toNat) else none

/-- The number that decimal digits write after those of `value`. -/
def digits? (value : Nat) : List Char → Option Nat
  | [] => some value
  | c :: rest =>
      match digit? c with
      | some digit => digits? (10 * value + digit) rest
      | none => none

/-- The number that decimal digits write, of which there is at least one. -/
def decimal? (digits : List Char) : Option Nat :=
  if digits.isEmpty then none else digits? 0 digits

/-- A number below `bound`, after a plus sign if one is there. -/
def unsigned? (bound : Nat) (text : String) : Option Nat :=
  let digits := match text.toList with
    | '+' :: rest => rest
    | all => all
  (decimal? digits).filter (· < bound)

/-- A number below `bound`, after a sign if one is there.  After a minus sign only
zero is not negative. -/
def signed? (bound : Nat) (text : String) : Option Nat :=
  match text.toList with
  | '-' :: digits => (decimal? digits).filter (· == 0)
  | _ => unsigned? bound text

/-! ### Reading -/

/-- What the arguments have given so far.  Sentences are kept last first. -/
structure Draft where
  file : Option String
  sentences : List String
  start : Option String
  generate : Option Nat
  maxDepth : Option Nat
  printGrammar : Bool
  pretty : Bool
  chart : Bool

namespace Draft

def empty : Draft :=
  { file := none, sentences := [], start := none, generate := none, maxDepth := none
    printGrammar := false, pretty := false, chart := false }

def isRaised (draft : Draft) : Flag → Bool
  | .printGrammar => draft.printGrammar
  | .pretty => draft.pretty
  | .chart => draft.chart

def raise (draft : Draft) (flag : Flag) : Except UsageError Draft :=
  if draft.isRaised flag then .error (.repeatedOption flag.name)
  else
    .ok <| match flag with
      | .printGrammar => { draft with printGrammar := true }
      | .pretty => { draft with pretty := true }
      | .chart => { draft with chart := true }

def set (draft : Draft) (setting : Setting) (text : String) : Except UsageError Draft :=
  match setting with
  | .start =>
      if draft.start.isSome then .error (.repeatedOption setting.name)
      else .ok { draft with start := some text }
  | .generate =>
      if draft.generate.isSome then .error (.repeatedOption setting.name)
      else
        match signed? UInt32.size text with
        | some amount => .ok { draft with generate := some amount }
        | none => .error (.badNumber setting.name text)
  | .maxDepth =>
      if draft.maxDepth.isSome then .error (.repeatedOption setting.name)
      else
        match unsigned? UInt64.size text with
        | some depth => .ok { draft with maxDepth := some depth }
        | none => .error (.badNumber setting.name text)

/-- Takes a name: the grammar file first, then sentences. -/
def takeName (draft : Draft) (name : String) : Except UsageError Draft :=
  if draft.file.isSome then .ok { draft with sentences := name :: draft.sentences }
  else if name.isEmpty then .error .emptyFileName
  else .ok { draft with file := some name }

def finish (draft : Draft) : Except UsageError Request :=
  match draft.file with
  | none => .error .missingFile
  | some file =>
      .ok <| .run
        { file
          sentences := draft.sentences.reverse
          start := draft.start
          generate := draft.generate
          maxDepth := draft.maxDepth.getD defaultMaxDepth
          printGrammar := draft.printGrammar
          pretty := draft.pretty
          chart := draft.chart }

end Draft

/-- What follows an argument: more of them, the value of a setting, or lines to print at
once. -/
inductive Progress where
  | names (draft : Draft)
  | value (draft : Draft) (setting : Setting)
  | inform (lines : List String)

/-- The letters after one hyphen. -/
def readShort (draft : Draft) : List Char → Except UsageError Progress
  | [] => .ok (.names draft)
  | letter :: rest =>
      match short? letter with
      | none => .error (.unknownOption ("-" ++ letter.toString))
      | some (.inform lines) => .ok (.inform lines)
      | some (.flag flag) =>
          match draft.raise flag with
          | .error error => .error error
          | .ok draft => readShort draft rest
      | some (.setting setting) =>
          match rest with
          | [] => .ok (.value draft setting)
          | '=' :: value => (draft.set setting (String.ofList value)).map .names
          | value => (draft.set setting (String.ofList value)).map .names

/-- The word after two hyphens, with the value behind its first equals sign. -/
def readLong (draft : Draft) (text : List Char) : Except UsageError Progress :=
  let name := String.ofList (text.takeWhile (· != '='))
  let value? := match text.dropWhile (· != '=') with
    | [] => none
    | _ :: value => some (String.ofList value)
  match long? name, value? with
  | none, _ => .error (.unknownOption ("--" ++ name))
  | some (.inform lines), none => .ok (.inform lines)
  | some (.inform _), some _ => .error (.unexpectedValue ("--" ++ name))
  | some (.flag flag), none => (draft.raise flag).map .names
  | some (.flag _), some _ => .error (.unexpectedValue ("--" ++ name))
  | some (.setting setting), none => .ok (.value draft setting)
  | some (.setting setting), some value => (draft.set setting value).map .names

/-- The names after `--`. -/
def readNames (draft : Draft) : List String → Except UsageError Request
  | [] => draft.finish
  | name :: rest =>
      match draft.takeName name with
      | .error error => .error error
      | .ok draft => readNames draft rest

/-- Reads arguments after some progress. -/
def readFrom : Progress → List String → Except UsageError Request
  | .inform lines, _ => .ok (.inform lines)
  | .names draft, [] => draft.finish
  | .value _ setting, [] => .error (.missingValue setting.name)
  | .names draft, argument :: rest =>
      match argument.toList with
      | ['-', '-'] => readNames draft rest
      | '-' :: '-' :: long =>
          match readLong draft long with
          | .error error => .error error
          | .ok progress => readFrom progress rest
      | '-' :: letter :: letters =>
          match readShort draft (letter :: letters) with
          | .error error => .error error
          | .ok progress => readFrom progress rest
      | _ =>
          match draft.takeName argument with
          | .error error => .error error
          | .ok draft => readFrom (.names draft) rest
  | .value draft setting, argument :: rest =>
      match argument.toList with
      | '-' :: _ :: _ => .error (.missingValue setting.name)
      | _ =>
          match draft.set setting argument with
          | .error error => .error error
          | .ok draft => readFrom (.names draft) rest

/-- The parser that follows the rules above. -/
def Request.ofArguments : ArgumentParser := fun arguments =>
  (readFrom (.names .empty) arguments).mapError UsageError.message

end PhraseChart.Program
