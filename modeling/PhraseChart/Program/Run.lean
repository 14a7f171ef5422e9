/-
# PhraseChart.Program.Run -- the program

A run loads the grammar file and settles the start symbol; either may fail, and
then the run ends with the faults on standard error.  After that it prints the
grammar, or generates sentences, or parses sentences: those on the command
line, or else the lines of standard input that are not blank.

`run` is the whole program as a function of its arguments and of what it finds
around it, which is a file system, its standard input and a source of random
words.  With `tracing` it also writes trace lines.  How arguments are written is
left to a parser of command lines.
-/
import PhraseChart.Program.Arguments
import PhraseChart.Program.Report
import PhraseChart.Program.Trace
import PhraseChart.Sampling.Sampler

namespace PhraseChart.Program

set_option autoImplicit false

open GrammarFile (PhysicalLine)

variable {σ : Type}

/-- What a run finds around it. -/
structure Surroundings (σ : Type) where
  /-- The content of a file. -/
  read : String → Except ReadError (List UInt8)
  standardInput : List UInt8
  /-- Where the words for random choices come from. -/
  source : Sampling.Source σ
  /-- The state in which the run finds the source. -/
  state : σ

/-- The start symbol that was asked for, if the grammar defines it, or else the one of the
grammar. -/
def startSymbol (options : Options) (grammar : Grammar) : Except LocatedFault Nonterminal :=
  match options.start with
  | none => .ok grammar.start
  | some name =>
      if grammar.rules.defines ⟨name⟩ then .ok ⟨name⟩
      else .error { location := .file options.file, fault := .undefinedNonterminal name }

/-! ### Parsing -/

/-- The cells that hold a derivation, by their labels. -/
def chartLines (chart : Chart) : List String :=
  (chart.allCells.filter fun (_, ids) => !ids.isEmpty).map fun (span, _) =>
    "  [" ++ toString span.first ++ ", " ++ toString span.last ++ "] " ++
      " ".intercalate ((chart.labels span.first span.last).map Nonterminal.name)

/-- One parse under its number, counted from 1. -/
def parseLines (pretty : Bool) (tree : Tree) (number : Nat) : List String :=
  if pretty then
    ("  parse " ++ toString number ++ ":") ::
      (Text.lines tree.renderOutline.toList).map fun line => "    " ++ String.ofList line
  else ["  " ++ toString number ++ ": " ++ tree.render]

/-- What is written about a sentence that has a chart. -/
def resultLines (options : Options) (start : Nonterminal) (chart : Chart) : List String :=
  let cells := if options.chart then chartLines chart else []
  let unknown := chart.unknownWords.map fun (position, word) =>
    "  word not in lexicon: `" ++ word ++ "` (position " ++ toString position ++ ")"
  let parses := chart.parses start
  let verdict := if parses.isEmpty then ["  no parse"] else []
  " ".intercalate chart.tokens :: (cells ++ unknown ++ verdict ++
    (parses.zipIdx 1).flatMap fun (tree, number) => parseLines options.pretty tree number)

/-- The trace of a chart, for a run that traces. -/
def chartTrace (tracing : Bool) (chart : Chart) : List Event :=
  if tracing then (Trace.parsing chart).map .trace else []

/-- What a run writes for one sentence. -/
def parseSentence (tracing : Bool) (options : Options) (rules : RuleSet) (start : Nonterminal)
    (sentence : List Char) : List Event :=
  match Chart.parse rules (Text.words sentence) with
  | .error error => [.complaint error.message]
  | .ok chart =>
      chartTrace tracing chart ++ (resultLines options start chart).map .output

/-- Parses the lines of standard input, up to the first that cannot be read. -/
def parseInput (tracing : Bool) (options : Options) (rules : RuleSet) (start : Nonterminal) :
    List PhysicalLine → Report
  | [] => { status := .success, events := [] }
  | .error error :: _ =>
      { status := .failure
        events := [.complaint ("Could not read stdin: " ++ error.text)] }
  | .ok line :: rest =>
      let others := parseInput tracing options rules start rest
      if line.all Text.isBlank then others
      else others.after (parseSentence tracing options rules start line)

/-! ### Generating -/

/-- Draws one sentence after another from the same source. -/
def generate (rules : RuleSet) (maxDepth : Nat) (start : Nonterminal)
    (source : Sampling.Source σ) : Nat → σ → List Event
  | 0, _ => []
  | amount + 1, state =>
      match Sampling.sentence source rules maxDepth start state with
      | .ok words state =>
          .output (" ".intercalate words) :: generate rules maxDepth start source amount state
      | .error failure state =>
          .complaint failure.message :: generate rules maxDepth start source amount state

/-! ### The run -/

/-- Whether the sentences are to come from standard input. -/
def readsInput (options : Options) : Bool :=
  !options.printGrammar && options.generate.isNone && options.sentences.isEmpty

/-- What a run does with a grammar and a start symbol. -/
def serve (tracing : Bool) (options : Options) (surroundings : Surroundings σ) (rules : RuleSet)
    (start : Nonterminal) : Report :=
  if options.printGrammar then
    { status := .success, events := rules.renderLines.map .output }
  else
    match options.generate with
    | some amount =>
        { status := .success
          events := generate rules options.maxDepth start surroundings.source amount
            surroundings.state }
    | none =>
        if options.sentences.isEmpty then
          parseInput tracing options rules start
            (GrammarFile.physicalByteLines surroundings.standardInput)
        else
          { status := .success
            events := options.sentences.flatMap fun sentence =>
              parseSentence tracing options rules start sentence.toList }

/-- The trace of a grammar file, for a run that traces. -/
def fileTrace (tracing : Bool) (path : String) (entries : List GrammarFile.Entry) : List Event :=
  if tracing then (Trace.loading path entries).map .trace else []

/-- A run with the options that the command line gave. -/
def runWith (tracing : Bool) (options : Options) (surroundings : Surroundings σ) : Report :=
  match GrammarFile.fileEntries options.file (surroundings.read options.file) with
  | .error faults =>
      { status := .failure, events := faults.map fun fault => .complaint fault.render }
  | .ok entries =>
      let grammar := GrammarFile.grammar entries
      Report.after (fileTrace tracing options.file entries) <|
        match startSymbol options grammar with
        | .error fault => { status := .failure, events := [.complaint fault.render] }
        | .ok start => serve tracing options surroundings grammar.rules start

/-- The program: a run on the arguments of its command line. -/
def run (parse : ArgumentParser) (tracing : Bool) (arguments : List String)
    (surroundings : Surroundings σ) : Report :=
  match parse arguments with
  | .error text => { status := .usage, events := [.complaint ("error: " ++ text)] }
  | .ok (.inform lines) => { status := .success, events := lines.map .output }
  | .ok (.run options) => runWith tracing options surroundings

end PhraseChart.Program
