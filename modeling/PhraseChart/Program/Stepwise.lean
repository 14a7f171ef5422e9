/-
# PhraseChart.Program.Stepwise -- a run that writes on the way

`run` reads its trace lines off the finished grammar and the finished chart.  Here each line is
written where the work it tells of is done: a repeat as soon as inserting the rule says that it was
not new, an unknown word before its leaves are made, and the number of derivations of a split right
after the parts are joined.

A computation is a result together with what it writes (`Steps`), and steps in a row write one
after the other.  `Stepwise.run` is the whole program in this form.
-/
import PhraseChart.Program.Run

namespace PhraseChart.Program

set_option autoImplicit false

/-- A result, and what is written on the way to it. -/
structure Steps (α : Type) where
  result : α
  events : List Event

namespace Steps

instance : Monad Steps where
  pure a := { result := a, events := [] }
  bind steps next :=
    { result := (next steps.result).result
      events := steps.events ++ (next steps.result).events }

def write (event : Event) : Steps Unit := { result := (), events := [event] }

def writeAll (events : List Event) : Steps Unit := events.forM write

def noteIf (condition : Bool) (line : String) : Steps Unit :=
  if condition then write (.trace line) else pure ()

def report (steps : Steps Status) : Report := { status := steps.result, events := steps.events }

variable {α β : Type} {steps : Steps α} {next : α → Steps β} {a : α}

@[simp]
theorem result_pure : (pure a : Steps α).result = a := rfl

@[simp]
theorem events_pure : (pure a : Steps α).events = [] := rfl

@[simp]
theorem result_bind : (steps >>= next).result = (next steps.result).result := rfl

@[simp]
theorem events_bind :
    (steps >>= next).events = steps.events ++ (next steps.result).events := rfl

@[simp]
theorem events_write (event : Event) : (write event).events = [event] := rfl

@[simp]
theorem events_noteIf (condition : Bool) (line : String) :
    (noteIf condition line).events = if condition then [.trace line] else [] := by
  cases condition <;> rfl

end Steps

namespace Stepwise

open GrammarFile (Entry PhysicalLine)
open Steps (write writeAll noteIf)

/-! ### Loading -/

def register (tracing : Bool) (path : String) (rules : RuleSet) : Nat × Rule → Steps RuleSet
  | (number, rule) => do
      let (isNew, rules) := rules.insertIfNew rule
      noteIf (!isNew && tracing) (Trace.repeatLine path number)
      return rules

def grammar (tracing : Bool) (path : String) (entries : List Entry) : Steps Grammar := do
  let rules ← (GrammarFile.writtenRules entries).foldlM (register tracing path) ∅
  let grammar : Grammar := { start := (GrammarFile.grammar entries).start, rules }
  noteIf tracing (Trace.loadedLine path grammar)
  return grammar

/-! ### Filling a chart -/

/-- Fills the cell of one word. -/
def fillWord (tracing : Bool) (rules : RuleSet) (c : Chart) (position : Nat) : Steps Chart :=
  match c.tokens[position]? with
  | none => return c
  | some word => do
      let heads := rules.heads (.lexical word)
      noteIf (tracing && heads.isEmpty) (Trace.unknownLine word position)
      let (ids, forest) := c.forest.addLeaves heads position
      return { c with cells := c.cells.set position position ids, forest }

/-- Adds the derivations of one split to those that a span has already. -/
def fillSplit (tracing : Bool) (rules : RuleSet) (cells : Triangle (List NodeId)) (span : Span) :
    List NodeId × Forest → Nat → Steps (List NodeId × Forest)
  | (derived, forest), split =>
      let lefts := Chart.idsIn cells span.first split
      let rights := Chart.idsIn cells (split + 1) span.last
      if lefts.isEmpty || rights.isEmpty then return (derived, forest)
      else do
        let (composed?, forest) := forest.compose rules lefts rights
        let composed := composed?.getD []
        noteIf (tracing && !composed.isEmpty) (Trace.splitLine span split composed.length)
        return (derived ++ composed, forest)

/-- Fills the cell of a longer span. -/
def fillPhrase (tracing : Bool) (rules : RuleSet) (c : Chart) (span : Span) : Steps Chart := do
  let (derived, forest) ←
    (Chart.splits span).foldlM (fillSplit tracing rules c.cells span) ([], c.forest)
  return { c with cells := c.cells.set span.first span.last derived, forest }

/-- The spans of two words and more, the shortest first. -/
def longerSpans (side : Nat) : List Span :=
  (List.range' 1 (side - 1)).flatMap (Chart.spansOfLength side)

def chart (tracing : Bool) (rules : RuleSet) (tokens : List Word) :
    Steps (Except ParseError Chart) :=
  if tokens.isEmpty then return .error .emptySentence
  else do
    let c ← (List.range tokens.length).foldlM (fillWord tracing rules) (.blank tokens)
    let c ← (longerSpans tokens.length).foldlM (fillPhrase tracing rules) c
    noteIf tracing (Trace.totalsLine c)
    return .ok c

/-! ### The program -/

def parseSentence (tracing : Bool) (options : Options) (rules : RuleSet) (start : Nonterminal)
    (sentence : List Char) : Steps Unit := do
  match ← chart tracing rules (Text.words sentence) with
  | .error error => write (.complaint error.message)
  | .ok chart => writeAll ((resultLines options start chart).map .output)

def parseInput (tracing : Bool) (options : Options) (rules : RuleSet) (start : Nonterminal) :
    List PhysicalLine → Steps Status
  | [] => return .success
  | .error error :: _ => do
      write (.complaint ("Could not read stdin: " ++ error.text))
      return .failure
  | .ok line :: rest =>
      if line.all Text.isBlank then parseInput tracing options rules start rest
      else do
        parseSentence tracing options rules start line
        parseInput tracing options rules start rest

variable {σ : Type}

def serve (tracing : Bool) (options : Options) (surroundings : Surroundings σ) (rules : RuleSet)
    (start : Nonterminal) : Steps Status :=
  if options.printGrammar then do
    writeAll (rules.renderLines.map .output)
    return .success
  else
    match options.generate with
    | some amount => do
        writeAll (generate rules options.maxDepth start surroundings.source amount
          surroundings.state)
        return .success
    | none =>
        if options.sentences.isEmpty then
          parseInput tracing options rules start
            (GrammarFile.physicalByteLines surroundings.standardInput)
        else do
          options.sentences.forM fun sentence =>
            parseSentence tracing options rules start sentence.toList
          return .success

def runWith (tracing : Bool) (options : Options) (surroundings : Surroundings σ) :
    Steps Status :=
  match GrammarFile.fileEntries options.file (surroundings.read options.file) with
  | .error faults => do
      writeAll (faults.map fun fault => .complaint fault.render)
      return .failure
  | .ok entries => do
      let grammar ← grammar tracing options.file entries
      match startSymbol options grammar with
      | .error fault => do
          write (.complaint fault.render)
          return .failure
      | .ok start => serve tracing options surroundings grammar.rules start

def run (parse : ArgumentParser) (tracing : Bool) (arguments : List String)
    (surroundings : Surroundings σ) : Steps Status :=
  match parse arguments with
  | .error text => do
      write (.complaint ("error: " ++ text))
      return .usage
  | .ok (.inform lines) => do
      writeAll (lines.map .output)
      return .success
  | .ok (.run options) => runWith tracing options surroundings

end Stepwise

end PhraseChart.Program
