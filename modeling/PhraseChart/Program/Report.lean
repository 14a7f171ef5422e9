/-
# PhraseChart.Program.Report -- what a run of the program leaves behind

A run writes lines to two channels and ends with a status, which is its exit code.  The lines are kept
in the order of writing, each with its channel, and trace lines are told apart
from complaints although both go to standard error.
-/

namespace PhraseChart.Program

set_option autoImplicit false

/-- One line that a run writes. -/
inductive Event where
  | output (line : String)
  | complaint (line : String)
  | trace (line : String)
deriving DecidableEq, Repr

namespace Event

def output? : Event → Option String
  | .output line => some line
  | .complaint _ => none
  | .trace _ => none

def error? : Event → Option String
  | .output _ => none
  | .complaint line => some line
  | .trace line => some line

def isTrace : Event → Bool
  | .trace _ => true
  | _ => false

end Event

/-- How a run ends. -/
inductive Status where
  | success
  | failure
  /-- The command line breaks the rules. -/
  | usage
deriving DecidableEq, Repr

def Status.exitCode : Status → UInt32
  | .success => 0
  | .failure => 1
  | .usage => 2

structure Report where
  status : Status
  events : List Event
deriving DecidableEq, Repr

namespace Report

/-- The text of some lines, each closed by a line feed. -/
def textOf (lines : List String) : String := String.join (lines.map (· ++ "\n"))

def stdout (report : Report) : String := textOf (report.events.filterMap Event.output?)

def stderr (report : Report) : String := textOf (report.events.filterMap Event.error?)

/-- A report with some events written before it. -/
def after (events : List Event) (report : Report) : Report :=
  { report with events := events ++ report.events }

end Report

end PhraseChart.Program
