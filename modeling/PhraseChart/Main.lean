/-
# PhraseChart.Main -- the program on the command line

The arguments are read twice: here to learn what the run needs, and by `run` itself.
-/
import PhraseChart.Program.Run

namespace PhraseChart.Program

set_option autoImplicit false

/-- The reason why the system refused to read a file. -/
def readErrorOf : IO.Error → ReadError
  | .noFileOrDirectory _ _ _ => .notFound
  | .permissionDenied _ _ _ => ⟨.permissionDenied, "Permission denied (os error 13)"⟩
  | error => ⟨.other, toString error⟩

def readFile (path : String) : IO (Except ReadError (List UInt8)) := do
  try
    return .ok (← IO.FS.readBinFile path).toList
  catch error =>
    return .error (readErrorOf error)

/-- A word that the system draws. -/
def randomWord : IO UInt32 := do
  let bytes ← IO.getRandomBytes 4
  return bytes.toList.foldl (fun word byte => word * 256 + byte.toUInt32) 0

/-- What the run with these arguments needs of the system.  One word of the system starts a
generator, and the choices of the run read from that. -/
def surroundings (arguments : List String) : IO (Surroundings Sampling.WordStream) := do
  let state := Sampling.WordStream.ofSeed [] (← randomWord)
  let source := state.source
  match Request.ofArguments arguments with
  | .ok (.run options) =>
      let content ← readFile options.file
      let input ← if readsInput options then (← IO.getStdin).readBinToEnd else pure .empty
      return { read := fun _ => content, standardInput := input.toList, source, state }
  | _ => return { read := fun _ => .error .notFound, standardInput := [], source, state }

end PhraseChart.Program

open PhraseChart.Program in
def main (arguments : List String) : IO UInt32 := do
  let report := run Request.ofArguments false arguments (← surroundings arguments)
  for event in report.events do
    match event with
    | .output line => IO.println line
    | .complaint line | .trace line => IO.eprintln line
  return report.status.exitCode
