import Offside.Command.Basic

/-!
# The program

Hands the arguments, the settings file and the input to the command, and writes
what it answers.
-/
namespace Offside

/-- What the first of these files that can be read holds, if it is text. -/
def readFirst : List Text → IO (Option Text)
  | [] => return none
  | name :: rest => do
    let found ← (IO.FS.readBinFile (String.ofList name)).toBaseIO
    match found with
    | .ok bytes => return (String.fromUTF8? bytes).map (·.toList)
    | .error _ => readFirst rest

/-- The input, if it is text. -/
def readInput : IO (Option Text) := do
  let bytes ← (← IO.getStdin).readBinToEnd
  return (String.fromUTF8? bytes).map (·.toList)

/-- The answer to all arguments in the working directory. -/
def respond (args : List Text) : IO Outcome :=
  match Invocation.parse args with
  | .ended o => return o
  | .request r => do
    let file ← readFirst r.fileNames
    let tools := Standard.toolkit fun _ => file
    let input ← if r.needsInput tools then readInput else pure none
    return r.answer tools input

end Offside

def main (args : List String) : IO UInt32 := do
  let outcome ← Offside.respond (args.map (·.toList))
  let output ← IO.getStdout
  output.putStr (String.ofList outcome.output)
  output.flush
  for line in outcome.report? do
    IO.eprintln (String.ofList line)
  return outcome.exit.toUInt32
