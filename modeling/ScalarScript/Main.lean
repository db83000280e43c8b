import ScalarScript.CommandLine

/-!
# The program

Runs a script given as an argument or in a file.
-/

namespace ScalarScript
namespace CommandLine

def usage : String := "usage: scalarscript [-p | --pipe-mode] [-f | --file] [--] CONTENTS"

/-- The text of a file, if there is one that can be read. -/
def readFile? (path : String) : IO (Option String) := do
  try
    return some (← IO.FS.readFile path)
  catch _ =>
    return none

/-- Prints a response and returns its exit code. -/
def Response.print (r : Response) : IO UInt32 := do
  IO.print r.output
  IO.eprint r.errors
  return r.exitCode.toUInt32

end CommandLine
end ScalarScript

open ScalarScript.CommandLine

def main (words : List String) : IO UInt32 := do
  match ofWords words with
  | none =>
    IO.eprintln usage
    return 2
  | some call =>
    let file ← if call.namesFile then readFile? call.argument else pure none
    (call.respond file).print
