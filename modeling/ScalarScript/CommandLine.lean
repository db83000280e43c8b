import ScalarScript.Script

/-!
# Command line

The words of a command line are flags and one argument, which is the script or, with the file
flag, the path of a file that holds it. Reading the file is left to the caller, so what the
program prints is a function of the words and of the text of the file.
-/

namespace ScalarScript
namespace CommandLine

structure Invocation where
  /-- Whether the value of the script is printed. -/
  printsValue : Bool
  /-- Whether the argument is a path. -/
  namesFile : Bool
  argument : String
  deriving DecidableEq, Repr

structure Response where
  exitCode : Nat
  output : String
  errors : String
  deriving DecidableEq, Repr

namespace Response

def success (output : String) : Response := ⟨0, output, ""⟩

def failure (message : String) : Response := ⟨1, "", s!"{message}\n"⟩

end Response

namespace Invocation

/-- Runs a script. -/
def respondTo (call : Invocation) (source : String) : Response :=
  match Script.result source with
  | .ok v => .success (if call.printsValue then s!"{v.text}\n" else "")
  | .error e => .failure e.message

def missingFile (path : String) : String :=
  s!"Failed to read the input file '{path}'. Perhaps this file does not exist?"

/-- The response, where `file` is the text of the named file if it can be read. -/
def respond (call : Invocation) (file : Option String) : Response :=
  if call.namesFile then
    match file with
    | some source => call.respondTo source
    | none => .failure (missingFile call.argument)
  else call.respondTo call.argument

end Invocation

/-- The effect of one flag word; short flags may share a dash. -/
def setFlag (call : Invocation) (word : String) : Option Invocation :=
  match word with
  | "--pipe-mode" => some { call with printsValue := true }
  | "--file" => some { call with namesFile := true }
  | _ =>
    match word.toList with
    | '-' :: c :: cs => (c :: cs).foldlM (fun call c =>
        match c with
        | 'p' => some { call with printsValue := true }
        | 'f' => some { call with namesFile := true }
        | _ => none) call
    | _ => none

def setFlags (call : Invocation) (words : List String) : Option Invocation :=
  words.foldlM setFlag call

def isFlag (word : String) : Bool :=
  match word.toList with
  | '-' :: _ :: _ => true
  | _ => false

/-- Reads the words of a command line. What follows `--` is never a flag. -/
def ofWords (words : List String) : Option Invocation :=
  let beforeMark := words.takeWhile (· != "--")
  let afterMark := (words.dropWhile (· != "--")).drop 1
  match beforeMark.filter (!isFlag ·) ++ afterMark with
  | [argument] => setFlags ⟨false, false, argument⟩ (beforeMark.filter isFlag)
  | _ => none

end CommandLine
end ScalarScript
