import ScalarScript.Evaluation
import ScalarScript.Program.Reading

/-!
# Scripts

A script is the text of a program. Running it either fails to read it or yields a value, which
may be an error value; `result` counts both kinds of error as a failure.
-/

namespace ScalarScript
namespace Script

def runIn (env : Environment) (source : String) : Except SyntaxError Value :=
  (Program.ofSource source).map (Program.value env)

def run (source : String) : Except SyntaxError Value := runIn .empty source

inductive Failure where
  | unreadable (e : SyntaxError)
  | error (e : EvalError)
  deriving DecidableEq, Repr

namespace Failure

def message : Failure → String
  | unreadable e => e.message
  | error e => e.text

end Failure

/-- The value of a script that ran without an error. -/
def result (source : String) : Except Failure Value :=
  match run source with
  | .error e => .error (.unreadable e)
  | .ok (.error e) => .error (.error e)
  | .ok v => .ok v

end Script
end ScalarScript
