import ScalarScript.Program
import ScalarScript.Text.Quoted
import ScalarScript.Value

/-!
# Events

What a run reports while it goes on, and how a line of the log shows it.
-/

namespace ScalarScript

inductive Verbosity where
  | debug
  | trace
  deriving DecidableEq, Repr

inductive Event where
  /-- The evaluation of a node begins. -/
  | enter (line : Nat)
  /-- Both operands are known. -/
  | operands (left : Value) (op : Operator) (right : Value)
  /-- The operand of a minus sign is known. -/
  | negation (operand : Float)
  /-- All arguments are known. -/
  | call (function : String) (arguments : Nat) (line : Nat)
  | binding (name : String) (value : Value) (line : Nat)
  /-- The program ends with an error. -/
  | failure (e : EvalError)
  deriving DecidableEq

namespace Event

/-- The least verbosity that shows the event. -/
def verbosity : Event → Verbosity
  | enter _ | operands .. | negation _ => .trace
  | call .. | binding .. | failure _ => .debug

def isShown (e : Event) : Verbosity → Bool
  | .trace => true
  | .debug => e.verbosity = .debug

def label : Verbosity → String
  | .debug => "DEBUG"
  | .trace => "TRACE"

def text : Event → String
  | enter line => s!"eval line={line}"
  | operands l op r => s!"binary left={l.text} op={op.symbol} right={r.text}"
  | negation x => s!"unary op=- value={NumberStyle.marked.write x}"
  | call f n line => s!"call name={Text.quoted f} args={n} line={line}"
  | binding x v line => s!"bind name={Text.quoted x} value={v.text} line={line}"
  | failure e => s!"program evaluated to an error kind={e.kind.name} {e.message}"

/-- The line of the log for an event in a run of the given number of statements. -/
def logLine (statements : Nat) (e : Event) : String :=
  s!"{label e.verbosity} eval_program\x7bstatements={statements}\x7d: {e.text}"

end Event

end ScalarScript
