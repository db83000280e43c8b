import ScalarScript.Event

/-!
# Logged computations

A logged computation has an outcome and the events that led to it, in order; after a failure there
are no further ones. A log is a tree, so that joining the logs of two computations takes one step
and a long run is logged in linear time; `Log.toList` is what a log means.
-/

namespace ScalarScript

inductive Log where
  | empty
  | single (e : Event)
  | append (first second : Log)

namespace Log

/-- The events of a log in front of those that follow it. -/
def before : Log → List Event → List Event
  | empty, es => es
  | single e, es => e :: es
  | append first second, es => first.before (second.before es)

def toList (log : Log) : List Event := log.before []

theorem before_eq (log : Log) (es : List Event) : log.before es = log.toList ++ es := by
  unfold toList
  induction log generalizing es with
  | empty => rfl
  | single e => rfl
  | append first second ih₁ ih₂ =>
    rw [before, before, ih₁, ih₂, ih₁ (second.before []), List.append_assoc]

@[simp] theorem toList_empty : empty.toList = [] := rfl

@[simp] theorem toList_single (e : Event) : (single e).toList = [e] := rfl

@[simp] theorem toList_append (first second : Log) :
    (append first second).toList = first.toList ++ second.toList := before_eq first _

end Log

structure Logged (α : Type) where
  outcome : Except EvalError α
  log : Log

namespace Logged

variable {α β : Type}

def events (x : Logged α) : List Event := x.log.toList

def report (e : Event) : Logged Unit := ⟨.ok (), .single e⟩

def ofExcept (r : Except EvalError α) : Logged α := ⟨r, .empty⟩

@[inline] protected def bind (x : Logged α) (f : α → Logged β) : Logged β :=
  match x.outcome with
  | .error e => ⟨.error e, x.log⟩
  | .ok a =>
    let y := f a
    ⟨y.outcome, .append x.log y.log⟩

instance : Monad Logged where
  pure a := ofExcept (.ok a)
  bind := Logged.bind

@[simp] theorem outcome_pure (a : α) : (pure a : Logged α).outcome = .ok a := rfl

@[simp] theorem events_pure (a : α) : (pure a : Logged α).events = [] := rfl

@[simp] theorem outcome_ofExcept (r : Except EvalError α) : (ofExcept r).outcome = r := rfl

@[simp] theorem events_ofExcept (r : Except EvalError α) : (ofExcept r).events = [] := rfl

@[simp] theorem outcome_report (e : Event) : (report e).outcome = .ok () := rfl

@[simp] theorem events_report (e : Event) : (report e).events = [e] := rfl

@[simp] theorem outcome_bind (x : Logged α) (f : α → Logged β) :
    (x >>= f).outcome = x.outcome >>= fun a => (f a).outcome := by
  show (Logged.bind x f).outcome = _
  cases h : x.outcome <;> simp [Logged.bind, h, bind, Except.bind]

theorem events_bind_ok {x : Logged α} {a : α} (h : x.outcome = .ok a) (f : α → Logged β) :
    (x >>= f).events = x.events ++ (f a).events := by
  show (Logged.bind x f).events = _
  simp [Logged.bind, events, h]

theorem events_bind_error {x : Logged α} {e : EvalError} (h : x.outcome = .error e)
    (f : α → Logged β) : (x >>= f).events = x.events := by
  show (Logged.bind x f).events = _
  simp [Logged.bind, events, h]

end Logged
end ScalarScript
