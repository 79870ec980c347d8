import FexprLisp.Run

/-!
The shape of argument lists. A builtin receives its arguments as one datum and checks its shape
before it evaluates any: first that the list is proper, then that it is long enough, then that it
is not too long.
-/

namespace FexprLisp

/-- An evaluator of expressions, as the builtins receive it. -/
abbrev Evaluator := Datum → Run Datum

namespace Arguments

/-- At least `required` arguments and, unless any number will do, at most `most`. -/
def split (args : Datum) (required : Nat) (most : Option Nat) : Except Fault (List Datum) :=
  let items := args.elements
  if !args.isProper then .error (.invalidArguments .dottedPair)
  else if items.length < required then .error (.invalidArguments .notEnough)
  else if most.any (· < items.length) then .error (.invalidArguments .tooMany)
  else .ok items

/-- Exactly one argument. -/
def one (args : Datum) : Run Datum := do
  match ← Run.ofExcept (split args 1 (some 1)) with
  | [a] => pure a
  | _ => Run.reject .notEnough

/-- Exactly two arguments. -/
def two (args : Datum) : Run (Datum × Datum) := do
  match ← Run.ofExcept (split args 2 (some 2)) with
  | [a, b] => pure (a, b)
  | _ => Run.reject .notEnough

/-- One argument and any number more. -/
def oneAndRest (args : Datum) : Run (Datum × List Datum) := do
  match ← Run.ofExcept (split args 1 none) with
  | a :: rest => pure (a, rest)
  | [] => Run.reject .notEnough

/-- No argument or one. -/
def optional (args : Datum) : Run (Option Datum) := do
  pure (← Run.ofExcept (split args 0 (some 1))).head?

def symbolName : Datum → Except Fault Text
  | .symbol name => .ok name
  | _ => .error (.invalidArguments .wrongType)

/-- Evaluate an argument that has to be a number. -/
def number (ev : Evaluator) (e : Datum) : Run Single := do
  match ← ev e with
  | .number v => pure v
  | _ => Run.reject .wrongType

/-- Evaluate expressions in order, for the value of the last; `nil` when there is none. -/
def sequence (ev : Evaluator) : List Datum → Run Datum
  | [] => pure .nil
  | [e] => ev e
  | e :: es => do
    let _ ← ev e
    sequence ev es

/-- Evaluate expressions in order, for all their values. -/
def values (ev : Evaluator) : List Datum → Run (List Datum)
  | [] => pure []
  | e :: es => do
    let v ← ev e
    let vs ← values ev es
    pure (v :: vs)

end Arguments

end FexprLisp
