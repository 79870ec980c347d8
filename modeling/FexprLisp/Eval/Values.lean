import FexprLisp.Datum.Equality
import FexprLisp.Eval.Arguments
import FexprLisp.Number.Power

/-!
The builtins on values: lists, equality and numbers. All of them evaluate their arguments from left
to right.
-/

namespace FexprLisp

/-- The operation on two numbers. -/
def Operation.apply : Operation → Single → Single → Single
  | add => .add
  | sub => .sub
  | mul => .mul
  | div => .div
  | remainder => .remainder

namespace Values

open Arguments

/-- The head of a pair, or its tail. -/
def part (select : Datum → Datum → Datum) (ev : Evaluator) (args : Datum) : Run Datum := do
  match ← ev (← one args) with
  | .pair h t => pure (select h t)
  | _ => Run.reject .wrongType

def car (ev : Evaluator) (args : Datum) : Run Datum := part (fun h _ => h) ev args

def cdr (ev : Evaluator) (args : Datum) : Run Datum := part (fun _ t => t) ev args

def cons (ev : Evaluator) (args : Datum) : Run Datum := do
  let (a, b) ← two args
  let h ← ev a
  let t ← ev b
  pure (.pair h t)

/-- Whether the values of two arguments are equal. -/
def compare (ev : Evaluator) (args : Datum) : Run Bool := do
  let (a, b) ← two args
  let v ← ev a
  let w ← ev b
  pure (v.equal w)

/-- A left fold of numeric arguments. Each argument is evaluated, checked and taken in before the
next one is looked at; a dotted end is found last. -/
def fold (ev : Evaluator) (op : Operation) (acc : Option Single) : Datum → Run Datum
  | .pair e rest => do
    let v ← number ev e
    fold ev op (some (match acc with
      | some a => op.apply a v
      | none => v)) rest
  | .nil =>
    match acc with
    | some a => pure (.number a)
    | none => Run.reject .notEnough
  | _ => Run.reject .dottedPair

def unary (f : Single → Single) (ev : Evaluator) (args : Datum) : Run Datum := do
  pure (.number (f (← number ev (← one args))))

def binary (f : Single → Single → Single) (ev : Evaluator) (args : Datum) : Run Datum := do
  let (a, b) ← two args
  let v ← number ev a
  let w ← number ev b
  pure (.number (f v w))

end Values

end FexprLisp
