import FexprLisp.Eval.Arguments

/-!
The builtins that control evaluation and make bindings. A name is checked before its value is
evaluated, and a parameter list before anything is bound.
-/

namespace FexprLisp

namespace Forms

open Arguments

/-- `(quote x)` is `x`. -/
def quote (args : Datum) : Run Datum := one args

/-- `(eval a b …)`: evaluate the arguments, then their values in order, for the last. -/
def evaluate (ev : Evaluator) (args : Datum) : Run Datum := do
  let (a, rest) ← oneAndRest args
  let vs ← values ev (a :: rest)
  sequence ev vs

/-- `(if cond then [else])`, in a frame of its own. -/
def ifThen (ev : Evaluator) (args : Datum) : Run Datum := do
  match ← Run.ofExcept (split args 2 (some 3)) with
  | cond :: yes :: no =>
    Run.inScope do
      if (← ev cond).isTrue then ev yes
      else match no with
        | e :: _ => ev e
        | [] => pure .nil
  | _ => Run.reject .notEnough

/-- Evaluate the body as long as the condition holds, for at most as many rounds as there is
fuel. -/
def loop (ev : Evaluator) (cond : Datum) (body : List Datum) : Nat → Run Unit
  | 0 => Run.outOfFuel
  | fuel + 1 => do
    if (← ev cond).isTrue then
      let _ ← sequence ev body
      loop ev cond body fuel
    else pure ()

/-- `(while cond body …)` is `nil`. One frame serves the whole loop. -/
def whileLoop (ev : Evaluator) (fuel : Nat) (args : Datum) : Run Datum := do
  let (cond, body) ← oneAndRest args
  Run.inScope (loop ev cond body fuel)
  pure .nil

/-- The names in a parameter list. A member that is no symbol is found before a dotted end. -/
def parameters : Datum → Except Fault (List Text)
  | .nil => .ok []
  | .pair p rest => do
    let name ← symbolName p
    let names ← parameters rest
    pure (name :: names)
  | _ => .error (.invalidArguments .dottedPair)

/-- A function from a parameter list and a body. -/
def makeFunction (params : Datum) (body : List Datum) : Except Fault Datum :=
  match params with
  | .nil | .pair _ _ => do pure (.func (← parameters params) body)
  | _ => .error (.invalidArguments .wrongType)

/-- `(func (params …) body …)`. -/
def func (args : Datum) : Run Datum := do
  let (params, body) ← oneAndRest args
  Run.ofExcept (makeFunction params body)

def bindGlobal (name : Text) (value : Datum) : Run Unit := do
  let env ← Run.env
  Run.setEnv (← Run.ofExcept (env.bindGlobal name value))

/-- `(defunc name (params …) body …)` binds a global. -/
def defunc (args : Datum) : Run Datum :=
  match args with
  | .pair head rest => do
    let f ← func rest
    let name ← Run.ofExcept (symbolName head)
    bindGlobal name f
    pure .nil
  | .nil => Run.reject .notEnough
  | _ => Run.reject .dottedPair

/-- `(def name value)` binds a global. -/
def define (ev : Evaluator) (args : Datum) : Run Datum := do
  let (target, e) ← two args
  let name ← Run.ofExcept (symbolName target)
  let value ← ev e
  bindGlobal name value
  pure .nil

def assignTo (name : Text) (value : Datum) : Run Unit := do
  let env ← Run.env
  match env.assign? name value with
  | some env => Run.setEnv env
  | none => Run.stop .noFrame

/-- `(= name value)` changes the nearest binding or makes a local one. -/
def assign (ev : Evaluator) (args : Datum) : Run Datum := do
  let (target, e) ← two args
  let name ← Run.ofExcept (symbolName target)
  let value ← ev e
  assignTo name value
  pure .nil

end Forms

end FexprLisp
