import FexprLisp.Eval.Forms
import FexprLisp.Eval.Values
import FexprLisp.Eval.Console

/-!
# Evaluation

A symbol is looked up, a quotation gives what it holds, a pair is a call, and any other datum is
its own value. Builtins and host functions receive their arguments as they stand; a fault that
leaves one gets a layer more. An interpreted function evaluates its arguments in the frames of the
caller and its body in one new frame over the globals, so it sees no local of its caller. A form
headed by a character is a literal.

`eval` is total: it carries fuel, one unit for each level of nesting and one for each round of a
loop.
-/

namespace FexprLisp

/-- A function of the host program. -/
abbrev HostFunction := Evaluator → Datum → Run Datum

/-- The functions of the host program by name. -/
abbrev Host := Text → Option HostFunction

namespace Host

def empty : Host := fun _ => none

end Host

def Builtin.run (ev : Evaluator) (fuel : Nat) : Builtin → Datum → Run Datum
  | quote => Forms.quote
  | evaluate => Forms.evaluate ev
  | whileLoop => Forms.whileLoop ev fuel
  | ifThen => Forms.ifThen ev
  | func => Forms.func
  | defunc => Forms.defunc
  | define => Forms.define ev
  | assign => Forms.assign ev
  | car => Values.car ev
  | cdr => Values.cdr ev
  | cons => Values.cons ev
  | arithmetic op => Values.fold ev op none
  | equal => fun args => do pure (.ofBool (← Values.compare ev args))
  | notEqual => fun args => do pure (.ofBool (!(← Values.compare ev args)))
  | sqrt => Values.unary .sqrt ev
  | exp => Values.unary Single.exp ev
  | power => Values.binary Single.power ev
  | includeFile => Console.includeFile ev
  | read => Console.read ev
  | exit => Console.exit ev
  | print => Console.print ev
  | printRaw => Console.printRaw ev

namespace Eval

variable (host : Host)

/-- Call a function that takes its arguments unevaluated. -/
def applyNative (ev : Evaluator) (fuel : Nat) (f : Native) (args : Datum) : Run Datum :=
  match f with
  | .builtin b => .mapFault .escaping (b.run ev fuel args)
  | .host name | .nameless name =>
    match host name with
    | some run => .mapFault .escaping (run ev args)
    | none => .fail (.unevaluable (.nonFunction (.native f)))

/-- The values of the arguments in order. A dotted end is found after all of them. -/
def operands (ev : Evaluator) : Datum → Run (List Datum)
  | .pair e rest => do
    let v ← ev e
    let vs ← operands ev rest
    pure (v :: vs)
  | .nil => pure []
  | _ => .fail (.badArguments .dottedPair)

/-- The body of a function in a frame that holds its parameters. Surplus values are ignored, and of
parameters with one name the last counts. -/
def body (ev : Evaluator) (params : List Text) (forms values : List Datum) : Run Datum :=
  Console.spawned (Bindings.empty.putAll (params.zip values)) (Arguments.sequence ev forms)

/-- Call an interpreted function. -/
def applyFunction (ev : Evaluator) (params : List Text) (forms : List Datum) (args : Datum) :
    Run Datum := do
  let values ← operands ev args
  if values.length < params.length then Run.fail (.badArguments .notEnough)
  else body ev params forms values

/-- One level of evaluation. -/
def step (ev : Evaluator) (fuel : Nat) : Datum → Run Datum
  | .symbol name => do Run.ofExcept ((← Run.env).lookup name)
  | .quoted d => pure d
  | .pair head args => do
    match ← ev head with
    | .native f => applyNative host ev fuel f args
    | .func params forms => applyFunction ev params forms args
    | .char _ => pure (.pair head args)
    | v => Run.fail (.unevaluable (.nonFunction v))
  | d => pure d

end Eval

/-- The value of an expression. -/
def eval (host : Host) : Nat → Datum → Run Datum
  | 0 => fun _ => Run.outOfFuel
  | fuel + 1 => Eval.step host (eval host fuel) fuel

/-- The value of the last of some expressions. -/
def evalAll (host : Host) (fuel : Nat) (forms : List Datum) : Run Datum :=
  Arguments.sequence (eval host fuel) forms

end FexprLisp
