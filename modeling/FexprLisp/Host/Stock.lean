import FexprLisp.Eval

/-!
Host functions that every embedding can use: they show the argument list as it arrives, evaluate
what they are asked to, and complain.
-/

namespace FexprLisp

namespace Host

open Arguments

/-- The argument list itself. -/
def capture : HostFunction := fun _ args => pure args

/-- The value of the one argument. -/
def ev : HostFunction := fun evaluate args => do evaluate (← one args)

/-- The sum of the arguments, from zero. -/
def total : HostFunction := fun evaluate args => Values.fold evaluate .add (some (.zero false)) args

/-- The values of the arguments as a list. -/
def listof : HostFunction := fun evaluate args => do
  let items ← Run.ofExcept (split args 0 none)
  pure (.ofList (← values evaluate items))

/-- Arguments of a wrong type, whatever they are. -/
def bad : HostFunction := fun _ _ => Run.reject .wrongType

def anonymousLabel : Text := "anonymous-callable".toList

/-- A function without a name of its own. -/
def anonymous : HostFunction := fun _ _ => pure .nil

def stockFunctions : List (Text × HostFunction) :=
  [ ("capture".toList, capture), ("ev".toList, ev), ("total".toList, total),
    ("listof".toList, listof), ("bad".toList, bad), (anonymousLabel, anonymous) ]

def stock : Host := fun name => stockFunctions.lookup name

/-- A stock function as a value. -/
def function? (name : Text) : Option Native :=
  if name = "anonymous".toList then some (.nameless anonymousLabel)
  else if (stock name).isSome && name ≠ anonymousLabel then some (.host name)
  else none

end Host

end FexprLisp
