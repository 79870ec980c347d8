import FexprLisp.Bindings
import FexprLisp.Fault

/-!
# Environments

An environment is a stack of local frames, innermost first, in front of a table of globals. A
global is defined once. An assignment goes to the nearest binding of its name and, when there is
none, makes a local in the innermost frame.

The empty name is what the printed form of an absent datum reads as; it looks up to `nil`.
-/

namespace FexprLisp

structure Env where
  frames : List Bindings
  globals : Bindings

namespace Env

/-- One empty frame over a table of globals. -/
def fresh (globals : Bindings) : Env := ⟨[.empty], globals⟩

/-- The value in the innermost frame that holds the name. -/
def local? (frames : List Bindings) (name : Text) : Option Datum :=
  frames.findSome? (·.find? name)

def find? (env : Env) (name : Text) : Option Datum :=
  (local? env.frames name).or (env.globals.find? name)

def isBound (env : Env) (name : Text) : Bool := (env.find? name).isSome

def lookup (env : Env) (name : Text) : Except Fault Datum :=
  if name = [] then .ok .nil
  else match env.find? name with
    | some d => .ok d
    | none => .error (.unevaluable (.unknownSymbol name))

def push (env : Env) : Env := { env with frames := .empty :: env.frames }

/-- Drop the innermost frame. -/
def pop (env : Env) : Env := { env with frames := env.frames.tail }

/-- Bind in the innermost frame; there may be none. -/
def bindLocal? (env : Env) (name : Text) (value : Datum) : Option Env :=
  match env.frames with
  | f :: fs => some { env with frames := f.put name value :: fs }
  | [] => none

def bindGlobal (env : Env) (name : Text) (value : Datum) : Except Fault Env :=
  if env.globals.holds name then .error (.unevaluable (.globalExists name))
  else .ok { env with globals := env.globals.put name value }

/-- Change the innermost frame that holds the name. -/
def assignLocal? (name : Text) (value : Datum) : List Bindings → Option (List Bindings)
  | [] => none
  | f :: fs =>
    if f.holds name then some (f.put name value :: fs)
    else (assignLocal? name value fs).map (f :: ·)

def assign? (env : Env) (name : Text) (value : Datum) : Option Env :=
  match assignLocal? name value env.frames with
  | some frames => some { env with frames }
  | none =>
    if env.globals.holds name then some { env with globals := env.globals.put name value }
    else env.bindLocal? name value

/-- The names of each frame, innermost first, and the number of globals. -/
def text (env : Env) : Text :=
  let frame (b : Bindings) : Text := '\x7b' :: ", ".toList.intercalate b.names ++ ['\x7d']
  " -> ".toList.intercalate (env.frames.map frame) ++
    " -> <".toList ++ natText env.globals.size ++ " globals>".toList

def rawText (env : Env) : Text := "<Environment ".toList ++ env.text ++ ['>']

end Env

end FexprLisp
