import FexprLisp.Interpreter

/-!
# Sessions

A host may keep several interpreters over one world. Each has frames of its own and one of the
session's tables of globals, which interpreters can share. A command runs on one interpreter; a
fault or an exit ends the command and not the session, and what was done before it stays.
-/

namespace FexprLisp

structure Interpreter where
  frames : List Bindings
  table : Nat

structure Session where
  tables : List Bindings
  interpreters : List (Text × Interpreter)
  world : World

namespace Session

/-- The groups of default names that a host can register. -/
inductive Library where
  | standard | maths | system | all
  deriving DecidableEq

inductive Command where
  | evalText (code : Text)
  | readText (code : Text)
  | evaluate (d : Datum)
  | evaluateAll (ds : List Datum)
  | addVariable (name : Text) (value : Datum) (isGlobal : Bool)
  | addLibrary (library : Library)
  | push
  | pop
  | bind (name : Text) (value : Datum) (isGlobal : Bool)
  | assign (name : Text) (value : Datum)
  | lookup (name : Text)
  | isBound (name : Text)
  | frames
  | globals
  | spawn (name : Text)
  | create (name : Text) (defaults : Bool) (share : Option Text)

inductive Reply where
  | value (d : Datum)
  | forms (ds : List Datum)
  | registered
  | done
  | flag (b : Bool)
  | frames (outermostFirst : List Bindings) (rawText : Text)
  | globals (sorted : List (Text × Datum))
  | stopped (e : Stop)
  | noInterpreter

def interpreter? (s : Session) (name : Text) : Option Interpreter := s.interpreters.lookup name

/-- Put an interpreter under a name, in place of the one that had it. -/
def setInterpreter (s : Session) (name : Text) (i : Interpreter) : Session :=
  { s with interpreters := (name, i) :: s.interpreters.filter (·.1 ≠ name) }

def env (s : Session) (i : Interpreter) : Env := ⟨i.frames, s.tables.getD i.table .empty⟩

/-- The environment of a named interpreter. -/
def env? (s : Session) (name : Text) : Option Env := (s.interpreter? name).map s.env

/-- Run a computation on one interpreter and keep what it leaves. -/
def runOn {α : Type} (s : Session) (name : Text) (i : Interpreter) (x : Run α) :
    Option (Except Stop α × Session) :=
  (x ⟨s.env i, s.world⟩).map fun (r, m) =>
    (r, { (s.setInterpreter name { i with frames := m.env.frames }) with
      tables := s.tables.set i.table m.env.globals
      world := m.world })

def registerLibrary : Library → Run Unit
  | .standard => Interpreter.register Interpreter.standardNames
  | .maths => Interpreter.register Interpreter.mathsNames
  | .system => Interpreter.register Interpreter.systemNames
  | .all => Interpreter.registerDefaults

/-- Texts in the order of their code points. -/
def textLe : Text → Text → Bool
  | [], _ => true
  | _ :: _, [] => false
  | a :: s, b :: t => a.toNat < b.toNat || (a = b && textLe s t)

def sortedGlobals (b : Bindings) : List (Text × Datum) :=
  b.entries.mergeSort fun e e' => textLe e.1 e'.1

/-- The commands that stay within one interpreter. -/
def command (host : Host) (fuel : Nat) : Command → Run Reply
  | .evalText code => .value <$> Interpreter.evalText host fuel code
  | .readText code => .forms <$> Run.ofExcept (FexprLisp.read code)
  | .evaluate d => .value <$> eval host fuel d
  | .evaluateAll ds => .value <$> evalAll host fuel ds
  | .addVariable name value isGlobal => do
    Interpreter.bind name value isGlobal
    pure .registered
  | .addLibrary l => do
    registerLibrary l
    pure .registered
  | .push => do
    Run.setEnv (← Run.env).push
    pure .done
  | .pop => do
    let env ← Run.env
    if env.frames.isEmpty then Run.stop .noFrame
    else
      Run.setEnv env.pop
      pure .done
  | .bind name value isGlobal => do
    Interpreter.bind name value isGlobal
    pure .done
  | .assign name value => do
    Forms.assignTo name value
    pure .done
  | .lookup name => do .value <$> Run.ofExcept ((← Run.env).lookup name)
  | .isBound name => do pure (.flag ((← Run.env).isBound name))
  | .frames => do
    let env ← Run.env
    pure (.frames env.frames.reverse env.rawText)
  | .globals => do pure (.globals (sortedGlobals (← Run.env).globals))
  | .spawn _ | .create _ _ _ => pure .done

/-- A new interpreter on a table. It is there only if the default names could be registered. -/
def create (s : Session) (name : Text) (table : Nat) (defaults : Bool) : Option (Reply × Session) :=
  let fresh : Interpreter := ⟨[.empty], table⟩
  if defaults then
    match Interpreter.registerDefaults ⟨s.env fresh, s.world⟩ with
    | none => none
    | some (r, m) =>
      let s' := { s with tables := s.tables.set table m.env.globals, world := m.world }
      match r with
      | .ok () => some (.done, s'.setInterpreter name { fresh with frames := m.env.frames })
      | .error e => some (.stopped e, s')
  else some (.done, s.setInterpreter name fresh)

/-- Create an interpreter on the table of another one, or on a new table. -/
def createSharing (s : Session) (name : Text) (defaults : Bool) (share : Option Text) :
    Option (Reply × Session) :=
  match share.bind s.interpreter? with
  | some i => create s name i.table defaults
  | none => create { s with tables := s.tables ++ [.empty] } name s.tables.length defaults

/-- Carry out a command on a named interpreter; `none` is out of fuel. -/
def perform (host : Host) (fuel : Nat) (s : Session) (name : Text) (c : Command) :
    Option (Reply × Session) :=
  match s.interpreter? name with
  | none => some (.noInterpreter, s)
  | some i =>
    match c with
    | .spawn child => (runOn s name i (Console.spawnNote)).map fun (_, s) =>
        (.done, s.setInterpreter child ⟨[.empty], i.table⟩)
    | .create child defaults share => createSharing s child defaults share
    | c => (runOn s name i (command host fuel c)).map fun (r, s) =>
      match r with
      | .ok reply => (reply, s)
      | .error e => (.stopped e, s)

def mainName : Text := "main".toList

/-- A session with one interpreter, called `main`. -/
def start (defaults : Bool) (w : World) : Option (Reply × Session) :=
  createSharing ⟨[], [], w⟩ mainName defaults none

end Session

end FexprLisp
