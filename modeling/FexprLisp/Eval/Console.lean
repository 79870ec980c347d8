import FexprLisp.Eval.Arguments
import FexprLisp.Reader

/-!
The builtins that deal with the outside world: printing, reading a line, including a file, and
leaving the program.
-/

namespace FexprLisp

namespace Console

open Arguments

def newline (t : Text) : Text := t ++ ['\n']

/-- `(print x)`. -/
def print (ev : Evaluator) (args : Datum) : Run Datum := do
  let v ← ev (← one args)
  Run.write (newline v.printed)
  pure .nil

/-- `(print-raw x)`. -/
def printRaw (ev : Evaluator) (args : Datum) : Run Datum := do
  let v ← ev (← one args)
  Run.write (newline v.raw)
  pure .nil

/-- The variable that holds the prompt of reads without one. -/
def promptName : Text := "PROMPT".toList

/-- A character is followed by a space, a string is taken as it is, and `nil` is the configured
prompt. -/
def promptText (settings : Settings) : Datum → Except Fault Text
  | .char c => .ok [c, ' ']
  | .nil => .ok settings.promptText
  | d =>
    match d.text? with
    | some t => .ok t
    | none => .error (.invalidArguments .wrongType)

/-- Write a prompt and take the next line of the input. -/
def readLine (prompt : Text) : Run Text := do
  Run.write prompt
  let w ← Run.world
  match nextLine? w.input with
  | some (line, input) =>
    Run.setWorld { w with input }
    pure line
  | none => Run.stop .endOfInput

/-- The prompt of a read that is given none: the value of the prompt variable if it is bound. -/
def defaultPrompt : Run Datum := do
  let env ← Run.env
  if env.isBound promptName then Run.ofExcept (env.lookup promptName) else pure .nil

/-- `(read [prompt])`: the first form on the next line, or `nil`. The whole line has to be
readable. -/
def read (ev : Evaluator) (args : Datum) : Run Datum := do
  let prompt ← match ← optional args with
    | some e => ev e
    | none => defaultPrompt
  let w ← Run.world
  let line ← readLine (← Run.ofExcept (promptText w.settings prompt))
  let forms ← Run.ofExcept (FexprLisp.read line)
  pure (forms.headD .nil)

/-- Log that a new stack of frames is set up over the globals. -/
def spawnNote : Run Unit := do
  let env ← Run.env
  Run.note .environment
    ("spawning evaluator over ".toList ++ natText env.globals.size ++ " globals".toList)

/-- Evaluation in one frame of its own over the globals. -/
def spawned (frame : Bindings) (x : Run Datum) : Run Datum := do
  spawnNote
  Run.withFrames [frame] x

/-- `(include "file")`: the value of the last form of a file. -/
def includeFile (ev : Evaluator) (args : Datum) : Run Datum := do
  let name ← ev (← one args)
  if name.isString then
    let w ← Run.world
    let path ← Run.ofStop (w.resolve (name.text?.getD []))
    Run.note .system ("including ".toList ++ path.text)
    let source ← Run.ofStop (w.readFile path)
    let forms ← Run.ofExcept (FexprLisp.read source)
    spawned .empty (sequence ev forms)
  else Run.reject .wrongType

/-- Statuses are below this bound and not below its negative. -/
def statusBound : Int := 2147483648

/-- A number as an exit status: truncated, and kept within thirty-two bits. -/
def status : Single → Int
  | .nan => 0
  | .real neg k =>
    let n : Nat := Grid.single.units k / Grid.single.one
    if neg then max (-statusBound) (-n) else min (statusBound - 1) n

/-- `(exit [status])`. -/
def exit (ev : Evaluator) (args : Datum) : Run Datum := do
  let code ← match ← optional args with
    | some e => do pure (status (← number ev e))
    | none => pure 0
  Run.note .system ("exit requested with status ".toList ++ intText code)
  Run.stop (.exit code)

end Console

end FexprLisp
