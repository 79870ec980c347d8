import FexprLisp.CommandLine

/-!
The program on a real console. A run is a function of the files and the input that it has been
given, so the program is run on what is known so far; when it asks for a file that was not looked at
or for a line that was not read, that is fetched and it is run again. What it has written is a
beginning of what it writes with more to read, so only the new part is shown.
-/

open FexprLisp

namespace FexprLisp.Terminal

/-- The answer for a path that was not looked at yet. -/
def notFetched : FileFault := .other 11 "Resource temporarily unavailable".toList

/-- The bound on nesting and on the rounds of a loop. -/
def fuel : Nat := 1000000000

def entryOfError : IO.Error → Entry
  | .noFileOrDirectory _ _ _ => .absent .missing
  | .inappropriateType _ 21 _ => .directory
  | .inappropriateType _ _ _ => .absent .notDirectory
  | .invalidArgument _ _ _ => .absent .nameTooLong
  | .permissionDenied _ _ _ => .absent (.other 13 "Permission denied".toList)
  | _ => .absent (.other 5 "Input/output error".toList)

/-- Look at a path on the disk. -/
def fetch (path : Text) : IO Entry := do
  try return .file (← IO.FS.readBinFile (String.ofList path))
  catch e => return entryOfError e

def settings : IO Settings := do
  let get (name : String) : IO (Option Text) := do return (← IO.getEnv name).map String.toList
  return ⟨← get "LITHIA_PATH", ← get "LITHIA_PROMPT", ← get "LITHIA_LOG_LEVEL"⟩

/-- What has been fetched, and how much of the output has been shown. -/
structure Known where
  entries : List (Text × Entry)
  input : Text
  ended : Bool
  shown : Nat

def world (s : Settings) (k : Known) : World where
  settings := s
  entry path := (k.entries.lookup path).getD (.absent notFetched)
  input := k.input
  output := []
  log := []

/-- Show a text at once. -/
def emit (t : Text) : IO Unit := do
  let out ← IO.getStdout
  out.putStr (String.ofList t)
  out.flush

/-- Show the rest of what was written and give the status of the process. -/
def finish (e : CommandLine.Ending) (shown : Nat) : IO UInt32 := do
  emit (e.output.drop shown)
  (← IO.getStderr).putStr (String.ofList e.errors)
  match e.result with
  | .ok status | .error (.exit status) => return (status % 256).toNat.toUInt32
  | .error .undecodable =>
    IO.eprintln "invalid UTF-8"
    return 1
  | .error _ =>
    IO.eprintln "embedded null byte"
    return 1

/-- Run a program, fetching what it asks for, until it ends. -/
partial def drive (s : Settings) (file : Option Text) (k : Known) : IO UInt32 := do
  match CommandLine.execute .empty fuel file (world s k) with
  | none =>
    IO.eprintln "out of fuel"
    return 1
  | some (r, w) =>
    match r with
    | .error (.file ⟨.other 11 _, path⟩) =>
      drive s file { k with entries := (path, ← fetch path) :: k.entries }
    | .error .endOfInput =>
      if k.ended then finish (CommandLine.ending r w) k.shown
      else
        emit (w.output.drop k.shown)
        let line ← (← IO.getStdin).getLine
        drive s file { k with
          input := k.input ++ unifyNewlines line.toList
          ended := line.isEmpty
          shown := w.output.length }
    | r => finish (CommandLine.ending r w) k.shown

end FexprLisp.Terminal

def main (words : List String) : IO UInt32 := do
  let words := words.map String.toList
  match CommandLine.parse words with
  | .run file => FexprLisp.Terminal.drive (← FexprLisp.Terminal.settings) file ⟨[], [], false, 0⟩
  | _ =>
    let nowhere : World := FexprLisp.Terminal.world .none ⟨[], [], true, 0⟩
    match CommandLine.run .empty 0 words nowhere with
    | some e => FexprLisp.Terminal.finish e 0
    | none => return 1
