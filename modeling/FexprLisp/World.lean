import FexprLisp.Env
import FexprLisp.Path
import FexprLisp.Text.Blank
import FexprLisp.Text.Lines

/-!
# The outside world

What a program can see of its surroundings: the settings, the files, the rest of its input; and
what it leaves there: its output and the log. Files are given by any function from paths to entries.
-/

namespace FexprLisp

structure Settings where
  includePath : Option Text
  prompt : Option Text
  logLevel : Option Text

/-- Why there is nothing to read at a path. -/
inductive FileFault where
  | missing | notDirectory | isDirectory | nameTooLong
  | other (code : Nat) (reason : Text)
  deriving DecidableEq

structure FileError where
  fault : FileFault
  path : Text
  deriving DecidableEq

inductive Entry where
  | file (bytes : ByteArray)
  | directory
  | absent (fault : FileFault)

/-- The parts of an interpreter that log what they do. -/
inductive LogSource where
  | interpreter | environment | system
  deriving DecidableEq

structure LogRecord where
  source : LogSource
  message : Text

structure World where
  settings : Settings
  entry : Text → Entry
  input : Text
  output : Text
  log : List LogRecord

/-- The ways a computation ends without a value. -/
inductive Stop where
  | fault (f : Fault)
  | exit (status : Int)
  | endOfInput
  | file (e : FileError)
  | nulInPath
  | undecodable
  | noFrame

namespace FileFault

def code : FileFault → Nat
  | missing => 2
  | notDirectory => 20
  | isDirectory => 21
  | nameTooLong => 36
  | other code _ => code

def reason : FileFault → Text
  | missing => "No such file or directory".toList
  | notDirectory => "Not a directory".toList
  | isDirectory => "Is a directory".toList
  | nameTooLong => "File name too long".toList
  | other _ reason => reason

/-- The codes of a missing entry, a bad descriptor, a part that is no directory and a loop of
links. -/
def missingCodes : List Nat := [2, 9, 20, 40]

/-- Whether a fault only says that there is nothing at a path. -/
def meansMissing (f : FileFault) : Bool := missingCodes.contains f.code

end FileFault

def FileError.message (e : FileError) : Text :=
  "[Errno ".toList ++ natText e.fault.code ++ "] ".toList ++ e.fault.reason ++ ": ".toList ++
    quotedText e.path

namespace Settings

def none : Settings := ⟨.none, .none, .none⟩

def defaultPrompt : Text := "> ".toList

def promptText (s : Settings) : Text := s.prompt.getD defaultPrompt

/-- The entries of a search path. A path that is unset or empty gives the defaults. -/
def paths (raw : Option Text) (defaults : List Text) : List Path :=
  match raw with
  | .none | some [] => defaults.map Path.ofText
  | some t => (((splitAt ':' t).map (trim isBlank)).filter (· ≠ [])).map Path.ofText

/-- Where included files are looked for after the place they name. -/
def roots (s : Settings) : List Path := paths s.includePath []

/-- Upper case of the characters that have a single Latin letter for it. -/
def upper (c : Char) : Char :=
  if c = 'ı' then 'I' else if c = 'ſ' then 'S' else c.toUpper

def levelNames : List (Text × Nat) :=
  [ ("CRITICAL".toList, 50), ("FATAL".toList, 50), ("ERROR".toList, 40), ("WARNING".toList, 30),
    ("WARN".toList, 30), ("INFO".toList, 20), ("DEBUG".toList, 10), ("NOTSET".toList, 0) ]

/-- The level of a log record of this library. -/
def debugLevel : Nat := 10

def warningLevel : Nat := 30

/-- The least level that is logged. -/
def level (s : Settings) : Nat :=
  match s.logLevel with
  | .none => warningLevel
  | some t => (levelNames.lookup (t.map upper)).getD warningLevel

end Settings

/-- The name of a source in the log. -/
def LogSource.name : LogSource → Text
  | interpreter => "lithia.interpreter".toList
  | environment => "lithia.types.environment".toList
  | system => "lithia.builtin.sys_builtin".toList

def LogRecord.line (r : LogRecord) : Text :=
  "DEBUG:".toList ++ r.source.name ++ ':' :: r.message ++ ['\n']

namespace World

/-- A path is there unless it is missing, which may show as a loop of links or a bad descriptor too.
Other trouble on the way is an error of its own. -/
def exists? (w : World) (p : Path) : Except Stop Bool :=
  if '\x00' ∈ p.text then .ok false
  else match w.entry p.text with
    | .file _ | .directory => .ok true
    | .absent f => if f.meansMissing then .ok false else .error (.file ⟨f, p.text⟩)

/-- The first of some candidates that is there. -/
def firstExisting? (w : World) : List Path → Except Stop (Option Path)
  | [] => .ok none
  | p :: ps =>
    match w.exists? p with
    | .ok true => .ok (some p)
    | .ok false => firstExisting? w ps
    | .error e => .error e

/-- A file to include is where its name says or under one of the roots. Where it is nowhere the
name itself is the answer, and opening it fails. -/
def resolve (w : World) (name : Text) : Except Stop Path :=
  let p := Path.ofText name
  if p.isAbsolute then .ok p
  else match w.firstExisting? (p :: w.settings.roots.map (·.join p)) with
    | .ok found => .ok (found.getD p)
    | .error e => .error e

def readFile (w : World) (p : Path) : Except Stop Text :=
  if '\x00' ∈ p.text then .error .nulInPath
  else match w.entry p.text with
    | .file bytes =>
      match decodeText? bytes with
      | some t => .ok t
      | none => .error .undecodable
    | .directory => .error (.file ⟨.isDirectory, p.text⟩)
    | .absent f => .error (.file ⟨f, p.text⟩)

def write (w : World) (t : Text) : World := { w with output := w.output ++ t }

def note (w : World) (source : LogSource) (message : Text) : World :=
  { w with log := w.log ++ [⟨source, message⟩] }

/-- The lines of the log that the settings let through. -/
def logText (w : World) : Text :=
  if w.settings.level ≤ Settings.debugLevel then w.log.flatMap LogRecord.line else []

end World

end FexprLisp
