import FexprLisp.Interpreter

/-!
# The command line

The command takes `[-h] [file]` and runs a file, or a loop that reads, evaluates and prints. A
fault or a file error is told in red and gives status one; the end of the input ends the program in
good order. Every other end is left to the caller.
-/

namespace FexprLisp

namespace CommandLine

/-- What one word before a `--` is. -/
inductive Word where
  | operand
  | unknown
  | help
  | misused (value : Text)

/-- A minus sign, digits, and possibly a point with digits after it. -/
def isNegativeNumber (w : Text) : Bool :=
  match w with
  | '-' :: r =>
    let r := if r.getLast? = some '\n' then r.dropLast else r
    match Numeral.spanDigits r with
    | (_ :: _, []) => true
    | (_, '.' :: r) =>
      match Numeral.spanDigits r with
      | (_ :: _, []) => true
      | _ => false
    | _ => false
  | _ => false

/-- The letters of a word after `-h`. The only letter that is an option is `h`; from the first
other character on they are a value, which is refused. -/
def shortOptions : Text → Word
  | [] => .help
  | 'h' :: r => shortOptions r
  | value => .misused value

def classify (w : Text) : Word :=
  let (name, value) := w.span (· ≠ '=')
  match w with
  | ['-'] => .operand
  | '-' :: '-' :: _ =>
    if name.isPrefixOf "--help".toList then
      match value with
      | _ :: value => .misused value
      | [] => .help
    else if ' ' ∈ w then .operand else .unknown
  | ['-', 'h', '='] => .misused []
  | '-' :: 'h' :: '=' :: r => shortOptions r
  | '-' :: 'h' :: r => shortOptions r
  | '-' :: _ => if isNegativeNumber w ∨ ' ' ∈ w then .operand else .unknown
  | _ => .operand

inductive Request where
  | run (file : Option Text)
  | help
  | misuse (message : Text)

/-- The words before a `--`, the first operand among them being the file. The flag tells whether
the last word was the file. -/
def front (file : Option Text) (isLast : Bool) (extras : List Text) :
    List Text → Except Request (Option Text × Bool × List Text)
  | [] => .ok (file, isLast, extras)
  | w :: ws =>
    match classify w, file with
    | .operand, none => front (some w) true extras ws
    | .operand, some _ => front file false (extras ++ [w]) ws
    | .unknown, _ => front file false (extras ++ [w]) ws
    | .help, _ => .error .help
    | .misused value, _ =>
      .error (.misuse ("argument -h/--help: ignored explicit argument ".toList ++ quotedText value))

/-- The words after a `--` are operands. The `--` itself counts as a word only when the file came
earlier than right before it. -/
def back (file : Option Text) (isLast : Bool) (extras : List Text) :
    List Text → Option Text × List Text
  | [] => (file, extras)
  | dashes :: ws =>
    match file, isLast, ws with
    | none, _, w :: ws => (some w, extras ++ ws)
    | none, _, [] => (none, extras)
    | some f, true, ws => (some f, extras ++ ws)
    | some f, false, ws => (some f, extras ++ dashes :: ws)

def parse (words : List Text) : Request :=
  let (before, after) := words.span (· ≠ "--".toList)
  match front none false [] before with
  | .error r => r
  | .ok (file, isLast, extras) =>
    match back file isLast extras after with
    | (file, []) => .run file
    | (_, extras) => .misuse ("unrecognized arguments: ".toList ++ [' '].intercalate extras)

def usage : Text := "usage: lithia [-h] [file]\n".toList

def helpText : Text :=
  usage ++ "\nRun a lithia program, or start a REPL.\n\npositional arguments:\n".toList ++
    "  file        source file to run\n\noptions:\n".toList ++
    "  -h, --help  show this help message and exit\n".toList

/-- How a run of the program ends, and what it has written. -/
structure Ending where
  result : Except Stop Int
  output : Text
  errors : Text

/-- The program that runs when no file is given. -/
def loopProgram : Text := "(while t (print (eval (read))))".toList

/-- Fetch the program, register the default names and evaluate. -/
def program (host : Host) (fuel : Nat) (file : Option Text) : Run Datum := do
  let w ← Run.world
  let code ← match file with
    | some name => Run.ofStop (w.readFile (Path.ofText name))
    | none => pure loopProgram
  Interpreter.registerDefaults
  Interpreter.evalText host fuel code

/-- A message in red, on a line of its own. -/
def alarm (message : Text) : Text := "\x1b[31m".toList ++ message ++ "\x1b[0m\n".toList

/-- What the end of the evaluation means for the process: a status and a last word, or the end
itself. -/
def conclude : Except Stop Datum → Except Stop Int × Text
  | .ok _ => (.ok 0, [])
  | .error (.fault f) => (.ok 1, alarm f.message)
  | .error (.file e) => (.ok 1, alarm e.message)
  | .error .endOfInput => (.ok 0, ['\n'])
  | .error e => (.error e, [])

/-- A program run from an empty environment; `none` is out of fuel. -/
def execute (host : Host) (fuel : Nat) (file : Option Text) (w : World) :
    Option (Except Stop Datum × World) :=
  (program host fuel file ⟨.fresh .empty, w⟩).map fun (r, m) => (r, m.world)

def ending (r : Except Stop Datum) (w : World) : Ending :=
  let (result, lastWord) := conclude r
  ⟨result, w.output ++ lastWord, w.logText⟩

/-- The whole command. -/
def run (host : Host) (fuel : Nat) (words : List Text) (w : World) : Option Ending :=
  match parse words with
  | .help => some ⟨.error (.exit 0), helpText, []⟩
  | .misuse message =>
    some ⟨.error (.exit 2), [], usage ++ "lithia: error: ".toList ++ message ++ ['\n']⟩
  | .run file => (execute host fuel file w).map fun (r, w) => ending r w

end CommandLine

end FexprLisp
