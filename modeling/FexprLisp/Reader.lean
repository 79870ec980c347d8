import FexprLisp.Token
import FexprLisp.Atom

/-!
# The reader

The reader takes tokens one at a time. Its state is the stack of forms that are begun and not
finished; a token finishes a form, begins one, or is refused. A refused token is left for whoever
reads next, while an atom that stands for no datum is used up.

Inside a list a lone point introduces the terminator, which is an atom, a string or a list; outside
a list a point is a symbol.
-/

namespace FexprLisp

namespace Reader

/-- A form that is begun: a quotation, a list, or a list whose point has been read. The elements
read so far are kept in reverse. -/
inductive Pending where
  | quotation
  | list (reversed : List Datum)
  | tail (reversed : List Datum)

/-- `closing` is a list with its terminator read, which lacks only the parenthesis. -/
inductive State where
  | waiting (stack : List Pending)
  | closing (reversed : List Datum) (terminator : Datum) (stack : List Pending)

inductive Move where
  | next (s : State)
  | finish (d : Datum)
  | spoil (f : Fault)
  | refuse (f : Fault)

/-- Nothing is begun. -/
def idle : State := .waiting []

/-- Hand a finished form to the form around it. -/
def settle (d : Datum) : List Pending → Move
  | [] => .finish d
  | .quotation :: stack => settle (.quoted d) stack
  | .list reversed :: stack => .next (.waiting (.list (d :: reversed) :: stack))
  | .tail reversed :: stack => .next (.closing reversed d stack)

def invalid (t : Token) : Move := .refuse (.unreadable (.invalidToken t.text))

/-- A token where a form has to begin. -/
def begin (stack : List Pending) (t : Token) : Move :=
  match t.kind with
  | .quote => .next (.waiting (.quotation :: stack))
  | .lparen => .next (.waiting (.list [] :: stack))
  | .rparen => invalid t
  | .atom | .string =>
    match parseAtom t.text with
    | .ok d => settle d stack
    | .error f => .spoil f

/-- The point of a dotted list; a string that reads `.` is none. -/
def isPoint (t : Token) : Bool := t.kind = .atom && t.text = ['.']

def State.move : State → Token → Move
  | .closing reversed d stack, t =>
    if t.kind = .rparen then settle (.chain reversed.reverse d) stack else invalid t
  | .waiting [], t => begin [] t
  | .waiting (.quotation :: stack), t =>
    if t.kind = .rparen then .refuse (.unreadable .emptyQuote)
    else begin (.quotation :: stack) t
  | .waiting (.list reversed :: stack), t =>
    if t.kind = .rparen then settle (.ofList reversed.reverse) stack
    else if isPoint t then
      if reversed.isEmpty then invalid t else .next (.waiting (.tail reversed :: stack))
    else begin (.list reversed :: stack) t
  | .waiting (.tail reversed :: stack), t =>
    if t.kind = .rparen ∨ t.kind = .quote ∨ t.text = ['.'] then invalid t
    else begin (.tail reversed :: stack) t

/-- What is wrong when the tokens end in a state. -/
def State.atEnd : State → Option Fault
  | .waiting [] => none
  | .waiting (.quotation :: _) => some (.unreadable .emptyQuote)
  | _ => some (.unreadable (.unmatchedToken ['(']))

/-- The forms that were read, and the fault that ended the reading early. -/
structure Reading where
  forms : List Datum
  fault : Option Fault

def Reading.push (d : Datum) (r : Reading) : Reading := ⟨d :: r.forms, r.fault⟩

/-- Read all forms of a token list. At its end a fault of the lexer comes before one of the
state. -/
def State.forms (s : State) (lexFault : Option Fault) : List Token → Reading
  | [] => ⟨[], lexFault <|> s.atEnd⟩
  | t :: ts =>
    match s.move t with
    | .next s' => s'.forms lexFault ts
    | .finish d => (idle.forms lexFault ts).push d
    | .spoil f => ⟨[], some f⟩
    | .refuse f => ⟨[], some f⟩

end Reader

/-- The forms of a text up to its first fault. -/
def readForms (s : Text) : Reader.Reading :=
  let l := lex s
  Reader.idle.forms l.fault? l.tokens

/-- Every form of a text, or the first fault in it. -/
def read (s : Text) : Except Fault (List Datum) :=
  match readForms s with
  | ⟨forms, none⟩ => .ok forms
  | ⟨_, some f⟩ => .error f

end FexprLisp
