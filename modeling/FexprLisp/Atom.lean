import FexprLisp.Fault
import FexprLisp.Number.Numeral

/-!
The datum that an atom or a string token stands for. A numeral is a number unless it holds an
underscore; a backslash and one character are that character; a text between double quotes is a
string; anything else is a symbol, except that no symbol begins with a semicolon.
-/

namespace FexprLisp

/-- A backslash that no escape begins with: before a strange letter, or at the end of a body. -/
structure UnknownEscape where
  letter : Option Char
  deriving DecidableEq

def UnknownEscape.message (e : UnknownEscape) : Text :=
  "Unknown escape: \\".toList ++ e.letter.toList

/-- The character that a letter stands for after a backslash. -/
def unescapedChar? (letter : Char) : Option Char :=
  (stringEscapes.find? fun e => e.2 = letter).map (·.1)

/-- Expand the escapes in the body of a string. -/
def unescape : Text → Except UnknownEscape Text
  | [] => .ok []
  | ['\\'] => .error ⟨none⟩
  | '\\' :: letter :: r =>
    match unescapedChar? letter with
    | some c => (unescape r).map (c :: ·)
    | none => .error ⟨some letter⟩
  | c :: r => (unescape r).map (c :: ·)

/-- The body of a text between double quotes. -/
def literalBody? (t : Text) : Option Text :=
  match t with
  | '"' :: r => if r.getLast? = some '"' then some r.dropLast else none
  | _ => none

/-- The number that an atom stands for. -/
def atomNumber? (t : Text) : Option Single :=
  if '_' ∈ t then none else singleOfText? t

def parseAtom (t : Text) : Except Fault Datum :=
  let unparsable : Except Fault Datum := .error (.unreadable (.unparsableAtom t))
  if t = [] then unparsable
  else match atomNumber? t with
    | some v => .ok (.number v)
    | none =>
      match t with
      | ['\\', c] => .ok (.char c)
      | _ =>
        match literalBody? t with
        | some body =>
          match unescape body with
          | .ok cs => .ok (.ofText cs)
          | .error _ => unparsable
        | none => if t.head? = some ';' then unparsable else .ok (.symbol t)

end FexprLisp
