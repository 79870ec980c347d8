import FexprLisp.Datum.Printed
import FexprLisp.Fault
import FexprLisp.Number.Numeral

/-!
Data that a host makes from texts, and what can go wrong on the way.
-/

namespace FexprLisp

inductive BuildError where
  | notOneCharacter (t : Text)
  | notNumeral (t : Text)
  | notString (d : Datum)
  | notCallable
  | noForm
  | unreadable (f : Fault)

namespace BuildError

/-- The errors that carry a message of their own. -/
def message? : BuildError → Option Text
  | notOneCharacter t => some ("Character requires a single character, got ".toList ++ quotedText t)
  | notNumeral t => some ("could not convert string to float: ".toList ++ quotedText t)
  | notString d => some ("Not a character list: ".toList ++ d.printed)
  | notCallable => none
  | noForm => none
  | unreadable _ => none

end BuildError

namespace Host

def character (t : Text) : Except BuildError Datum :=
  match t with
  | [c] => .ok (.char c)
  | _ => .error (.notOneCharacter t)

def number (t : Text) : Except BuildError Datum :=
  match singleOfText? t with
  | some v => .ok (.number v)
  | none => .error (.notNumeral t)

/-- The characters of a string; `nil` is the empty one. -/
def textOf (d : Datum) : Except BuildError Text :=
  match d.text? with
  | some t => .ok t
  | none => .error (.notString d)

end Host

end FexprLisp
