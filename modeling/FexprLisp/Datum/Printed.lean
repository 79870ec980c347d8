import FexprLisp.Datum
import FexprLisp.Number.Shortest

/-!
The printed form, which the reader understands for data that came from it. A string is written
between double quotes with six characters escaped; any other chain goes between parentheses, with a
point before a terminator other than `nil`.
-/

namespace FexprLisp

/-- The characters that are written with a backslash inside a string, and their letters. -/
def stringEscapes : List (Char × Char) :=
  [ ('\\', '\\'), ('"', '"'), ('\t', 't'), ('\r', 'r'), ('\n', 'n'), ('\x00', '0') ]

def escapedChar (c : Char) : Text :=
  match stringEscapes.lookup c with
  | some letter => ['\\', letter]
  | none => [c]

def stringLiteral (t : Text) : Text := '"' :: t.flatMap escapedChar ++ ['"']

namespace Datum

/-- The forms that hold no other datum to print. -/
def printedAtom : Datum → Text
  | nil => "()".toList
  | truth => ['t']
  | number v => numberText v
  | char c => ['\\', c]
  | symbol name => name
  | func params _ => "<function (".toList ++ [' '].intercalate params ++ ")>".toList
  | native f => "<native function ".toList ++ f.name ++ ['>']
  | payload label => "<opaque ".toList ++ label ++ ['>']
  | quoted _ => []
  | pair _ _ => []

mutual
/-- The printed form. -/
def printed : Datum → Text
  | pair h t =>
    match text? (pair h t) with
    | some cs => stringLiteral cs
    | none => '(' :: (printed h ++ printedTail t)
  | quoted d => '\'' :: printed d
  | d => printedAtom d

/-- The rest of a list whose first element is written. -/
def printedTail : Datum → Text
  | nil => [')']
  | pair h t => ' ' :: (printed h ++ printedTail t)
  | quoted d => " . '".toList ++ printed d ++ [')']
  | d => " . ".toList ++ printedAtom d ++ [')']
end

example : printed (chain [symbol ['a'], ofText "b\"".toList] truth) =
    "(a \"b\\\"\" . t)".toList := by
  decide +kernel

end Datum

end FexprLisp
