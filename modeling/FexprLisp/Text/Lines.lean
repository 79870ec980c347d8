import FexprLisp.Text.Basic

/-!
Text from outside: bytes are UTF-8, and a carriage return, with or without a newline after it, ends
a line like a newline does.
-/

namespace FexprLisp

/-- Every line end as a newline. -/
def unifyNewlines : Text → Text
  | '\r' :: '\n' :: r => '\n' :: unifyNewlines r
  | '\r' :: r => '\n' :: unifyNewlines r
  | c :: r => c :: unifyNewlines r
  | [] => []

def decodeText? (bytes : ByteArray) : Option Text :=
  (String.fromUTF8? bytes).map fun s => unifyNewlines s.toList

/-- The first line without its newline and what follows it; `none` at the end of the input. -/
def nextLine? : Text → Option (Text × Text)
  | [] => none
  | t => some (t.takeWhile (· ≠ '\n'), (t.dropWhile (· ≠ '\n')).tail)

end FexprLisp
