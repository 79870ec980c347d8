/-!
Text is a list of characters, as strings are in the language itself. Decimal and hexadecimal
spelling of naturals is shared by the printers, the messages and the log.
-/

namespace FexprLisp

abbrev Text := List Char

/-- Decimal digits, most significant first; zero is one digit. -/
def natText (n : Nat) : Text := Nat.toDigits 10 n

def intText : Int → Text
  | .ofNat n => natText n
  | .negSucc n => '-' :: natText (n + 1)

/-- At least `width` digits, zeros in front. -/
def padded (width : Nat) (digits : Text) : Text :=
  List.replicate (width - digits.length) '0' ++ digits

def hexText (width n : Nat) : Text := padded width (Nat.toDigits 16 n)

/-- The pieces of `t` between the separators; there is always one more piece than separators. -/
def splitAt (sep : Char) : Text → List Text
  | [] => [[]]
  | c :: r =>
    if c = sep then [] :: splitAt sep r
    else match splitAt sep r with
      | piece :: pieces => (c :: piece) :: pieces
      | [] => [[c]]

example : splitAt ':' "a::b".toList = ["a".toList, [], "b".toList] := by decide

end FexprLisp
