import FexprLisp.Text.Blank
import FexprLisp.Text.Digit
import FexprLisp.Number.Binary

/-!
# Numerals

The texts that denote numbers: an optional sign, then `inf`, `infinity` or `nan` in any case, or
decimal digits of any script with at most one point and an optional exponent. Blanks around a
numeral are dropped.

A decimal is rounded to double precision first and to single precision after that, so a text can
differ in the last bit from its nearest single.
-/

namespace FexprLisp

attribute [local instance] natPow

inductive Numeral where
  | nan
  | infinite (neg : Bool)
  | decimal (neg : Bool) (digits : Nat) (exponent : Int)
  deriving DecidableEq

namespace Numeral

/-- The leading digits by value, and what follows them. -/
def spanDigits : Text → List Nat × Text
  | [] => ([], [])
  | c :: r =>
    match digitValue? c with
    | some d => let (ds, rest) := spanDigits r; (d :: ds, rest)
    | none => ([], c :: r)

def ofDigits (ds : List Nat) : Nat := ds.foldl (fun n d => 10 * n + d) 0

/-- A sign, when there is one, and the rest. -/
def splitSign : Text → Bool × Text
  | '-' :: r => (true, r)
  | '+' :: r => (false, r)
  | t => (false, t)

/-- The exponent part, which has to end the text. -/
def exponent? : Text → Option Int
  | [] => some 0
  | c :: r =>
    if c = 'e' ∨ c = 'E' then
      let (neg, r) := splitSign r
      match spanDigits r with
      | (d :: ds, []) =>
        let n : Int := ofDigits (d :: ds)
        some (if neg then -n else n)
      | _ => none
    else none

/-- Digits, a point, digits, with a digit on at least one side. -/
def decimal? (neg : Bool) (t : Text) : Option Numeral :=
  let (whole, r) := spanDigits t
  let (part, r) := match r with
    | '.' :: r => spanDigits r
    | _ => ([], r)
  if whole.isEmpty ∧ part.isEmpty then none
  else (exponent? r).map fun e => decimal neg (ofDigits (whole ++ part)) (e - part.length)

def ofText? (t : Text) : Option Numeral :=
  let (neg, body) := splitSign (trim isNumeralBlank t)
  let word := body.map Char.toLower
  if word = "inf".toList ∨ word = "infinity".toList then some (infinite neg)
  else if word = "nan".toList then some nan
  else decimal? neg body

end Numeral

namespace Binary

variable {g : Grid}

/-- The number nearest to `digits * 10 ^ exponent`. Exponents so great or so small that the answer
is infinite or zero whatever the digits are not multiplied out. -/
def ofDecimal (neg : Bool) (digits : Nat) (exponent : Int) : Binary g :=
  if digits = 0 then zero neg
  else match exponent with
    | .ofNat e => if 2 * g.scale < e then infinite neg else ofUnits neg (digits * 10 ^ e * g.one) 1
    | .negSucc e =>
      if Nat.log2 digits + g.scale < 3 * e then zero neg
      else ofUnits neg (digits * g.one) (10 ^ (e + 1))

end Binary

namespace Numeral

def toDouble : Numeral → Double
  | nan => .nan
  | infinite neg => .infinite neg
  | decimal neg digits exponent => .ofDecimal neg digits exponent

def toSingle (n : Numeral) : Single := n.toDouble.convert Grid.single

end Numeral

/-- The number that a text denotes, if it denotes one. -/
def singleOfText? (t : Text) : Option Single := (Numeral.ofText? t).map Numeral.toSingle

end FexprLisp
