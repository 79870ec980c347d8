import FexprLisp.Number.Grid

/-!
Exponential and logarithm in fixed point: an integer `z` stands for `z / 2 ^ places`. Series are
summed until their terms vanish, so the last few of the places are not exact; single precision
needs about a tenth of them.
-/

namespace FexprLisp.Fixed

attribute [local instance] natPow

def places : Nat := 320

def one : Int := (2 ^ places : Nat)

def mul (a b : Int) : Int := a * b / one

/-- The quotient of two naturals. -/
def ofRatio (num den : Nat) : Int := num * one / den

/-- `∑ z ^ i / i!` from the term `i`, of which `term` is the value. -/
def expSeries (z : Int) : Nat → Int → Nat → Int
  | 0, _, _ => 0
  | fuel + 1, term, i => term + expSeries z fuel (mul term z / (i + 1)) (i + 1)

/-- `∑ t ^ (2 i + 1) / (2 i + 1)` from the power `t ^ n`. -/
def atanhSeries (square : Int) : Nat → Int → Nat → Int
  | 0, _, _ => 0
  | fuel + 1, power, n => power / n + atanhSeries square fuel (mul power square) (n + 2)

/-- The logarithm of `num / den`, which lies between one and two. -/
def logMantissa (num den : Nat) : Int :=
  let t := ofRatio (num - den) (num + den)
  2 * atanhSeries (mul t t) 120 t 1

def log2 : Int := logMantissa 2 1

/-- The logarithm of `num / 2 ^ scale` for a positive `num`. -/
def log (num scale : Nat) : Int :=
  logMantissa num (2 ^ Nat.log2 num) + ((Nat.log2 num : Int) - scale) * log2

/-- The exponential as a fixed-point mantissa and a power of two to multiply it by. -/
def exp (z : Int) : Int × Int :=
  let k := z / log2
  (expSeries (z - k * log2) 120 one 0, k)

end FexprLisp.Fixed
