import FexprLisp.Number.Arithmetic
import FexprLisp.Number.Fixed

/-!
# Exponential and power in single precision

Both are rounded once from a value of far more places. A power that is a quotient of naturals of
moderate size is computed as one, since only such a power can lie exactly between two numbers.

They stand for the exponential and the power of a numeric library that does not promise to round
correctly, so there a result can differ from these in its last place. No theorem depends on their
values.

The exceptional arguments follow the usual table: anything to the power zero is one, and so is one
to any power; a negative base has a power for integral exponents only, negative for odd ones. The
power one half is the square root, also at negative zero and minus infinity, where the table would
give a positive power.
-/

namespace FexprLisp

attribute [local instance] natPow

namespace Single

/-- `mantissa / 2 ^ places * 2 ^ power` with the given sign. -/
def ofFixed (neg : Bool) (mantissa power : Int) : Single :=
  Binary.ofUnits neg (mantissa.toNat * 2 ^ (power.toNat + Grid.single.scale))
    (2 ^ (Fixed.places + (-power).toNat))

/-- The exponential of a fixed-point number; beyond these bounds it overflows or vanishes. -/
def expFixed (neg : Bool) (z : Int) : Single :=
  if 100 * Fixed.one < z then .infinite neg
  else if z < -120 * Fixed.one then .zero neg
  else
    let (mantissa, power) := Fixed.exp z
    ofFixed neg mantissa power

def exp : Single → Single
  | .nan => .nan
  | .real s k =>
    if k.val = Grid.single.top then (if s then .zero false else .infinite false)
    else
      let z := Fixed.ofRatio (Grid.single.units k) Grid.single.one
      expFixed false (if s then -z else z)

/-- `n = odd * 2 ^ twos` for a positive `n`. -/
def oddPart (n : Nat) : Nat × Nat := go n n
where
  go : Nat → Nat → Nat × Nat
    | 0, n => (n, 0)
    | fuel + 1, n =>
      if n % 2 = 0 then let (odd, twos) := go fuel (n / 2); (odd, twos + 1) else (n, 0)

/-- Take the square root of `odd * 2 ^ twos` a number of times, if it comes out even each time. -/
def roots? : Nat → Nat → Int → Option (Nat × Int)
  | 0, odd, twos => some (odd, twos)
  | n + 1, odd, twos =>
    let root := Nat.sqrt odd
    if root * root = odd ∧ twos % 2 = 0 then roots? n root (twos / 2) else none

/-- `(num / 2 ^ scale) ^ (±(power / 2 ^ scale))` when it is a power with an exponent below 1024 of
a number with few bits. -/
def exactPower? (neg : Bool) (num : Nat) (negPower : Bool) (power : Nat) : Option Single :=
  let scale := Grid.single.scale
  let (odd, twos) := oddPart num
  let (n, shift) := oddPart power
  match roots? (scale - shift) odd ((twos : Int) - scale) with
  | none => none
  | some (odd, twos) =>
    let n := n * 2 ^ (shift - scale)
    if 1024 ≤ n then none
    else
      let up := (twos * n).toNat
      let down := (-(twos * n)).toNat
      some <|
        if negPower then Binary.ofUnits neg (2 ^ (down + scale)) (odd ^ n * 2 ^ up)
        else Binary.ofUnits neg (odd ^ n * 2 ^ (up + scale)) (2 ^ down)

/-- The power of a positive finite base to a finite exponent other than zero. -/
def positivePower (neg : Bool) (base : Nat) (negPower : Bool) (power : Nat) : Single :=
  let scale := Grid.single.scale
  let z := Fixed.log base scale * power / Grid.single.one
  let z := if negPower then -z else z
  if 100 * Fixed.one < z then .infinite neg
  else if z < -120 * Fixed.one then .zero neg
  else match exactPower? neg base negPower power with
    | some v => v
    | none => expFixed neg z

def one : Single := .ofNat 1

def half : Single := .ofUnits false Grid.single.one 2

/-- Whether index `k` holds an integer. -/
def isIntegral (k : Nat) : Bool := Grid.single.units k % Grid.single.one = 0

def isOdd (k : Nat) : Bool := isIntegral k && Grid.single.units k / Grid.single.one % 2 = 1

def power (base exponent : Single) : Single :=
  if exponent.isZero ∨ base = one then one
  else if exponent = half then base.sqrt
  else match base, exponent with
    | .real s k, .real s' k' =>
      let unit := Grid.single.units k = Grid.single.one
      let large := Grid.single.one < Grid.single.units k
      let neg := s && isOdd k'
      if k'.val = Grid.single.top then
        if unit then one else if large != s' then .infinite false else .zero false
      else if k.val = 0 then (if s' then .infinite neg else .zero neg)
      else if k.val = Grid.single.top then (if s' then .zero neg else .infinite neg)
      else if s && !isIntegral k' then .nan
      else positivePower neg (Grid.single.units k) s' (Grid.single.units k')
    | _, _ => .nan

end Single

end FexprLisp
