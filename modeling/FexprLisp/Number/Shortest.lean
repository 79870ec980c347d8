import FexprLisp.Number.Numeral

/-!
# The written form of a number

A number is written with the fewest digits that round to it. The grids of the powers of ten are
tried from the coarsest; on each grid the two neighbours of the number are candidates, and the
nearer of those that round to it is taken, an exact tie going to the even last digit. The grid of
`10 ^ -scale` holds every number exactly, so the search ends there at the latest.

Rounding here is one step from the decimal to single precision, while a numeral is read in two.

Layout is a matter apart: `Layout` says which magnitudes are written positionally and how wide an
exponent is.
-/

namespace FexprLisp

attribute [local instance] natPow

namespace Single

/-- Is `k` the index nearest to `digits * 10 ^ exponent`? -/
def roundsTo (k : Fin (Grid.single.top + 1)) (digits : Nat) (exponent : Int) : Bool :=
  (Binary.ofDecimal false digits exponent : Single) = .real false k

/-- Index `k` is `numerator k exponent / denominator exponent` steps of `10 ^ exponent`. -/
def numerator (k : Nat) (exponent : Int) : Nat :=
  Grid.single.units k * 10 ^ (-exponent).toNat

def denominator (exponent : Int) : Nat := Grid.single.one * 10 ^ exponent.toNat

/-- Of the two naturals around `num / den`, the nearer of those that are accepted, or the even one. -/
def neighbour? (accepts : Nat → Bool) (num den : Nat) : Option Nat :=
  let low := num / den
  let twice := 2 * (num % den)
  let lowFirst := twice < den ∨ twice = den ∧ low % 2 = 0
  match accepts low, accepts (low + 1) with
  | true, true => some (if lowFirst then low else low + 1)
  | true, false => some low
  | false, true => some (low + 1)
  | false, false => none

/-- The digits of `k` on the grid of `10 ^ exponent`, if a neighbour there rounds to it. -/
def digitsAt? (k : Fin (Grid.single.top + 1)) (exponent : Int) : Option Nat :=
  neighbour? (roundsTo k · exponent) (numerator k exponent) (denominator exponent)

/-- Search the grids from `10 ^ (n - scale)` downwards. What the last one holds needs no search. -/
def search (find? : Int → Option Nat) (last : Nat) : Nat → Nat × Int
  | 0 => (last, -Grid.single.scale)
  | n + 1 =>
    let exponent : Int := (n + 1 : Nat) - (Grid.single.scale : Int)
    match find? exponent with
    | some digits => (digits, exponent)
    | none => search find? last n

/-- Digits and exponent of the shortest decimal. No finite number reaches `10 ^ 39`. -/
def shortest (k : Fin (Grid.single.top + 1)) : Nat × Int :=
  search (digitsAt? k) (numerator k (-Grid.single.scale) / denominator (-Grid.single.scale))
    (Grid.single.scale + 38)

end Single

/-- Magnitudes from `10 ^ -low` up to but not including `10 ^ high` are written positionally. -/
structure Layout where
  low : Nat
  high : Nat
  exponentWidth : Nat

namespace Layout

/-- Numbers of the language: positional from 0.0001 below a million, exponents of two digits. -/
def standard : Layout := ⟨4, 6, 2⟩

/-- At least one digit stands on either side of the point. -/
def positional (digits : Nat) : Int → Text
  | .ofNat e => natText digits ++ List.replicate e '0' ++ ['.', '0']
  | .negSucc e =>
    let ds := padded (e + 2) (natText digits)
    ds.take (ds.length - (e + 1)) ++ '.' :: ds.drop (ds.length - (e + 1))

def scientific (l : Layout) (digits : Nat) (exponent : Int) : Text :=
  let ds := natText digits
  let power := exponent + (ds.length - 1 : Nat)
  let mantissa := match ds with
    | d :: d' :: r => d :: '.' :: d' :: r
    | ds => ds
  mantissa ++ 'e' :: (if power < 0 then '-' else '+') ::
    padded l.exponentWidth (natText power.natAbs)

/-- Whether index `k` is a magnitude written positionally. -/
def isPositional (l : Layout) (k : Nat) : Bool :=
  Grid.single.one ≤ Grid.single.units k * 10 ^ l.low &&
    Grid.single.units k < 10 ^ l.high * Grid.single.one

def magnitude (l : Layout) (k : Fin (Grid.single.top + 1)) : Text :=
  if k.val = Grid.single.top then "inf".toList
  else if k.val = 0 then "0.0".toList
  else
    let (digits, exponent) := Single.shortest k
    if l.isPositional k then positional digits exponent else l.scientific digits exponent

end Layout

/-- The written form of a number. -/
def numberText : Single → Text
  | .nan => "nan".toList
  | .real neg k => if neg then '-' :: Layout.standard.magnitude k else Layout.standard.magnitude k

end FexprLisp
