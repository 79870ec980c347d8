import FexprLisp.Number.Grid

/-!
Floating-point numbers over a grid: a sign and a grid index, or not-a-number. Not-a-number has
neither sign nor payload. Every magnitude has one index, so `=` compares representations, sign of
zero included, and `same` is the numeric comparison.
-/

namespace FexprLisp

attribute [local instance] natPow

inductive Binary (g : Grid) where
  | nan
  | real (neg : Bool) (mag : Fin (g.top + 1))
  deriving DecidableEq

abbrev Single := Binary Grid.single
abbrev Double := Binary Grid.double

namespace Binary

variable {g : Grid}

def zero (neg : Bool) : Binary g := real neg 0

def infinite (neg : Bool) : Binary g := real neg ⟨g.top, Nat.lt_succ_self _⟩

/-- The number nearest to `num / den` units with the given sign. -/
def ofUnits (neg : Bool) (num den : Nat) : Binary g :=
  real neg ⟨g.nearest num den, Nat.lt_succ_of_le (g.nearest_le_top num den)⟩

/-- The number nearest to a natural. -/
def ofNat (n : Nat) : Binary g := ofUnits false (n * g.one) 1

def isZero : Binary g → Bool
  | nan => false
  | real _ k => k.val = 0

def negate : Binary g → Binary g
  | nan => nan
  | real s k => real (!s) k

/-- The same number on another grid, rounded once. -/
def convert (h : Grid) : Binary g → Binary h
  | nan => nan
  | real s k =>
    if k.val = g.top then infinite s else ofUnits s (g.units k * h.one) g.one

/-- Numeric equality: not-a-number equals nothing and the two zeros are equal. -/
def same : Binary g → Binary g → Bool
  | real s k, real s' k' => k = k' && (s == s' || k.val = 0)
  | _, _ => false

/-- The interchange pattern in `width` bits; the index of a magnitude is its pattern. -/
def pattern? (width : Nat) : Binary g → Option Nat
  | nan => none
  | real s k => some ((if s then 2 ^ (width - 1) else 0) + k)

end Binary

end FexprLisp
