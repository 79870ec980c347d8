import FexprLisp.Number.Binary

/-!
Arithmetic on binary numbers. Each finite result is computed exactly over the naturals or
integers, in units of the grid, and rounded once. `remainder` is truncated: it takes the sign of
the dividend.
-/

namespace FexprLisp

namespace Binary

variable {g : Grid}

/-- The signed number of units of a finite number. -/
def signedUnits (neg : Bool) (k : Nat) : Int := if neg then -(g.units k : Int) else g.units k

def add : Binary g → Binary g → Binary g
  | real s k, real s' k' =>
    if k.val = g.top then
      if k'.val = g.top ∧ s ≠ s' then nan else infinite s
    else if k'.val = g.top then infinite s'
    else
      let sum := signedUnits (g := g) s k + signedUnits (g := g) s' k'
      if sum = 0 then zero (s && s') else ofUnits (decide (sum < 0)) sum.natAbs 1
  | _, _ => nan

def sub (a b : Binary g) : Binary g := add a (negate b)

def mul : Binary g → Binary g → Binary g
  | real s k, real s' k' =>
    if k.val = g.top ∨ k'.val = g.top then
      if k.val = 0 ∨ k'.val = 0 then nan else infinite (s != s')
    else ofUnits (s != s') (g.units k * g.units k') g.one
  | _, _ => nan

def div : Binary g → Binary g → Binary g
  | real s k, real s' k' =>
    if k.val = g.top then
      if k'.val = g.top then nan else infinite (s != s')
    else if k'.val = g.top then zero (s != s')
    else if k'.val = 0 then
      if k.val = 0 then nan else infinite (s != s')
    else ofUnits (s != s') (g.units k * g.one) (g.units k')
  | _, _ => nan

def remainder : Binary g → Binary g → Binary g
  | real s k, real _ k' =>
    if k.val = g.top ∨ k'.val = 0 then nan
    else if k'.val = g.top then real s k
    else ofUnits s (g.units k % g.units k') 1
  | _, _ => nan

/-- The root of a negative number other than zero is not a number. The integer root is doubled
and its last bit marks an inexact one, so that no rounding is taken for a tie. -/
def sqrt : Binary g → Binary g
  | nan => nan
  | real s k =>
    if k.val = 0 then real s k
    else if s then nan
    else if k.val = g.top then infinite false
    else
      let square := g.units k * g.one
      let root := Nat.sqrt square
      ofUnits false (2 * root + if root * root = square then 0 else 1) 2

end Binary

end FexprLisp
