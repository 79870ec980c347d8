/-!
# Binary grids

The magnitudes of a binary floating format form a grid. Measured in units (a unit is the smallest
positive magnitude, `2 ^ -scale`), index `k` holds the natural number `units k`: indexes count
single units up to `2 ^ (frac + 1)`, and from there each block of `2 ^ frac` indexes doubles the
step. The index `top` stands for infinity; its units are where the grid would go on.

`nearest` takes any quotient of naturals to the nearest index, a tie to the even one. Beyond the
grid it stays at `top`, so overflow needs no case of its own.
-/

namespace FexprLisp

/-- Powers of naturals are those of the core library. -/
@[reducible]
def natPow : Pow Nat Nat := instPowNat

attribute [local instance] natPow

structure Grid where
  frac : Nat
  scale : Nat
  top : Nat

namespace Grid

/-- Twenty-four significant bits. -/
def single : Grid := ⟨23, 149, 0x7f800000⟩

/-- Fifty-three significant bits. -/
def double : Grid := ⟨52, 1074, 0x7ff0000000000000⟩

/-- The number one in units. -/
def one (g : Grid) : Nat := 2 ^ g.scale

/-- The doublings of the step just above index `k`. -/
def doublings (g : Grid) (k : Nat) : Nat := k / 2 ^ g.frac - 1

def units (g : Grid) (k : Nat) : Nat :=
  (k - g.doublings k * 2 ^ g.frac) * 2 ^ g.doublings k

/-- The greatest index whose magnitude is at most `u` units. -/
def below (g : Grid) (u : Nat) : Nat :=
  let x := Nat.log2 u - g.frac
  x * 2 ^ g.frac + u / 2 ^ x

/-- The index nearest to `num / den` units; of two, the even one. -/
def nearest (g : Grid) (num den : Nat) : Nat :=
  let k := g.below (num / den)
  let excess := 2 * (num - g.units k * den)
  let gap := 2 ^ g.doublings k * den
  min g.top (if gap < excess ∨ gap = excess ∧ k % 2 = 1 then k + 1 else k)

theorem nearest_le_top (g : Grid) (num den : Nat) : g.nearest num den ≤ g.top :=
  Nat.min_le_left ..

example : single.nearest (16777217 * 2 ^ 149) 1 = single.nearest (16777216 * 2 ^ 149) 1 := by
  decide +kernel

end Grid

end FexprLisp
