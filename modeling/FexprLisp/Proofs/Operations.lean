import FexprLisp.Eval.Values
import FexprLisp.Proofs.Rounding
import Mathlib.Data.Rat.Floor

/-!
# What the operations compute

On finite numbers every operation is the exact one on rationals, rounded once to the nearest number,
a tie to the even one and a result beyond the grid to infinity. The sign is that of the exact result.
Where that is zero, which has no sign, the signs of the arguments decide.
-/

namespace FexprLisp

namespace Binary

attribute [local instance] natPow

variable {g : Grid}

/-- So many units, with a sign. -/
def fromUnits (g : Grid) (neg : Bool) (n : Nat) : ℚ := (if neg then -(n : ℚ) else n) / g.one

/-- The value of an index, with a sign. -/
def value (g : Grid) (neg : Bool) (k : Nat) : ℚ := fromUnits g neg (g.units k)

/-- A number is what a rational is rounded to, with the sign of the rational. Zero has no sign, and is
given one. -/
def Rounds (x : ℚ) (neg : Bool) (v : Binary g) : Prop :=
  ∃ k : Fin (g.top + 1), v = real (if x = 0 then neg else decide (x < 0)) k ∧
    g.Cell k (|x| * g.one)

theorem Rounds.unique {x : ℚ} {neg : Bool} {v w : Binary g} (first : Rounds x neg v)
    (second : Rounds x neg w) : v = w := by
  obtain ⟨k, rfl, cell⟩ := first
  obtain ⟨k', rfl, cell'⟩ := second
  rw [Fin.ext (cell.unique cell')]

/-! ### Units and values -/

theorem cast_one_pos (g : Grid) : (0 : ℚ) < g.one := by
  exact_mod_cast Nat.two_pow_pos g.scale

theorem abs_fromUnits (neg : Bool) (n : Nat) : |fromUnits g neg n| * g.one = n := by
  have pos := cast_one_pos g
  have size : |if neg then -(n : ℚ) else n| = n := by
    cases neg <;> simp
  rw [fromUnits, abs_div, size, abs_of_pos pos, div_mul_cancel₀ _ pos.ne']

theorem fromUnits_eq_zero {neg : Bool} {n : Nat} : fromUnits g neg n = 0 ↔ n = 0 := by
  have pos := cast_one_pos g
  cases neg <;> simp [fromUnits, pos.ne']

theorem sign_fromUnits {neg : Bool} {n : Nat} (some : fromUnits g neg n ≠ 0) :
    decide (fromUnits g neg n < 0) = neg := by
  have pos := cast_one_pos g
  have more : (0 : ℚ) < n := by
    exact_mod_cast Nat.pos_of_ne_zero fun none => some (fromUnits_eq_zero.mpr none)
  cases neg with
  | false =>
    have : 0 < fromUnits g false n := div_pos more pos
    exact decide_eq_false (not_lt.mpr this.le)
  | true =>
    have : fromUnits g true n < 0 := div_neg_of_neg_of_pos (neg_lt_zero.mpr more) pos
    exact decide_eq_true this

theorem fromUnits_not (neg : Bool) (n : Nat) : fromUnits g (!neg) n = -fromUnits g neg n := by
  cases neg <;> simp [fromUnits, neg_div]

theorem value_eq (neg : Bool) (k : Nat) : value g neg k = signedUnits (g := g) neg k / g.one := by
  cases neg <;> simp [value, fromUnits, signedUnits]

theorem value_eq_zero {neg : Bool} {k : Nat} : value g neg k = 0 ↔ k = 0 := by
  rw [value, fromUnits_eq_zero]
  constructor
  · intro none
    exact (Grid.units_strictMono g).injective (none.trans (Grid.units_zero g).symm)
  · rintro rfl
    exact Grid.units_zero g

/-- Rounding a quotient of units rounds the rational that it stands for. -/
theorem rounds_ofUnits {x : ℚ} {s neg : Bool} {num den : Nat} (pos : 0 < den)
    (size : |x| * g.one = (num : ℚ) / den) (zero : x = 0 → s = neg)
    (sign : x ≠ 0 → s = decide (x < 0)) : Rounds x neg (ofUnits s num den : Binary g) := by
  obtain ⟨k, rounded, cell⟩ := ofUnits_cell g s num pos
  rw [← size] at cell
  refine ⟨k, ?_, cell⟩
  rw [rounded]
  by_cases none : x = 0
  · rw [if_pos none, zero none]
  · rw [if_neg none, ← sign none]

/-! ### The operations -/

/-- A product is negative if just one of its factors is. -/
theorem decide_mul_neg {x y : ℚ} (some : x ≠ 0) (some' : y ≠ 0) :
    decide (x * y < 0) = (decide (x < 0) != decide (y < 0)) := by
  rcases lt_or_gt_of_ne some with left | left
  · rcases lt_or_gt_of_ne some' with right | right
    · rw [decide_eq_true left, decide_eq_true right,
        decide_eq_false (mul_pos_of_neg_of_neg left right).not_gt]
      rfl
    · rw [decide_eq_true left, decide_eq_false right.not_gt,
        decide_eq_true (mul_neg_of_neg_of_pos left right)]
      rfl
  · rcases lt_or_gt_of_ne some' with right | right
    · rw [decide_eq_false left.not_gt, decide_eq_true right,
        decide_eq_true (mul_neg_of_pos_of_neg left right)]
      rfl
    · rw [decide_eq_false left.not_gt, decide_eq_false right.not_gt,
        decide_eq_false (mul_pos left right).not_gt]
      rfl

variable (s s' : Bool) {k k' : Fin (g.top + 1)}

theorem rounds_add (finite : k.val < g.top) (finite' : k'.val < g.top) :
    Rounds (value g s k + value g s' k') (s && s') (add (real s k) (real s' k')) := by
  have pos := cast_one_pos g
  rw [add, if_neg finite.ne, if_neg finite'.ne, value_eq, value_eq, ← add_div, ← Int.cast_add]
  dsimp only
  generalize signedUnits (g := g) s k + signedUnits (g := g) s' k' = sum
  by_cases none : sum = 0
  · rw [if_pos none, none, Int.cast_zero, zero_div]
    refine ⟨0, by rw [if_pos rfl]; rfl, ?_⟩
    exact Grid.cell_zero (by simp)
  · rw [if_neg none]
    have some : (sum : ℚ) / g.one ≠ 0 := div_ne_zero (Int.cast_ne_zero.mpr none) pos.ne'
    refine rounds_ofUnits Nat.one_pos ?_ (fun zero => absurd zero some) fun _ => ?_
    · rw [abs_div, abs_of_pos pos, div_mul_cancel₀ _ pos.ne', Nat.cast_natAbs, Nat.cast_one, div_one,
        Int.cast_abs]
    · refine decide_eq_decide.mpr ?_
      rw [div_lt_iff₀ pos, zero_mul, Int.cast_lt_zero]

theorem rounds_sub (finite : k.val < g.top) (finite' : k'.val < g.top) :
    Rounds (value g s k - value g s' k') (s && !s') (sub (real s k) (real s' k')) := by
  rw [sub, negate, sub_eq_add_neg, value, value, ← fromUnits_not]
  exact rounds_add s (!s') finite finite'

theorem rounds_mul (finite : k.val < g.top) (finite' : k'.val < g.top) :
    Rounds (value g s k * value g s' k') (s != s') (mul (real s k) (real s' k')) := by
  have pos := cast_one_pos g
  rw [mul, if_neg (by omega)]
  refine rounds_ofUnits (Nat.two_pow_pos _) ?_ (fun _ => rfl) fun some => ?_
  · rw [abs_mul, eq_div_iff pos.ne']
    calc |value g s k| * |value g s' k'| * g.one * g.one
        = |value g s k| * g.one * (|value g s' k'| * g.one) := by ring
      _ = ((g.units k * g.units k' : Nat) : ℚ) := by
        rw [value, value, abs_fromUnits, abs_fromUnits, Nat.cast_mul]
  · obtain ⟨left, right⟩ := mul_ne_zero_iff.mp some
    rw [decide_mul_neg left right, value, value, sign_fromUnits left, sign_fromUnits right]

theorem rounds_div (finite : k.val < g.top) (finite' : k'.val < g.top) (some : k'.val ≠ 0) :
    Rounds (value g s k / value g s' k') (s != s') (div (real s k) (real s' k')) := by
  have pos := cast_one_pos g
  have divisor : value g s' k' ≠ 0 := mt value_eq_zero.mp some
  have units : 0 < g.units k' := Nat.pos_of_ne_zero (mt fromUnits_eq_zero.mpr divisor)
  rw [div, if_neg finite.ne, if_neg finite'.ne, if_neg some]
  refine rounds_ofUnits units ?_ (fun _ => rfl) fun dividend => ?_
  · rw [abs_div, Nat.cast_mul, ← abs_fromUnits (g := g) s (g.units k),
      ← abs_fromUnits (g := g) s' (g.units k'), ← value, ← value]
    have size := abs_pos.mpr divisor
    field_simp
  · have left : value g s k ≠ 0 := (div_ne_zero_iff.mp dividend).1
    rw [div_eq_mul_inv, decide_mul_neg left (inv_ne_zero divisor), value, value, sign_fromUnits left]
    simp only [inv_lt_zero]
    rw [sign_fromUnits divisor]

/-- A rational without what stands behind the point. -/
def truncated (q : ℚ) : Int := if 0 ≤ q then ⌊q⌋ else ⌈q⌉

theorem truncated_div (n m : Nat) : truncated ((n : ℚ) / m) = (n / m : Nat) := by
  rw [truncated, if_pos (by positivity), Rat.floor_natCast_div_natCast]
  rfl

theorem truncated_neg (q : ℚ) : truncated (-q) = -truncated q := by
  rcases lt_trichotomy q 0 with less | rfl | more
  · rw [truncated, truncated, if_pos (by linarith), if_neg (by linarith), Int.floor_neg]
  · simp [truncated]
  · rw [truncated, truncated, if_neg (by linarith), if_pos (by linarith), Int.ceil_neg]

/-- The remainder of the units, with the sign of the dividend. -/
theorem fromUnits_mod (n m : Nat) : fromUnits g s n -
    fromUnits g s' m * truncated (fromUnits g s n / fromUnits g s' m) = fromUnits g s (n % m) := by
  have negative (n : Nat) : fromUnits g true n = -fromUnits g false n := fromUnits_not false n
  have plain : fromUnits g false n - fromUnits g false m *
      truncated (fromUnits g false n / fromUnits g false m) = fromUnits g false (n % m) := by
    have quotient : fromUnits g false n / fromUnits g false m = (n : ℚ) / m :=
      div_div_div_cancel_right₀ (cast_one_pos g).ne' _ _
    have left : (n : ℚ) - m * (n / m : Nat) = (n % m : Nat) := by
      rw [sub_eq_iff_eq_add]
      exact_mod_cast (Nat.mod_add_div n m).symm
    rw [quotient, truncated_div, Int.cast_natCast]
    simp only [fromUnits, Bool.false_eq_true, if_false]
    rw [div_mul_eq_mul_div, ← sub_div, left]
  -- The sign of the divisor cancels, and that of the dividend comes out in front.
  cases s with
  | false =>
    cases s' with
    | false => exact plain
    | true =>
      rw [negative m, div_neg, truncated_neg, Int.cast_neg, neg_mul_neg]
      exact plain
  | true =>
    rw [negative n, negative (n % m), ← plain]
    cases s' with
    | false =>
      rw [neg_div, truncated_neg]
      push_cast
      ring
    | true =>
      rw [negative m, neg_div_neg_eq]
      ring

theorem rounds_remainder (finite : k.val < g.top) (finite' : k'.val < g.top) (some : k'.val ≠ 0) :
    Rounds (value g s k - value g s' k' * truncated (value g s k / value g s' k')) s
      (remainder (real s k) (real s' k')) := by
  rw [remainder, if_neg (by omega), if_neg finite'.ne, value, value, fromUnits_mod]
  refine rounds_ofUnits Nat.one_pos ?_ (fun _ => rfl) fun left => (sign_fromUnits left).symm
  rw [abs_fromUnits, Nat.cast_one, div_one]

end Binary

/-- The operation on rationals. The remainder is what a whole number of divisors leaves of the
dividend, the quotient being cut off behind the point. -/
def Operation.exact : Operation → ℚ → ℚ → ℚ
  | add, x, y => x + y
  | sub, x, y => x - y
  | mul, x, y => x * y
  | div, x, y => x / y
  | remainder, x, y => x - y * Binary.truncated (x / y)

/-- The sign of a result that is exactly zero, by the signs of the arguments. -/
def Operation.zeroSign : Operation → Bool → Bool → Bool
  | add, s, s' => s && s'
  | sub, s, s' => s && !s'
  | mul, s, s' | div, s, s' => s != s'
  | remainder, s, _ => s

open Binary in
/-- On finite numbers, and a divisor other than zero, the result of an operation is the number that
the exact result is rounded to. -/
theorem Operation.apply_eq_iff (op : Operation) (s s' : Bool) {k k' : Fin (Grid.single.top + 1)}
    (finite : k.val < Grid.single.top) (finite' : k'.val < Grid.single.top)
    (divisor : op = .div ∨ op = .remainder → k'.val ≠ 0) (u : Single) :
    op.apply (.real s k) (.real s' k') = u ↔
      Rounds (op.exact (value .single s k) (value .single s' k')) (op.zeroSign s s') u := by
  have rounds : Rounds (op.exact (value .single s k) (value .single s' k')) (op.zeroSign s s')
      (op.apply (.real s k) (.real s' k')) := by
    cases op with
    | add => exact rounds_add s s' finite finite'
    | sub => exact rounds_sub s s' finite finite'
    | mul => exact rounds_mul s s' finite finite'
    | div => exact rounds_div s s' finite finite' (divisor (Or.inl rfl))
    | remainder => exact rounds_remainder s s' finite finite' (divisor (Or.inr rfl))
  constructor
  · rintro rfl
    exact rounds
  · exact rounds.unique

/-- The exact sum is a middle, and goes to the even one of its neighbours. -/
example : Operation.add.apply (.ofNat 16777216) (.ofNat 1) = .ofNat 16777216 := by decide +kernel

end FexprLisp
