import FexprLisp.Number.Grid
import Mathlib.Tactic.Linarith
import Mathlib.Tactic.LinearCombination
import Mathlib.Tactic.Ring

/-!
# Fractions close to a quotient

A quotient lies in a bracket of two neighbouring fractions. Every numerator and denominator are an
integral combination of theirs, and the distance from the quotient is the same combination of the
two distances. So once the denominators add up to the bound, no fraction within it is as close as
asked unless one side of the bracket is.

The brackets are searched for from mediant to mediant. Nothing rests on the search, since what it
ends with is checked: among the powers of ten over the powers of two it leaves two fractions.
-/

namespace FexprLisp

attribute [local instance] natPow

/-- A quotient `a / b` lies from one of two neighbouring fractions up to the other. -/
structure Bracket (a b p q p' q' : Nat) : Prop where
  low : p * b ≤ q * a
  high : q' * a < p' * b
  neighbours : p' * q = p * q' + 1

theorem Bracket.combination {a b p q p' q' : Nat} (bracket : Bracket a b p q p' q') (n d : Nat) :
    ∃ i j : Int, (d : Int) = i * q + j * q' ∧ (n : Int) = i * p + j * p' ∧
      (d : Int) * a - n * b = i * (q * a - p * b) - j * (p' * b - q' * a) := by
  have one : (p' : Int) * q = p * q' + 1 := by exact_mod_cast bracket.neighbours
  refine ⟨d * p' - n * q', n * q - d * p, ?_, ?_, ?_⟩
  · linear_combination (-(d : Int)) * one
  · linear_combination (-(n : Int)) * one
  · linear_combination ((n : Int) * b - d * a) * one

/-- So great a distance from `a / b`, times `b`, is out of reach. -/
def Far (b distance : Nat) : Prop := b < 2 ^ 29 * distance

instance (b distance : Nat) : Decidable (Far b distance) :=
  inferInstanceAs (Decidable (b < 2 ^ 29 * distance))

/-- A bracket that leaves no close fraction but those that are known. -/
structure Clears (known : List (Nat × Nat)) (a b p q p' q' : Nat) : Prop
    extends Bracket a b p q p' q' where
  full : 2 ^ 24 ≤ q + q' ∨ 2 ^ 25 ≤ p + p'
  between : Far b (q * a - p * b) ∨ Far b (p' * b - q' * a)
  below : Far b (q * a - p * b) ∨ q * a - p * b = 0 ∨ 2 ^ 25 ≤ p
  above : Far b (p' * b - q' * a) ∨ 2 ^ 25 ≤ p' ∨ 2 ^ 24 ≤ p' ∧ (p', q') ∈ known

instance (known : List (Nat × Nat)) (a b p q p' q' : Nat) :
    Decidable (Clears known a b p q p' q') :=
  decidable_of_iff
    ((2 ^ 24 ≤ q + q' ∨ 2 ^ 25 ≤ p + p') ∧ p * b ≤ q * a ∧ q' * a < p' * b ∧ p' * q = p * q' + 1 ∧
      (Far b (q * a - p * b) ∨ Far b (p' * b - q' * a)) ∧
      (Far b (q * a - p * b) ∨ q * a - p * b = 0 ∨ 2 ^ 25 ≤ p) ∧
      (Far b (p' * b - q' * a) ∨ 2 ^ 25 ≤ p' ∨ 2 ^ 24 ≤ p' ∧ (p', q') ∈ known))
    ⟨fun ⟨full, low, high, neighbours, between, below, above⟩ =>
      ⟨⟨low, high, neighbours⟩, full, between, below, above⟩,
    fun ⟨⟨low, high, neighbours⟩, full, between, below, above⟩ =>
      ⟨full, low, high, neighbours, between, below, above⟩⟩

theorem le_mul_cast {i : Int} (c : Nat) (one : 1 ≤ i) : (c : Int) ≤ i * c :=
  le_mul_of_one_le_left (Int.natCast_nonneg c) one

theorem mul_cast_nonpos {i : Int} (c : Nat) (none : i ≤ 0) : i * c ≤ 0 :=
  mul_nonpos_of_nonpos_of_nonneg none (Int.natCast_nonneg c)

/-- A combination of opposite signs is as far off as either side that it takes part of. -/
theorem le_abs_combination {i j : Int} (l h : Nat) (opposite : 1 ≤ i ∧ j ≤ 0 ∨ i ≤ 0 ∧ 1 ≤ j) :
    (i ≠ 0 → (l : Int) ≤ |i * l - j * h|) ∧ (j ≠ 0 → (h : Int) ≤ |i * l - j * h|) := by
  rcases opposite with ⟨some, none⟩ | ⟨none, some⟩
  · have above := le_abs_self (i * l - j * h)
    have lower := le_mul_cast l some
    have upper := mul_cast_nonpos h none
    refine ⟨fun _ => by linarith, fun part => ?_⟩
    have more := le_mul_cast h (by omega : 1 ≤ -j)
    linarith
  · have below := neg_le_abs (i * l - j * h)
    have lower := mul_cast_nonpos l none
    have upper := le_mul_cast h some
    refine ⟨fun part => ?_, fun _ => by linarith⟩
    have more := le_mul_cast l (by omega : 1 ≤ -i)
    linarith

/-- Neither side is cut off at zero where its distance is taken in naturals. -/
theorem Bracket.exists_distances {a b p q p' q' : Nat} (bracket : Bracket a b p q p' q') :
    ∃ l h : Nat, q * a - p * b = l ∧ p' * b - q' * a = h ∧
      (q : Int) * a - p * b = l ∧ (p' : Int) * b - q' * a = h := by
  refine ⟨q * a - p * b, p' * b - q' * a, rfl, rfl, ?_, ?_⟩
  · rw [Nat.cast_sub bracket.low]
    push_cast
    rfl
  · rw [Nat.cast_sub bracket.high.le]
    push_cast
    rfl

theorem Clears.mem_known {known : List (Nat × Nat)} {a b p q p' q' n d : Nat}
    (clears : Clears known a b p q p' q') (pos : 0 < d) (few : d < 2 ^ 24) (short : n < 2 ^ 25)
    (apart : d * a ≠ n * b) (close : |(d : Int) * a - n * b| * 2 ^ 29 ≤ b) : (n, d) ∈ known := by
  obtain ⟨i, j, den, num, distance⟩ := clears.toBracket.combination n d
  obtain ⟨l, h, lower, upper, lowerInt, upperInt⟩ := clears.toBracket.exists_distances
  obtain ⟨-, full, between, below, above⟩ := clears
  have apart : (d : Int) * a - n * b ≠ 0 := by
    rw [sub_ne_zero]
    exact_mod_cast apart
  rw [lower, Far] at between below
  rw [upper, Far] at between above
  rw [distance, lowerInt, upperInt] at apart close
  rcases le_or_gt i 0 with noLow | someLow <;> rcases le_or_gt j 0 with noHigh | someHigh
  · have := mul_cast_nonpos q noLow
    have := mul_cast_nonpos q' noHigh
    omega
  · obtain ⟨farLow, farHigh⟩ := le_abs_combination l h (Or.inr ⟨noLow, someHigh⟩)
    have far := farHigh (by omega)
    by_cases multiple : i = 0
    · rw [multiple, zero_mul, zero_add] at den num
      have := le_mul_cast p' someHigh
      rcases above with off | big | ⟨large, mem⟩
      · omega
      · omega
      · -- Twice the numerator would be too much.
        have once : j = 1 := by
          by_contra more
          have := mul_le_mul_of_nonneg_right (by omega : 2 ≤ j) (Int.natCast_nonneg p')
          omega
        rw [once, one_mul, Nat.cast_inj] at den num
        rwa [den, num]
    · have := farLow multiple
      omega
  · obtain ⟨farLow, farHigh⟩ := le_abs_combination l h (Or.inl ⟨someLow, noHigh⟩)
    have far := farLow (by omega)
    by_cases multiple : j = 0
    · rw [multiple, zero_mul, add_zero] at num
      have := le_mul_cast p someLow
      rcases below with off | exact | big
      · omega
      · rw [multiple, exact, Nat.cast_zero, mul_zero, zero_mul] at apart
        exact absurd rfl apart
      · omega
    · have := farHigh multiple
      omega
  · -- The two sides together are too much.
    have := le_mul_cast p someLow
    have := le_mul_cast q someLow
    have := le_mul_cast p' someHigh
    have := le_mul_cast q' someHigh
    omega

/-- From a bracket to the next, each side going as far as it can at once, until the denominators or
the numerators add up to their bound. Each fraction is followed by its distance from the quotient. -/
def narrow (accepts : Nat → Nat → Nat → Nat → Bool) :
    Nat → Nat → Nat → Nat → Nat → Nat → Nat → Bool
  | 0, _, _, _, _, _, _ => false
  | fuel + 1, p, q, low, p', q', high =>
    bif Nat.ble (2 ^ 24) (q + q') || Nat.ble (2 ^ 25) (p + p') then accepts p q p' q'
    else bif Nat.blt low high then
      let room := Nat.min ((2 ^ 24 - 1 - q') / q) ((2 ^ 25 - 1 - p') / p)
      let times := bif Nat.beq low 0 then room else Nat.min ((high - 1) / low) room
      narrow accepts fuel p q low (p' + times * p) (q' + times * q) (high - times * low)
    else
      let room := Nat.min ((2 ^ 24 - 1 - q) / q') ((2 ^ 25 - 1 - p) / p')
      let times := Nat.min (low / high) room
      narrow accepts fuel (p + times * p') (q + times * q') (low - times * high) p' q' high

theorem exists_of_narrow {accepts : Nat → Nat → Nat → Nat → Bool} {fuel : Nat} :
    ∀ {p q low p' q' high : Nat}, narrow accepts fuel p q low p' q' high = true →
      ∃ p q p' q', accepts p q p' q' = true := by
  induction fuel with
  | zero =>
    intro p q low p' q' high found
    cases found
  | succ fuel ih =>
    intro p q low p' q' high found
    rw [narrow] at found
    cases full : Nat.ble (2 ^ 24) (q + q') || Nat.ble (2 ^ 25) (p + p') with
    | true =>
      rw [full] at found
      exact ⟨p, q, p', q', found⟩
    | false =>
      rw [full] at found
      cases side : Nat.blt low high <;> rw [side] at found <;> exact ih found

/-- Twice a power of ten over a power of two, in units of single precision, is
`ratioTop exponent / ratioBottom exponent step`. -/
def ratioTop (exponent : Int) : Nat := 10 ^ exponent.toNat * 2 ^ 150

def ratioBottom (exponent : Int) (step : Nat) : Nat := 2 ^ step * 10 ^ (-exponent).toNat

/-- The fractions that are close to a ratio: a number of half steps over a number of digits. -/
def knownClose (exponent : Int) (step : Nat) : List (Nat × Nat) :=
  if exponent = -32 ∧ step = 42 then [(22841339, 7038531)]
  else if exponent = -32 ∧ step = 43 then [(22841339, 14077062)]
  else []

def searched (exponent : Int) (step : Nat) : Bool :=
  let a := ratioTop exponent
  let b := ratioBottom exponent step
  narrow (fun p q p' q' => Clears (knownClose exponent step) a b p q p' q') 40
    (a / b) 1 (a % b) 1 0 b

/-- The largest power of two that is no greater than the power of ten. -/
def largestStep (exponent : Int) : Nat :=
  Nat.log2 (ratioTop exponent / 10 ^ (-exponent).toNat)

set_option maxRecDepth 10000 in
theorem searched_window : (List.range 84).all (fun i =>
    (List.range 26).all fun j => searched (i - 45) (largestStep (i - 45) - j)) = true := by
  decide +kernel

theorem exponent_of_coarse {exponent : Int} {step : Nat}
    (coarse : ratioBottom exponent step ≤ ratioTop exponent) : -45 ≤ exponent := by
  by_contra small
  have zeros : 10 ^ 46 ≤ 10 ^ (-exponent).toNat := Nat.pow_le_pow_right (by decide) (by omega)
  have least := Nat.le_mul_of_pos_left (10 ^ (-exponent).toNat) (Nat.two_pow_pos step)
  rw [ratioTop, ratioBottom, show exponent.toNat = 0 by omega, Nat.pow_zero, Nat.one_mul] at coarse
  have excess : 2 ^ 150 < 10 ^ 46 := by decide
  omega

/-- Only so many powers of two have to be searched. -/
theorem largestStep_bounds {exponent : Int} {step : Nat}
    (coarse : ratioBottom exponent step ≤ ratioTop exponent)
    (most : ratioTop exponent ≤ ratioBottom exponent step * 2 ^ 25) :
    step ≤ largestStep exponent ∧ largestStep exponent ≤ step + 25 := by
  have pos : 0 < 10 ^ (-exponent).toNat := Nat.pow_pos (by decide)
  rw [ratioBottom] at coarse most
  have least := (Nat.le_div_iff_mul_le pos).mpr coarse
  have some : ratioTop exponent / 10 ^ (-exponent).toNat ≠ 0 :=
    Nat.ne_of_gt (Nat.lt_of_lt_of_le (Nat.two_pow_pos step) least)
  refine ⟨(Nat.le_log2 some).mpr least, Nat.le_of_lt_succ ((Nat.log2_lt some).mpr ?_)⟩
  rw [Nat.div_lt_iff_lt_mul pos]
  refine Nat.lt_of_le_of_lt most ?_
  calc 2 ^ step * 10 ^ (-exponent).toNat * 2 ^ 25 = 2 ^ (step + 25) * 10 ^ (-exponent).toNat := by
        rw [Nat.pow_add]
        ring
    _ < 2 ^ (step + 25).succ * 10 ^ (-exponent).toNat :=
        Nat.mul_lt_mul_of_pos_right (Nat.pow_lt_pow_succ (by decide)) pos

/-- A number of half steps that is so close to a number of digits is one of the two known. -/
theorem mem_knownClose {exponent : Int} {step half digits : Nat} (bound : exponent ≤ 38)
    (coarse : ratioBottom exponent step ≤ ratioTop exponent) (pos : 0 < digits)
    (few : digits < 2 ^ 24) (short : half < 2 ^ 25)
    (apart : digits * ratioTop exponent ≠ half * ratioBottom exponent step)
    (close : |(digits : Int) * ratioTop exponent - half * ratioBottom exponent step| * 2 ^ 29 ≤
      ratioBottom exponent step) : (half, digits) ∈ knownClose exponent step := by
  have least := exponent_of_coarse coarse
  have most : ratioTop exponent ≤ ratioBottom exponent step * 2 ^ 25 := by
    have above := (mul_le_mul_of_nonneg_right (le_abs_self _) (by norm_num)).trans close
    have one := Nat.le_mul_of_pos_left (ratioTop exponent) pos
    have steps := Nat.mul_le_mul_right (ratioBottom exponent step) (Nat.le_sub_one_of_lt short)
    zify at one steps ⊢
    push_cast at steps
    omega
  obtain ⟨smaller, window⟩ := largestStep_bounds coarse most
  have all := List.all_eq_true.mp searched_window (exponent + 45).toNat
    (List.mem_range.mpr (by omega))
  rw [show (((exponent + 45).toNat : Nat) : Int) - 45 = exponent by omega] at all
  have found := List.all_eq_true.mp all (largestStep exponent - step)
    (List.mem_range.mpr (by omega))
  rw [Nat.sub_sub_self smaller] at found
  obtain ⟨p, q, p', q', accepted⟩ := exists_of_narrow found
  exact (of_decide_eq_true accepted).mem_known pos few short apart close

end FexprLisp
