import FexprLisp.Number.Shortest
import FexprLisp.Proofs.Rerounding

/-!
# The digits of a number

The digits that are found for a magnitude denote a decimal in its cell. On the grid of their power
of ten they are one of the two neighbours of the magnitude, and the other neighbour is no nearer or
lies outside the cell. So they are close to a middle only where the powers of ten are as far apart
as the magnitudes.
-/

namespace FexprLisp

namespace Single

attribute [local instance] natPow

open Grid

/-- The digits are those of the nearest neighbour in the cell, on the grid of a power of ten. -/
structure Nearest (k digits : Nat) (exponent : Int) : Prop where
  cell : single.Cell k (digits * single.tenStep exponent)
  neighbour : ∃ low : Nat, low * single.tenStep exponent ≤ single.units k ∧
    single.units k < (low + 1 : Nat) * single.tenStep exponent ∧ (digits = low ∨ digits = low + 1) ∧
    ∀ n, n = low ∨ n = low + 1 → single.Cell k (n * single.tenStep exponent) →
      |digits * single.tenStep exponent - single.units k| ≤ |n * single.tenStep exponent - single.units k|

theorem roundsTo_iff {k : Fin (single.top + 1)} {digits : Nat} {exponent : Int}
    (bound : exponent ≤ 2 * single.scale) :
    roundsTo k digits exponent = true ↔ single.Cell k (digits * single.tenStep exponent) := by
  obtain ⟨k', rounded, cell⟩ := Binary.ofDecimal_cell single false digits bound
  rw [roundsTo, rounded, decide_eq_true_iff, Binary.real.injEq]
  constructor
  · rintro ⟨_, rfl⟩
    exact cell
  · intro other
    exact ⟨rfl, Fin.ext (cell.unique other)⟩

theorem denominator_pos (exponent : Int) : 0 < denominator exponent :=
  Nat.mul_pos (Nat.two_pow_pos _) (Nat.pow_pos (by decide))

/-- A power of ten is a quotient of two of which one is one. -/
theorem zpow_mul_toNat (exponent : Int) :
    (10 : ℚ) ^ exponent * 10 ^ (-exponent).toNat = 10 ^ exponent.toNat := by
  rw [← zpow_natCast, ← zpow_natCast, ← zpow_add₀ (by norm_num)]
  congr 1
  omega

/-- An index in steps of a power of ten. -/
theorem tenStep_mul_numerator (k : Nat) (exponent : Int) :
    single.tenStep exponent * numerator k exponent = single.units k * denominator exponent := by
  rw [tenStep, numerator, denominator, Grid.one]
  push_cast
  rw [← zpow_mul_toNat exponent]
  ring

/-- A neighbour that is taken is accepted, and the other is no nearer if it is accepted. -/
theorem neighbour?_spec {accepts : Nat → Bool} {num den digits : Nat}
    (found : neighbour? accepts num den = some digits) :
    accepts digits = true ∧ (digits = num / den ∨ digits = num / den + 1) ∧
      (accepts (num / den) = true → digits = num / den + 1 → den ≤ 2 * (num % den)) ∧
      (accepts (num / den + 1) = true → digits = num / den → 2 * (num % den) ≤ den) := by
  unfold neighbour? at found
  dsimp only at found
  split at found
  next low high =>
    split at found
    next first =>
      obtain rfl := Option.some.inj found
      exact ⟨low, Or.inl rfl, fun _ h => by omega, fun _ _ => by omega⟩
    next last =>
      obtain rfl := Option.some.inj found
      exact ⟨high, Or.inr rfl, fun _ _ => by omega, fun _ h => by omega⟩
  next low high =>
    obtain rfl := Option.some.inj found
    refine ⟨low, Or.inl rfl, fun _ h => by omega, fun other _ => ?_⟩
    rw [high] at other
    cases other
  next low high =>
    obtain rfl := Option.some.inj found
    refine ⟨high, Or.inr rfl, fun other _ => ?_, fun _ h => by omega⟩
    rw [low] at other
    cases other
  next => cases found

/-- What the search finds was found on one of the grids, or is what the last one holds. -/
theorem search_cases (find? : Int → Option Nat) (last n : Nat) :
    search find? last n = (last, -(single.scale : Int)) ∨
      ∃ digits exponent, search find? last n = (digits, exponent) ∧
        find? exponent = some digits ∧
        -(single.scale : Int) < exponent ∧ exponent ≤ n - (single.scale : Int) := by
  induction n with
  | zero => exact Or.inl rfl
  | succ n ih =>
    rw [search]
    split
    next digits found => exact Or.inr ⟨digits, _, rfl, found, by omega, le_rfl⟩
    next =>
      rcases ih with same | ⟨digits, exponent, same, found, least, most⟩
      · exact Or.inl same
      · exact Or.inr ⟨digits, exponent, same, found, least, by omega⟩

/-- An index is its lower neighbour and a part of a step. -/
theorem exists_part (k : Nat) (exponent : Int) :
    ∃ part : ℚ, 0 ≤ part ∧ part < 1 ∧
      ((numerator k exponent % denominator exponent : Nat) : ℚ) = part * denominator exponent ∧
      (single.units k : ℚ) =
        ((numerator k exponent / denominator exponent : Nat) + part) * single.tenStep exponent := by
  have pos : (0 : ℚ) < denominator exponent := Nat.cast_pos.mpr (denominator_pos exponent)
  have less := Nat.mod_lt (numerator k exponent) (denominator_pos exponent)
  have whole := Nat.div_add_mod (numerator k exponent) (denominator exponent)
  have value := tenStep_mul_numerator k exponent
  generalize numerator k exponent / denominator exponent = n at *
  generalize numerator k exponent % denominator exponent = rest at *
  generalize denominator exponent = den at *
  refine ⟨rest / den, by positivity, ?_, (div_mul_cancel₀ _ pos.ne').symm, ?_⟩
  · rw [div_lt_one pos]
    exact_mod_cast less
  · rw [← whole] at value
    push_cast at value
    field_simp
    linarith

/-- Digits found on a grid are those of the nearest neighbour in the cell. -/
theorem nearest_of_digitsAt? {k : Fin (single.top + 1)} {digits : Nat} {exponent : Int}
    (bound : exponent ≤ 2 * single.scale) (found : digitsAt? k exponent = some digits) :
    Nearest k digits exponent := by
  have step := tenStep_pos single exponent
  have pos : (0 : ℚ) < denominator exponent := Nat.cast_pos.mpr (denominator_pos exponent)
  obtain ⟨part, least, most, split, index⟩ := exists_part k exponent
  obtain ⟨accepted, neighbour, high, low⟩ := neighbour?_spec found
  simp only [roundsTo_iff bound] at accepted high low
  generalize numerator k exponent / denominator exponent = n at *
  generalize numerator k exponent % denominator exponent = rest at *
  generalize denominator exponent = den at *
  have below := mul_nonneg least step.le
  have above := mul_pos (sub_pos.mpr most) step
  have lower : |(n : ℚ) * single.tenStep exponent - single.units k| =
      part * single.tenStep exponent := by
    rw [index, abs_of_nonpos (by linarith)]
    ring
  have upper : |((n + 1 : Nat) : ℚ) * single.tenStep exponent - single.units k| =
      (1 - part) * single.tenStep exponent := by
    push_cast
    rw [index, abs_of_nonneg (by linarith)]
    ring
  refine ⟨accepted, n, by linarith, by push_cast; linarith, neighbour, ?_⟩
  rintro m (rfl | rfl) cell
  · rcases neighbour with rfl | rfl
    · exact le_rfl
    · rw [lower, upper]
      have half : (den : ℚ) ≤ 2 * rest := by exact_mod_cast high cell rfl
      refine mul_le_mul_of_nonneg_right ?_ step.le
      have : 1 * (den : ℚ) ≤ 2 * part * den := by linarith
      linarith [le_of_mul_le_mul_right this pos]
  · rcases neighbour with rfl | rfl
    · rw [lower, upper]
      have half : 2 * (rest : ℚ) ≤ den := by exact_mod_cast low cell rfl
      refine mul_le_mul_of_nonneg_right ?_ step.le
      have : 2 * part * (den : ℚ) ≤ 1 * den := by linarith
      linarith [le_of_mul_le_mul_right this pos]
    · exact le_rfl

/-- The last grid holds every magnitude. -/
theorem nearest_last (k : Fin (single.top + 1)) :
    Nearest k (numerator k (-single.scale) / denominator (-single.scale)) (-single.scale) := by
  have whole : numerator k (-single.scale) / denominator (-single.scale) =
      single.units k * 5 ^ single.scale := by
    have power : 10 ^ single.scale = 5 ^ single.scale * single.one := by
      rw [Grid.one, ← Nat.mul_pow]
    rw [numerator, denominator, Int.neg_neg, Int.toNat_natCast, Int.toNat_neg_natCast, power,
      ← Nat.mul_assoc, Nat.pow_zero, Nat.mul_one]
    exact Nat.mul_div_cancel _ (Nat.two_pow_pos _)
  have value : ((single.units k * 5 ^ single.scale : Nat) : ℚ) * single.tenStep (-single.scale) =
      single.units k := by
    have power : (5 : ℚ) ^ single.scale * 2 ^ single.scale = 10 ^ single.scale := by
      rw [← mul_pow]
      norm_num
    rw [tenStep, zpow_neg, zpow_natCast, ← power]
    push_cast
    field_simp
  rw [whole]
  refine ⟨?_, _, value.le, ?_, Or.inl rfl, ?_⟩
  · rw [value]
    exact cell_units (Nat.le_of_lt_succ k.isLt)
  · push_cast at value ⊢
    rw [add_mul, value, one_mul]
    exact lt_add_of_pos_right _ (tenStep_pos _ _)
  · intro n _ _
    rw [value, sub_self, abs_zero]
    exact abs_nonneg _

/-- The digits of a magnitude. -/
theorem nearest_shortest (k : Fin (single.top + 1)) :
    Nearest k (shortest k).1 (shortest k).2 ∧
      -(single.scale : Int) ≤ (shortest k).2 ∧ (shortest k).2 ≤ 38 := by
  rcases search_cases (digitsAt? k)
    (numerator k (-single.scale) / denominator (-single.scale)) (single.scale + 38) with
    same | ⟨digits, exponent, same, found, least, most⟩
  · rw [shortest, same]
    exact ⟨nearest_last k, le_rfl, by dsimp only; decide⟩
  · rw [shortest, same]
    push_cast at most
    have bound : exponent ≤ 38 := by omega
    exact ⟨nearest_of_digitsAt? (bound.trans (by decide)) found, least.le, bound⟩

theorem succ_mul_cast {low : Nat} {s : ℚ} : ((low + 1 : Nat) : ℚ) * s = low * s + s := by
  push_cast
  ring

/-- Digits that come so close to a middle are on a grid about as coarse as the magnitudes: on a
finer one a nearer neighbour would be in the cell. -/
theorem Nearest.coarse {j digits step half : Nat} {exponent : Int}
    (nearest : Nearest (j + 1) digits exponent) (within : j + 1 < single.top)
    (middle : Middle (j + 1) step half)
    (beside : Beside step half (digits * single.tenStep exponent)) :
    (2 : ℚ) ^ step * (2 ^ 29 - 1) ≤ single.tenStep exponent * 2 ^ 29 := by
  obtain ⟨top, bottom, side⟩ := middle.spread
  obtain ⟨low, below, above, choice, least⟩ := nearest.neighbour
  have inside : ∀ n : Nat, single.mid j < n * single.tenStep exponent →
      n * single.tenStep exponent < single.mid (j + 1) → single.Cell (j + 1) (n * single.tenStep exponent) := by
    intro n lower upper
    refine ⟨within.le, ?_, fun _ => ⟨upper.le, fun _ => upper.ne⟩⟩
    rintro i same
    obtain rfl : j = i := by omega
    exact ⟨lower.le, fun _ => lower.ne⟩
  have w : (0 : ℚ) < 2 ^ step := by positivity
  have s := tenStep_pos single exponent
  rw [succ_mul_cast] at above
  obtain ⟨nearBelow, nearAbove⟩ := beside.bounds
  generalize (2 : ℚ) ^ step = gap at *
  rcases side with upper | lower
  · rcases choice with rfl | rfl
    · linarith
    · rw [succ_mul_cast] at nearBelow nearAbove least
      by_cases out : low * single.tenStep exponent ≤ single.mid j
      · linarith
      · have nearer := least low (Or.inl rfl) (inside low (not_le.mp out) (by linarith))
        rw [abs_of_nonpos (sub_nonpos.mpr below), abs_of_nonneg (by linarith)] at nearer
        linarith
  · rcases choice with rfl | rfl
    · by_cases out : single.mid (j + 1) ≤ ((digits + 1 : Nat) : ℚ) * single.tenStep exponent
      · rw [succ_mul_cast] at out
        linarith
      · have nearer := least (digits + 1) (Or.inr rfl)
          (inside _ (by rw [succ_mul_cast]; linarith) (not_le.mp out))
        rw [succ_mul_cast, abs_of_nonpos (sub_nonpos.mpr below),
          abs_of_nonneg (by linarith)] at nearer
        linarith
    · rw [succ_mul_cast] at nearBelow nearAbove
      linarith

/-- Such digits are fewer than the magnitudes of a block, and the grids are not too far apart. -/
theorem Nearest.few {j digits step half : Nat} {exponent : Int}
    (nearest : Nearest (j + 1) digits exponent) (within : j + 1 < single.top)
    (middle : Middle (j + 1) step half)
    (beside : Beside step half (digits * single.tenStep exponent)) :
    0 < digits ∧ digits < 2 ^ 24 := by
  have coarse := nearest.coarse within middle beside
  have w : (0 : ℚ) < 2 ^ step := by positivity
  have s := tenStep_pos single exponent
  have least : (1 : ℚ) ≤ half := by exact_mod_cast middle.pos
  have most : (half : ℚ) ≤ 2 ^ 25 - 1 := by
    have := Nat.le_sub_one_of_lt middle.lt
    norm_num at this ⊢
    exact_mod_cast this
  obtain ⟨nearBelow, nearAbove⟩ := beside.bounds
  have leastGap := mul_le_mul_of_nonneg_right least w.le
  have mostGap := mul_le_mul_of_nonneg_right most w.le
  constructor
  · by_contra none
    obtain rfl : digits = 0 := by omega
    push_cast at nearBelow
    linarith
  · by_contra many
    have many : (2 ^ 24 : ℚ) ≤ digits := by exact_mod_cast not_lt.mp many
    have manySteps := mul_le_mul_of_nonneg_right many s.le
    linarith

end Single

end FexprLisp
