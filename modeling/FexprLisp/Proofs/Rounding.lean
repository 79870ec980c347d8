import FexprLisp.Number.Numeral
import Mathlib.Algebra.Order.Field.Basic
import Mathlib.Algebra.Order.Field.Power
import Mathlib.Data.Rat.Cast.Order
import Mathlib.Tactic.FieldSimp
import Mathlib.Tactic.Linarith
import Mathlib.Tactic.NormNum
import Mathlib.Tactic.Positivity
import Mathlib.Tactic.Ring

/-!
# Rounding to a grid

Each index of a grid has a cell around its magnitude, from the middle below it to the middle above
it. A middle belongs to the even one of the two indexes that it stands between. The nearest index to
a quotient is the one whose cell holds the quotient, and a decimal is read as this index.
-/

namespace FexprLisp

namespace Grid

attribute [local instance] natPow

variable (g : Grid)

/-- The number halfway between an index and the next, in units. -/
def mid (k : Nat) : ℚ := ((g.units k + g.units (k + 1) : Nat) : ℚ) / 2

/-- A power of ten, in units. -/
def tenStep (exponent : Int) : ℚ := 10 ^ exponent * 2 ^ g.scale

/-- What lies in the cell of an index, without regard to where the grid ends. -/
structure Around (k : Nat) (u : ℚ) : Prop where
  above : ∀ j, k = j + 1 → g.mid j ≤ u ∧ (k % 2 = 1 → g.mid j ≠ u)
  below : u ≤ g.mid k ∧ (k % 2 = 1 → u ≠ g.mid k)

/-- What lies in the cell of an index. The last cell has no end. -/
structure Cell (k : Nat) (u : ℚ) : Prop where
  le_top : k ≤ g.top
  above : ∀ j, k = j + 1 → g.mid j ≤ u ∧ (k % 2 = 1 → g.mid j ≠ u)
  below : k < g.top → u ≤ g.mid k ∧ (k % 2 = 1 → u ≠ g.mid k)

variable {g}

theorem tenStep_pos (g : Grid) (exponent : Int) : 0 < g.tenStep exponent :=
  mul_pos (zpow_pos (by norm_num) _) (by positivity)

theorem doublings_eq_zero {k : Nat} (small : k < 2 ^ (g.frac + 1)) : g.doublings k = 0 := by
  have block : k / 2 ^ g.frac < 2 := by
    rw [Nat.div_lt_iff_lt_mul (Nat.two_pow_pos _), ← Nat.pow_succ']
    exact small
  rw [doublings]
  omega

/-- An index is taken apart into its doublings and what is counted in steps of that size. -/
theorem units_of_steps {x m : Nat} (least : x = 0 ∨ 2 ^ g.frac ≤ m) (most : m < 2 ^ (g.frac + 1)) :
    g.doublings (x * 2 ^ g.frac + m) = x ∧ g.units (x * 2 ^ g.frac + m) = m * 2 ^ x := by
  have count : g.doublings (x * 2 ^ g.frac + m) = x := by
    rcases least with rfl | least
    · rw [Nat.zero_mul, Nat.zero_add]
      exact doublings_eq_zero most
    · have block : m / 2 ^ g.frac = 1 := by
        rw [Nat.div_eq_iff (Nat.two_pow_pos _)]
        rw [Nat.pow_succ] at most
        omega
      rw [doublings, Nat.add_comm, Nat.add_mul_div_right _ _ (Nat.two_pow_pos _), block]
      omega
  refine ⟨count, ?_⟩
  rw [units, count, Nat.add_sub_cancel_left]

/-- Every index is of that form. -/
theorem exists_steps (g : Grid) (k : Nat) :
    ∃ x m, k = x * 2 ^ g.frac + m ∧ (x = 0 ∨ 2 ^ g.frac ≤ m) ∧ m < 2 ^ (g.frac + 1) := by
  have whole := Nat.div_add_mod k (2 ^ g.frac)
  have part := Nat.mod_lt k (Nat.two_pow_pos g.frac)
  rw [Nat.mul_comm] at whole
  cases blocks : k / 2 ^ g.frac with
  | zero =>
    rw [blocks] at whole
    exact ⟨0, k, by omega, Or.inl rfl, by rw [Nat.pow_succ]; omega⟩
  | succ x =>
    rw [blocks, Nat.add_mul] at whole
    exact ⟨x, 2 ^ g.frac + k % 2 ^ g.frac, by omega, Or.inr (Nat.le_add_right _ _),
      by rw [Nat.pow_succ]; omega⟩

theorem units_succ (g : Grid) (k : Nat) : g.units (k + 1) = g.units k + 2 ^ g.doublings k := by
  obtain ⟨x, m, rfl, least, most⟩ := exists_steps g k
  obtain ⟨count, here⟩ := units_of_steps least most
  rw [here, count]
  by_cases last : m + 1 < 2 ^ (g.frac + 1)
  · have next := (units_of_steps (x := x) (m := m + 1) (by omega) last).2
    rw [Nat.add_assoc, next, Nat.add_mul, Nat.one_mul]
  · -- The block ends, and the next index is the first of the next block.
    have full : m + 1 = 2 ^ g.frac * 2 := by
      rw [Nat.pow_succ] at most last
      omega
    have start : x * 2 ^ g.frac + m + 1 = (x + 1) * 2 ^ g.frac + 2 ^ g.frac := by
      rw [Nat.add_mul]
      omega
    have first : 2 ^ g.frac < 2 ^ (g.frac + 1) := Nat.pow_lt_pow_succ (by decide)
    rw [start, (units_of_steps (Or.inr (Nat.le_refl _)) first).2, Nat.pow_succ']
    calc 2 ^ g.frac * (2 * 2 ^ x) = (2 ^ g.frac * 2) * 2 ^ x := by rw [Nat.mul_assoc]
      _ = m * 2 ^ x + 2 ^ x := by rw [← full, Nat.add_mul, Nat.one_mul]

theorem units_strictMono (g : Grid) : StrictMono g.units :=
  strictMono_nat_of_lt_succ fun k => by
    rw [units_succ]
    exact Nat.lt_add_of_pos_right (Nat.two_pow_pos _)

theorem units_zero (g : Grid) : g.units 0 = 0 := by
  have steps := (units_of_steps (g := g) (x := 0) (m := 0) (Or.inl rfl) (Nat.two_pow_pos _)).2
  simpa using steps

/-- The index that is found for a number of units holds the largest magnitude that is no larger. -/
theorem below_spec (g : Grid) (u : Nat) :
    g.units (g.below u) ≤ u ∧ u < g.units (g.below u + 1) := by
  have steps : (u.log2 - g.frac = 0 ∨ 2 ^ g.frac ≤ u / 2 ^ (u.log2 - g.frac)) ∧
      u / 2 ^ (u.log2 - g.frac) < 2 ^ (g.frac + 1) := by
    have most := Nat.lt_log2_self (n := u)
    refine ⟨?_, ?_⟩
    · by_cases small : u.log2 ≤ g.frac
      · exact Or.inl (by omega)
      · have some : u ≠ 0 := by
          rintro rfl
          simp at small
        have least := Nat.log2_self_le some
        refine Or.inr ?_
        rw [Nat.le_div_iff_mul_le (Nat.two_pow_pos _), ← Nat.pow_add]
        rwa [show g.frac + (u.log2 - g.frac) = u.log2 by omega]
    · rw [Nat.div_lt_iff_lt_mul (Nat.two_pow_pos _), ← Nat.pow_add]
      exact Nat.lt_of_lt_of_le most (Nat.pow_le_pow_right (by decide) (by omega))
  obtain ⟨count, here⟩ := units_of_steps steps.1 steps.2
  rw [units_succ, below, count, here]
  have split := Nat.div_add_mod u (2 ^ (u.log2 - g.frac))
  have part := Nat.mod_lt u (Nat.two_pow_pos (u.log2 - g.frac))
  rw [Nat.mul_comm] at split
  omega

theorem mid_eq (g : Grid) (k : Nat) : g.mid k = g.units k + 2 ^ g.doublings k / 2 := by
  rw [mid, units_succ]
  push_cast
  ring

theorem units_lt_mid (g : Grid) (k : Nat) : (g.units k : ℚ) < g.mid k := by
  rw [mid_eq]
  have := pow_pos (two_pos (α := ℚ)) (g.doublings k)
  linarith

theorem mid_lt_units (g : Grid) (k : Nat) : g.mid k < g.units (k + 1) := by
  rw [mid_eq, units_succ]
  have := pow_pos (two_pos (α := ℚ)) (g.doublings k)
  push_cast
  linarith

theorem mid_strictMono (g : Grid) : StrictMono g.mid :=
  strictMono_nat_of_lt_succ fun k => (mid_lt_units g k).trans (units_lt_mid g (k + 1))

/-- The last cell takes in all that lies beyond. -/
theorem Around.cell {k : Nat} {u : ℚ} (around : g.Around k u) : g.Cell (min g.top k) u := by
  rcases Nat.le_total k g.top with within | beyond
  · rw [Nat.min_eq_right within]
    exact ⟨within, around.above, fun _ => around.below⟩
  · rw [Nat.min_eq_left beyond]
    refine ⟨Nat.le_refl _, ?_, fun h => absurd h (Nat.lt_irrefl _)⟩
    intro j top
    obtain ⟨i, rfl⟩ : ∃ i, k = i + 1 := ⟨k - 1, by omega⟩
    obtain ⟨least, odd⟩ := around.above i rfl
    rcases Nat.lt_or_ge j i with before | last
    · have strict := (mid_strictMono g before).trans_le least
      exact ⟨strict.le, fun _ => strict.ne⟩
    · obtain rfl : i = j := by omega
      rw [top]
      exact ⟨least, odd⟩

/-- Twice the excess over an index is compared with the gap to the next as the quotient is with the
middle. -/
theorem excess_iff {k num den : Nat} (pos : 0 < den) (least : g.units k * den ≤ num) :
    (2 ^ g.doublings k * den < 2 * (num - g.units k * den) ↔ g.mid k < (num : ℚ) / den) ∧
      (2 ^ g.doublings k * den = 2 * (num - g.units k * den) ↔ g.mid k = (num : ℚ) / den) := by
  have posQ : (0 : ℚ) < 2 * den := by
    have : (0 : ℚ) < den := by exact_mod_cast pos
    linarith
  have excess : ((2 * (num - g.units k * den) : Nat) : ℚ) =
      ((2 ^ g.doublings k * den : Nat) : ℚ) + 2 * den * (num / den - g.mid k) := by
    rw [mid_eq]
    push_cast [Nat.cast_sub least]
    field_simp
    ring
  constructor
  · rw [← Nat.cast_lt (α := ℚ), excess, lt_add_iff_pos_right, mul_pos_iff_of_pos_left posQ, sub_pos]
  · rw [← Nat.cast_inj (R := ℚ), excess, left_eq_add, mul_eq_zero, or_iff_right posQ.ne', sub_eq_zero]
    exact eq_comm

/-- The nearest index is that of the cell. -/
theorem cell_nearest (g : Grid) (num : Nat) {den : Nat} (pos : 0 < den) :
    g.Cell (g.nearest num den) ((num : ℚ) / den) := by
  have posQ : (0 : ℚ) < den := by exact_mod_cast pos
  obtain ⟨least, most⟩ := below_spec g (num / den)
  rw [nearest]
  generalize g.below (num / den) = k at least most
  have least : g.units k * den ≤ num := (Nat.le_div_iff_mul_le pos).mp least
  have most : num < g.units (k + 1) * den := (Nat.div_lt_iff_lt_mul pos).mp most
  obtain ⟨passed, even⟩ := excess_iff pos least
  have least : (g.units k : ℚ) ≤ num / den := by
    rw [le_div_iff₀ posQ]
    exact_mod_cast least
  have most : (num : ℚ) / den < g.units (k + 1) := by
    rw [div_lt_iff₀ posQ]
    exact_mod_cast most
  refine Around.cell ?_
  split
  next up =>
    rw [passed, even] at up
    have above : g.mid k ≤ (num : ℚ) / den := up.elim le_of_lt fun h => h.1.le
    have strict := most.trans (units_lt_mid g (k + 1))
    refine ⟨?_, strict.le, fun _ => strict.ne⟩
    intro j same
    obtain rfl : k = j := by omega
    refine ⟨above, fun odd same => ?_⟩
    rcases up with h | h
    · exact h.ne same
    · omega
  next down =>
    rw [passed, even, not_or, not_lt, not_and] at down
    refine ⟨?_, down.1, fun odd same => down.2 same.symm odd⟩
    rintro j rfl
    have strict := (mid_lt_units g j).trans_le least
    exact ⟨strict.le, fun _ => strict.ne⟩

/-- Cells stand in the order of their indexes. -/
theorem Cell.le {k k' : Nat} {u u' : ℚ} (here : g.Cell k u) (there : g.Cell k' u') (le : u ≤ u') :
    k ≤ k' := by
  by_contra before
  obtain ⟨j, rfl⟩ : ∃ j, k = j + 1 := ⟨k - 1, by omega⟩
  obtain ⟨above, odd⟩ := here.above j rfl
  obtain ⟨below, odd'⟩ := there.below (by have := here.le_top; omega)
  have order : g.mid k' ≤ g.mid j := (mid_strictMono g).monotone (by omega)
  have same : g.mid k' = g.mid j := by linarith
  obtain rfl : k' = j := (mid_strictMono g).injective same
  rcases Nat.mod_two_eq_zero_or_one k' with even | uneven
  · exact odd (by omega) (by linarith)
  · exact odd' uneven (by linarith)

theorem Cell.unique {k k' : Nat} {u : ℚ} (here : g.Cell k u) (there : g.Cell k' u) : k = k' :=
  Nat.le_antisymm (here.le there le_rfl) (there.le here le_rfl)

/-- A magnitude of the grid lies in its own cell. -/
theorem cell_units {k : Nat} (within : k ≤ g.top) : g.Cell k (g.units k) := by
  refine ⟨within, ?_, fun _ => ⟨(units_lt_mid g k).le, fun _ => (units_lt_mid g k).ne⟩⟩
  rintro j rfl
  exact ⟨(mid_lt_units g j).le, fun _ => (mid_lt_units g j).ne⟩

theorem cell_zero {u : ℚ} (small : 2 * u < 1) : g.Cell 0 u := by
  refine ⟨Nat.zero_le _, fun j h => by omega, fun _ => ⟨?_, by omega⟩⟩
  have first := mid_eq g 0
  rw [units_zero, doublings_eq_zero (Nat.two_pow_pos _)] at first
  rw [first]
  push_cast
  linarith

end Grid

namespace Binary

attribute [local instance] natPow

variable {g : Grid}

/-- A quotient of units is rounded to the index of its cell. -/
theorem ofUnits_cell (g : Grid) (neg : Bool) (num : Nat) {den : Nat} (pos : 0 < den) :
    ∃ k : Fin (g.top + 1), (ofUnits neg num den : Binary g) = .real neg k ∧
      g.Cell k ((num : ℚ) / den) :=
  ⟨_, rfl, Grid.cell_nearest g num pos⟩

/-- A decimal that is taken for zero is less than half a unit. -/
theorem tiny_decimal {digits scale e : Nat} (small : Nat.log2 digits + scale < 3 * e) :
    2 * ((digits : ℚ) * (1 / 10 ^ (e + 1)) * 2 ^ scale) < 1 := by
  have few : digits * 2 ^ scale < 8 ^ e := by
    calc digits * 2 ^ scale < 2 ^ (digits.log2 + 1) * 2 ^ scale :=
          Nat.mul_lt_mul_of_pos_right Nat.lt_log2_self (Nat.two_pow_pos _)
      _ = 2 ^ (digits.log2 + 1 + scale) := (Nat.pow_add _ _ _).symm
      _ ≤ 2 ^ (3 * e) := Nat.pow_le_pow_right (by decide) (by omega)
      _ = 8 ^ e := by rw [Nat.pow_mul]
  have few : (digits : ℚ) * 2 ^ scale < 8 ^ e := by exact_mod_cast few
  have power : (8 : ℚ) ^ e ≤ 10 ^ e := pow_le_pow_left₀ (by norm_num) (by norm_num) e
  have pos : (0 : ℚ) < 10 ^ e := by positivity
  have whole : 2 * ((digits : ℚ) * (1 / 10 ^ (e + 1)) * 2 ^ scale) =
      (digits * 2 ^ scale) / (5 * 10 ^ e) := by
    field_simp
    ring
  rw [whole, div_lt_one (by positivity)]
  linarith

/-- A decimal that is not too great is rounded to the index of its cell. -/
theorem ofDecimal_cell (g : Grid) (neg : Bool) (digits : Nat) {exponent : Int}
    (bound : exponent ≤ 2 * g.scale) :
    ∃ k : Fin (g.top + 1), (ofDecimal neg digits exponent : Binary g) = .real neg k ∧
      g.Cell k (digits * g.tenStep exponent) := by
  rw [Grid.tenStep, ← mul_assoc]
  unfold ofDecimal
  split
  next none =>
    refine ⟨0, rfl, ?_⟩
    rw [none]
    exact Grid.cell_zero (by simp)
  next some =>
  split
  next e =>
    rw [Int.ofNat_eq_natCast] at bound
    rw [if_neg (by omega)]
    obtain ⟨k, rounded, cell⟩ := ofUnits_cell g neg (digits * 10 ^ e * g.one) one_pos
    refine ⟨k, rounded, ?_⟩
    rw [Grid.one] at cell
    push_cast at cell
    rw [div_one] at cell
    simpa using cell
  next e =>
    have exponent : (10 : ℚ) ^ (Int.negSucc e) = 1 / 10 ^ (e + 1) := by
      rw [zpow_negSucc, one_div]
    rw [exponent]
    split
    next small => exact ⟨0, rfl, Grid.cell_zero (tiny_decimal small)⟩
    next =>
      obtain ⟨k, rounded, cell⟩ :=
        ofUnits_cell g neg (digits * g.one) (Nat.pow_pos (n := e + 1) (show 0 < 10 by decide))
      refine ⟨k, rounded, ?_⟩
      have same : ((digits * g.one : Nat) : ℚ) / ((10 ^ (e + 1) : Nat) : ℚ) =
          digits * (1 / 10 ^ (e + 1)) * 2 ^ g.scale := by
        rw [Grid.one]
        push_cast
        ring
      rwa [same] at cell

end Binary

end FexprLisp
