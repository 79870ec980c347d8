import FexprLisp.Proofs.Rounding

/-!
# Rounding twice

A decimal is rounded to double precision and from there to single precision. Every middle of the
single grid is a double, so the double lies where the decimal did among the middles, or on one of
them. Only there can the second rounding go astray: the index is odd then, and the decimal is no
further from the middle than half a step between doubles.
-/

namespace FexprLisp

namespace Grid

attribute [local instance] natPow

variable {g : Grid}

/-- So few steps of a power of two are a magnitude of the grid. -/
theorem exists_units_eq (g : Grid) {m : Nat} (x : Nat) (few : m < 2 ^ (g.frac + 1)) :
    ∃ k, g.units k = m * 2 ^ x := by
  obtain ⟨least, most⟩ := below_spec g (m * 2 ^ x)
  obtain ⟨y, n, same, start, short⟩ := exists_steps g (g.below (m * 2 ^ x))
  obtain ⟨count, here⟩ := units_of_steps start short
  rw [units_succ, same, here, count] at most
  rw [same, here] at least
  refine ⟨y * 2 ^ g.frac + n, ?_⟩
  rw [here]
  rcases Nat.le_total y x with fine | coarse
  · obtain ⟨z, rfl⟩ := Nat.exists_eq_add_of_le fine
    have steps : m * 2 ^ (y + z) = m * 2 ^ z * 2 ^ y := by
      rw [Nat.add_comm, Nat.pow_add, Nat.mul_assoc]
    rw [steps] at least most ⊢
    have le := Nat.le_of_mul_le_mul_right least (Nat.two_pow_pos y)
    rw [← Nat.succ_mul] at most
    have lt := Nat.lt_of_mul_lt_mul_right most
    rw [show n = m * 2 ^ z by omega]
  · -- Steps of another size are as many as a block holds, which is too many.
    obtain ⟨z, rfl⟩ := Nat.exists_eq_add_of_le coarse
    rcases Nat.eq_zero_or_pos z with rfl | pos
    · have le := Nat.le_of_mul_le_mul_right least (Nat.two_pow_pos x)
      rw [Nat.add_zero, ← Nat.succ_mul] at most
      have lt := Nat.lt_of_mul_lt_mul_right most
      rw [show n = m by omega, Nat.add_zero]
    · exfalso
      have many : 2 ^ g.frac ≤ n := start.resolve_left (by omega)
      have whole : 2 ^ (g.frac + 1) * 2 ^ x ≤ n * 2 ^ (x + z) := by
        calc 2 ^ (g.frac + 1) * 2 ^ x = 2 ^ g.frac * 2 ^ (x + 1) := by
              rw [← Nat.pow_add, ← Nat.pow_add]
              congr 1
              omega
          _ ≤ n * 2 ^ (x + z) :=
              Nat.mul_le_mul many (Nat.pow_le_pow_right (by decide) (by omega))
      have excess := Nat.mul_lt_mul_of_pos_right few (Nat.two_pow_pos x)
      omega

/-- What lies in a cell is at most half a step away. -/
theorem Cell.near {k : Nat} {u : ℚ} (cell : g.Cell k u) (pos : 0 < k) (within : k < g.top) :
    |u - g.units k| ≤ 2 ^ g.doublings k / 2 := by
  obtain ⟨j, rfl⟩ : ∃ j, k = j + 1 := ⟨k - 1, by omega⟩
  have least := (cell.above j rfl).1
  have most := (cell.below within).1
  have steps : g.doublings j ≤ g.doublings (j + 1) :=
    Nat.sub_le_sub_right (Nat.div_le_div_right (Nat.le_succ j)) 1
  have power : (2 : ℚ) ^ g.doublings j ≤ 2 ^ g.doublings (j + 1) :=
    pow_le_pow_right₀ (by norm_num) steps
  have apart : (g.units (j + 1) : ℚ) = g.units j + 2 ^ g.doublings j := by
    rw [units_succ]
    push_cast
    rfl
  rw [mid_eq] at least most
  rw [abs_le]
  constructor <;> linarith

/-- A magnitude is at least that many steps. -/
theorem doublings_le (g : Grid) (k : Nat) :
    g.doublings k = 0 ∨ 2 ^ g.frac * 2 ^ g.doublings k ≤ g.units k := by
  obtain ⟨x, m, rfl, start, short⟩ := exists_steps g k
  obtain ⟨count, here⟩ := units_of_steps start short
  rw [count, here]
  exact start.imp id fun many => Nat.mul_le_mul_right _ many

/-- A number of half steps that is one of the two middles around an odd index of single precision. -/
structure Middle (k step half : Nat) : Prop where
  odd : k % 2 = 1
  index : ∃ m, k = step * 2 ^ 23 + m ∧ (step = 0 ∨ 2 ^ 23 ≤ m) ∧ m < 2 ^ 24 ∧
    (half + 1 = 2 * m ∨ half = 2 * m + 1)

namespace Middle

variable {k step half : Nat}

theorem lt (middle : Middle k step half) : half < 2 ^ 25 := by
  obtain ⟨m, _, _, short, side⟩ := middle.index
  omega

theorem pos (middle : Middle k step half) : 0 < half := by
  obtain ⟨m, same, _, _, side⟩ := middle.index
  have := middle.odd
  omega

end Middle

theorem mid_of_steps {x m : Nat} (start : x = 0 ∨ 2 ^ 23 ≤ m) (short : m < 2 ^ 24) :
    single.mid (x * 2 ^ 23 + m) = ((2 * m + 1 : Nat) : ℚ) * 2 ^ x / 2 := by
  obtain ⟨count, here⟩ := units_of_steps (g := single) start short
  rw [mid_eq, show x * 2 ^ 23 + m = x * 2 ^ single.frac + m from rfl, here, count]
  push_cast
  ring

/-- The two middles around an odd index are as far from it. The steps of a block are even in number,
so the index before it is in the same block. -/
theorem Middle.spread {j step half : Nat} (middle : Middle (j + 1) step half) :
    single.mid (j + 1) = single.units (j + 1) + 2 ^ step / 2 ∧
      single.mid j = single.units (j + 1) - 2 ^ step / 2 ∧
      ((half : ℚ) * 2 ^ step / 2 = single.mid (j + 1) ∨ (half : ℚ) * 2 ^ step / 2 = single.mid j) := by
  obtain ⟨m, same, start, short, side⟩ := middle.index
  have odd := middle.odd
  obtain ⟨n, rfl⟩ : ∃ n, m = n + 1 := ⟨m - 1, by omega⟩
  obtain rfl : j = step * 2 ^ 23 + n := by omega
  have here : single.units (step * 2 ^ 23 + (n + 1)) = (n + 1) * 2 ^ step :=
    (units_of_steps (g := single) start short).2
  rw [same, here, mid_of_steps start short, mid_of_steps (by omega) (by omega)]
  refine ⟨by push_cast; ring, by push_cast; ring, ?_⟩
  rcases side with below | above
  · rw [show half = 2 * n + 1 by omega]
    exact Or.inr rfl
  · rw [above]
    exact Or.inl rfl

/-- The middle above an odd index. -/
theorem exists_middle_above {k : Nat} (odd : k % 2 = 1) :
    ∃ step half, Middle k step half ∧ single.mid k = half * 2 ^ step / 2 := by
  obtain ⟨x, m, rfl, start, short⟩ := exists_steps single k
  exact ⟨x, 2 * m + 1, ⟨odd, m, rfl, start, short, Or.inr rfl⟩, mid_of_steps start short⟩

/-- The middle below an odd index. The steps of a block are even in number, so the index before it
is in the same block. -/
theorem exists_middle_below {j : Nat} (odd : (j + 1) % 2 = 1) :
    ∃ step half, Middle (j + 1) step half ∧ single.mid j = half * 2 ^ step / 2 := by
  obtain ⟨x, m, same, start, short⟩ := exists_steps single (j + 1)
  simp only [single] at same start short
  obtain ⟨n, rfl⟩ : ∃ n, m = n + 1 := ⟨m - 1, by omega⟩
  refine ⟨x, 2 * n + 1, ⟨odd, n + 1, same, start, short, Or.inl rfl⟩, ?_⟩
  obtain rfl : j = x * 2 ^ 23 + n := by omega
  exact mid_of_steps (by omega) (by omega)

/-- Infinity in double precision lies beyond so few steps of that size. -/
theorem lt_double_top {K m x : Nat} (few : m < 2 ^ double.frac) (small : x ≤ 2046)
    (here : double.units K = m * 2 ^ x) : K < double.top := by
  by_contra beyond
  have steps : 2046 ≤ double.doublings K := by
    rw [doublings]
    simp only [double] at beyond ⊢
    omega
  have least := (doublings_le double K).resolve_left (by omega)
  have powers := Nat.pow_le_pow_right Nat.two_pos (small.trans steps)
  have excess := Nat.mul_lt_mul_of_lt_of_le few powers (Nat.two_pow_pos _)
  omega

/-- Every middle of the single grid is a double. -/
theorem exists_double_mid {k : Nat} (within : k < single.top) :
    ∃ K, K < double.top ∧ (double.units K : ℚ) = single.mid k * 2 ^ 925 := by
  obtain ⟨x, m, same, start, short⟩ := exists_steps single k
  simp only [single] at same start short
  have last : x ≤ 253 := by
    rw [show single.top = 255 * 2 ^ 23 from rfl] at within
    omega
  obtain ⟨K, here⟩ := exists_units_eq double (m := 2 * m + 1) (x + 924)
    (Nat.lt_trans (show 2 * m + 1 < 2 ^ 25 by omega) (by decide))
  refine ⟨K, ?_, ?_⟩
  · have few : 2 * m + 1 < 2 ^ double.frac := Nat.lt_trans (by omega) (by decide : 2 ^ 25 < _)
    exact lt_double_top few (by omega) here
  · rw [here, same, mid_of_steps start short, pow_succ _ 924]
    push_cast
    rw [pow_add]
    generalize (2 : ℚ) ^ 924 = w
    ring

/-- A double in units of the single grid. -/
def widened (K : Nat) : ℚ := double.units K / 2 ^ 925

/-- The double that is nearest lies on no other side of a middle. -/
theorem widened_le {k K : Nat} {u : ℚ} (within : k < single.top)
    (nearest : double.Cell K (u * 2 ^ 925)) (le : u ≤ single.mid k) : widened K ≤ single.mid k := by
  obtain ⟨M, fits, here⟩ := exists_double_mid within
  have order : K ≤ M := by
    refine nearest.le (cell_units fits.le) ?_
    rw [here]
    exact mul_le_mul_of_nonneg_right le (by positivity)
  rw [widened, div_le_iff₀ (by positivity), ← here]
  exact_mod_cast (units_strictMono double).monotone order

theorem le_widened {k K : Nat} {u : ℚ} (within : k < single.top)
    (nearest : double.Cell K (u * 2 ^ 925)) (le : single.mid k ≤ u) : single.mid k ≤ widened K := by
  obtain ⟨M, fits, here⟩ := exists_double_mid within
  have order : M ≤ K := by
    refine (cell_units fits.le).le nearest ?_
    rw [here]
    exact mul_le_mul_of_nonneg_right le (by positivity)
  rw [widened, le_div_iff₀ (by positivity), ← here]
  exact_mod_cast (units_strictMono double).monotone order

/-- What is beside a number of half steps, no further off than half a step between doubles. -/
structure Beside (step half : Nat) (u : ℚ) : Prop where
  apart : 2 * u ≠ half * 2 ^ step
  close : |2 * u - half * 2 ^ step| * 2 ^ 29 ≤ 2 ^ step

theorem Beside.bounds {step half : Nat} {u : ℚ} (beside : Beside step half u) :
    -2 ^ step ≤ (2 * u - half * 2 ^ step) * 2 ^ 29 ∧
      (2 * u - half * 2 ^ step) * 2 ^ 29 ≤ 2 ^ step := by
  rw [← abs_le, abs_mul, abs_of_pos (by norm_num : (0 : ℚ) < 2 ^ 29)]
  exact beside.close

theorem lt_top_of_widened_le {k K : Nat} (within : k < single.top)
    (le : widened K ≤ single.mid k) : K < double.top := by
  obtain ⟨M, fits, here⟩ := exists_double_mid within
  rw [widened, div_le_iff₀ (by positivity), ← here, Nat.cast_le] at le
  exact ((units_strictMono double).le_iff_le.mp le).trans_lt fits

/-- A double that is a middle is nearest to nothing but its close neighbourhood. -/
theorem beside_of_widened {k K step half : Nat} {u : ℚ} (middle : Middle k step half)
    (within : K < double.top) (nearest : double.Cell K (u * 2 ^ 925))
    (falls : widened K = half * 2 ^ step / 2) (apart : u ≠ half * 2 ^ step / 2) :
    Beside step half u := by
  refine ⟨fun same => apart (by linarith), ?_⟩
  have here : double.units K = half * 2 ^ (step + 924) := by
    rw [widened, div_eq_iff (by positivity)] at falls
    rw [← Nat.cast_inj (R := ℚ), falls, pow_succ _ 924, Nat.cast_mul, Nat.cast_pow, pow_add,
      Nat.cast_two]
    generalize (2 : ℚ) ^ 924 = w
    ring
  have pos : 0 < K := by
    rcases Nat.eq_zero_or_pos K with rfl | pos
    · rw [units_zero] at here
      have := Nat.mul_pos middle.pos (Nat.two_pow_pos (step + 924))
      omega
    · exact pos
  -- The steps between doubles are two to the twenty-nine times as fine.
  have fine : double.doublings K ≤ step + 896 := by
    rcases doublings_le double K with none | some
    · omega
    · rw [here] at some
      have excess : 2 ^ 52 * 2 ^ double.doublings K < 2 ^ 25 * 2 ^ (step + 924) :=
        Nat.lt_of_le_of_lt some (Nat.mul_lt_mul_of_pos_right middle.lt (Nat.two_pow_pos _))
      rw [← Nat.pow_add, ← Nat.pow_add] at excess
      have := (Nat.pow_lt_pow_iff_right (by decide)).mp excess
      omega
  have near := nearest.near pos within
  have power : (2 : ℚ) ^ double.doublings K ≤ 2 ^ (step + 896) :=
    pow_le_pow_right₀ (by norm_num) fine
  rw [here] at near
  push_cast at near
  have scaled : u * 2 ^ 925 - (half : ℚ) * 2 ^ (step + 924) =
      (2 * u - half * 2 ^ step) * 2 ^ 924 := by
    rw [pow_succ _ 924, pow_add]
    generalize (2 : ℚ) ^ 924 = w
    ring
  rw [scaled, abs_mul, abs_of_pos (by positivity : (0 : ℚ) < 2 ^ 924)] at near
  have bound : |2 * u - half * 2 ^ step| * 2 ^ 924 ≤ 2 ^ step * 2 ^ 895 := by
    calc |2 * u - half * 2 ^ step| * 2 ^ 924 ≤ 2 ^ (step + 896) / 2 :=
          near.trans (div_le_div_of_nonneg_right power two_pos.le)
      _ = 2 ^ step * 2 ^ 895 := by
        rw [pow_add, pow_succ _ 895, ← mul_assoc, mul_div_cancel_right₀ _ two_ne_zero]
  rw [show 924 = 29 + 895 from rfl, pow_add, ← mul_assoc] at bound
  exact le_of_mul_le_mul_right bound (by positivity)

end Grid

namespace Binary

attribute [local instance] natPow

open Grid

/-- A double in a cell of the single grid is converted to the index of the cell. -/
theorem convert_of_cell (neg : Bool) {K : Fin (double.top + 1)} {k : Fin (single.top + 1)}
    (finite : K.val < double.top) (cell : single.Cell k (widened K)) :
    (real neg K : Double).convert single = real neg k := by
  obtain ⟨k', rounded, cell'⟩ := ofUnits_cell single neg (double.units K * single.one)
    (Nat.two_pow_pos double.scale)
  have widen : ((double.units K * single.one : Nat) : ℚ) / ((2 ^ double.scale : Nat) : ℚ) =
      widened K := by
    rw [widened, Grid.one, show double.scale = 925 + single.scale from rfl]
    push_cast
    rw [pow_add, mul_div_mul_right _ _ (by positivity)]
  rw [widen] at cell'
  rw [convert, if_neg (Nat.ne_of_lt finite), show k = k' from Fin.ext (cell.unique cell')]
  exact rounded

end Binary

namespace Numeral

attribute [local instance] natPow

open Grid

/-- A decimal in a cell of the single grid is read as the index of the cell, unless it is beside one
of the middles around an odd index. -/
theorem toSingle_or_beside (neg : Bool) {digits : Nat} {exponent : Int} {k : Fin (single.top + 1)}
    (bound : exponent ≤ 2 * single.scale) (within : k.val < single.top)
    (cell : single.Cell k (digits * single.tenStep exponent)) :
    (decimal neg digits exponent).toSingle = .real neg k ∨
      ∃ step half, Middle k step half ∧ Beside step half (digits * single.tenStep exponent) := by
  obtain ⟨K, first, nearest⟩ := Binary.ofDecimal_cell double neg digits
    (bound.trans (by decide : (2 * single.scale : Int) ≤ 2 * double.scale))
  have finer : double.tenStep exponent = single.tenStep exponent * 2 ^ 925 := by
    rw [tenStep, tenStep, mul_assoc, ← pow_add]
    rfl
  rw [finer, ← mul_assoc] at nearest
  generalize (digits : ℚ) * single.tenStep exponent = u at *
  obtain ⟨most, evenMost⟩ := cell.below within
  have upper := widened_le within nearest most
  have finite := lt_top_of_widened_le within upper
  by_cases above : k.val % 2 = 1 ∧ widened K = single.mid k
  · obtain ⟨odd, above⟩ := above
    obtain ⟨step, half, middle, mid⟩ := exists_middle_above odd
    rw [mid] at above
    exact Or.inr ⟨step, half, middle, beside_of_widened middle finite nearest above
      fun eq => evenMost odd (eq.trans mid.symm)⟩
  by_cases below : k.val % 2 = 1 ∧ ∃ j, k.val = j + 1 ∧ widened K = single.mid j
  · obtain ⟨odd, j, before, below⟩ := below
    obtain ⟨step, half, middle, mid⟩ := exists_middle_below (before ▸ odd)
    rw [← before] at middle
    rw [mid] at below
    exact Or.inr ⟨step, half, middle, beside_of_widened middle finite nearest below
      fun eq => (cell.above j before).2 odd (mid.trans eq.symm)⟩
  · have again : single.Cell k (widened K) := by
      refine ⟨within.le, ?_, fun _ => ⟨upper, fun odd eq => above ⟨odd, eq⟩⟩⟩
      intro j before
      refine ⟨le_widened (by omega) nearest (cell.above j before).1, fun odd eq => ?_⟩
      exact below ⟨odd, j, before, eq.symm⟩
    refine Or.inl ?_
    rw [toSingle, toDouble, first]
    exact Binary.convert_of_cell neg finite again

end Numeral

end FexprLisp
