import FexprLisp.Proofs.Brackets
import FexprLisp.Proofs.Numerals
import FexprLisp.Proofs.ShortestDigits

/-!
# Numbers read back

A number is written with digits that round to it in one step, and a numeral is read in two. The two
agree unless the double nearest to the digits is a middle. Digits that come that close to a middle
are a fraction close to a ratio of a power of ten and a power of two, and only one number has such
digits. All others survive being written and read.
-/

namespace FexprLisp

attribute [local instance] natPow

open Grid Single

theorem cast_ratioTop (exponent : Int) :
    (ratioTop exponent : ℚ) = 2 * single.tenStep exponent * 10 ^ (-exponent).toNat := by
  rw [ratioTop, tenStep, show 150 = single.scale + 1 from rfl]
  push_cast
  rw [← zpow_mul_toNat exponent, pow_succ]
  ring

theorem cast_ratioBottom (exponent : Int) (step : Nat) :
    (ratioBottom exponent step : ℚ) = 2 ^ step * 10 ^ (-exponent).toNat := by
  rw [ratioBottom]
  push_cast
  rfl

/-- Digits beside a middle are one of the known fractions. -/
theorem mem_knownClose_of_beside {j digits step half : Nat} {exponent : Int}
    (nearest : Nearest (j + 1) digits exponent) (within : j + 1 < single.top)
    (bound : exponent ≤ 38) (middle : Middle (j + 1) step half)
    (beside : Beside step half (digits * single.tenStep exponent)) :
    (half, digits) ∈ knownClose exponent step := by
  have scale : (0 : ℚ) < 10 ^ (-exponent).toNat := by positivity
  obtain ⟨pos, few⟩ := nearest.few within middle beside
  have difference : (digits : ℚ) * ratioTop exponent - half * ratioBottom exponent step =
      (2 * (digits * single.tenStep exponent) - half * 2 ^ step) * 10 ^ (-exponent).toNat := by
    rw [cast_ratioTop, cast_ratioBottom]
    ring
  refine mem_knownClose bound ?_ pos few middle.lt ?_ ?_
  · have coarse := nearest.coarse within middle beside
    have step := tenStep_pos single exponent
    rw [← Nat.cast_le (α := ℚ), cast_ratioTop, cast_ratioBottom]
    refine mul_le_mul_of_nonneg_right ?_ scale.le
    linarith
  · intro same
    rw [← Nat.cast_inj (R := ℚ), Nat.cast_mul, Nat.cast_mul, ← sub_eq_zero, difference] at same
    exact sub_ne_zero.mpr beside.apart ((mul_eq_zero.mp same).resolve_right scale.ne')
  · rw [← Int.cast_le (R := ℚ)]
    push_cast
    rw [difference, cast_ratioBottom, abs_mul, abs_of_pos scale, mul_right_comm]
    exact mul_le_mul_of_nonneg_right beside.close scale.le

/-- The one magnitude that does not survive. -/
def astray : Fin (single.top + 1) := ⟨0x15ae43fd, by decide⟩

/-- Twice as great a magnitude would have digits twice as great, but has fewer. -/
theorem shortest_twice_astray : shortest ⟨0x162e43fd, by decide⟩ ≠ (14077062, -32) := by
  decide +kernel

/-- Only one odd index has digits beside a middle. -/
theorem eq_astray_of_beside {k : Fin (single.top + 1)} {step half : Nat} (within : k.val < single.top)
    (middle : Middle k step half)
    (beside : Beside step half ((shortest k).1 * single.tenStep (shortest k).2)) : k = astray := by
  obtain ⟨nearest, -, bound⟩ := nearest_shortest k
  have odd := middle.odd
  obtain ⟨j, same⟩ : ∃ j, k.val = j + 1 := ⟨k.val - 1, by omega⟩
  have known := mem_knownClose_of_beside (same ▸ nearest) (same ▸ within) bound (same ▸ middle) beside
  obtain ⟨m, index, -, -, side⟩ := middle.index
  rw [knownClose] at known
  split at known
  next place =>
    obtain ⟨rfl, -⟩ := Prod.mk.inj (List.mem_singleton.mp known)
    have here : k.val = 0x15ae43fd := by omega
    exact Fin.ext here
  next =>
    split at known
    next place =>
      obtain ⟨rfl, digits⟩ := Prod.mk.inj (List.mem_singleton.mp known)
      have twice : k = ⟨0x162e43fd, by decide⟩ := Fin.ext (by dsimp only; omega)
      exact absurd (Prod.ext digits place.1) (twice ▸ shortest_twice_astray)
    next => cases known

/-- A numeral of the value of the digits is read as the number they are the digits of. -/
theorem toSingle_of_value (neg : Bool) {k : Fin (single.top + 1)} {digits : Nat} {exponent : Int}
    (within : k.val < single.top) (bound : exponent ≤ 2 * single.scale)
    (value : digits * single.tenStep exponent =
      (shortest k).1 * single.tenStep (shortest k).2) (other : k ≠ astray) :
    (Numeral.decimal neg digits exponent).toSingle = .real neg k := by
  have cell := (nearest_shortest k).1.cell
  rw [← value] at cell
  rcases Numeral.toSingle_or_beside neg bound within cell with read | ⟨step, half, middle, beside⟩
  · exact read
  · rw [value] at beside
    exact absurd (eq_astray_of_beside within middle beside) other

theorem readsBack_of_ne_astray (neg : Bool) {k : Fin (single.top + 1)} (other : k ≠ astray) :
    ReadsBack (.real neg k) := by
  by_cases infinite : k.val = single.top
  · obtain rfl : k = ⟨single.top, Nat.lt_succ_self _⟩ := Fin.ext infinite
    exact readsBack_infinite neg
  by_cases zero : k.val = 0
  · obtain rfl : k = 0 := Fin.ext zero
    exact readsBack_zero neg
  have within : k.val < single.top := by
    have := k.isLt
    omega
  obtain ⟨digits, exponent, read, same⟩ := ofText?_magnitude Layout.standard neg infinite zero
  obtain ⟨-, -, most⟩ := nearest_shortest k
  have value : exponent ≤ 2 * single.scale ∧ digits * single.tenStep exponent =
      (shortest k).1 * single.tenStep (shortest k).2 := by
    rcases same with ⟨rfl, rfl⟩ | ⟨e, power, rfl, rfl⟩
    · exact ⟨most.trans (by decide), rfl⟩
    · refine ⟨by decide, ?_⟩
      rw [power, tenStep, tenStep, zpow_natCast, zpow_neg_one]
      push_cast
      rw [pow_succ]
      field_simp
  rw [ReadsBack, numberText, singleOfText?, read, Option.map_some,
    toSingle_of_value neg within value.1 value.2 other]

/-- What a number is after it is written and read. -/
def reread : Single → Single
  | .nan => .nan
  | .real neg k => .real neg (if k = astray then ⟨0x15ae43fe, by decide⟩ else k)

theorem reread_eq_iff (v : Single) : reread v = v ↔ ∀ neg, v ≠ .real neg astray := by
  cases v with
  | nan => simp [reread]
  | real neg k =>
    by_cases same : k = astray
    · subst same
      refine iff_of_false ?_ fun other => other neg rfl
      cases neg <;> decide
    · refine iff_of_true (by rw [reread, if_neg same]) fun neg' eq => same ?_
      exact (Binary.real.inj eq).2

theorem singleOfText?_numberText (v : Single) : singleOfText? (numberText v) = some (reread v) := by
  cases v with
  | nan => exact readsBack_nan
  | real neg k =>
    by_cases same : k = astray
    · subst same
      cases neg <;> decide +kernel
    · rw [reread, if_neg same]
      exact readsBack_of_ne_astray neg same

theorem readsBack_iff (v : Single) : ReadsBack v ↔ ∀ neg, v ≠ .real neg astray := by
  rw [ReadsBack, singleOfText?_numberText, Option.some.injEq, reread_eq_iff]

/-- A written number is one atom of harmless characters. It stands for that number, of the same sign,
unless its magnitude is the one whose digits are nearest to a double halfway to the next. -/
theorem numberText_reads (v : Single) :
    (∀ c ∈ numberText v, isBlank c = false ∧ c ∉ ['_', '(', ')', '"', '\'', '\\']) ∧
      lex (numberText v) = ⟨[⟨.atom, numberText v⟩], false⟩ ∧
      parseAtom (numberText v) = .ok (.number (reread v)) ∧
      (reread v = v ↔ ∀ neg, v ≠ .real neg astray) := by
  have read := singleOfText?_numberText v
  refine ⟨?_, ?_, parseAtom_numberText read, reread_eq_iff v⟩
  · intro c mem
    have plain := isPlain_numberText mem
    refine ⟨Bool.eq_false_iff.mpr fun blank => plain.notStop (Or.inl blank), ?_⟩
    intro special
    simp only [List.mem_cons, List.not_mem_nil, or_false] at special
    rcases special with rfl | rfl | rfl | rfl | rfl | rfl
    · exact plain.notUnderscore rfl
    · exact plain.notStop (Or.inr (Or.inl rfl))
    · exact plain.notStop (Or.inr (Or.inr rfl))
    · exact plain.notSpecial.2.1 rfl
    · exact plain.notSpecial.2.2 rfl
    · exact plain.notBackslash rfl
  · have one := lex_atom (atomText_numberText read) (show Token.EndsAtom [] from trivial)
    rw [List.append_nil, lex_nil] at one
    exact one

/-- The digits of one number are read as the next greater one. -/
theorem astray_comes_back_greater :
    numberText (.real false astray) = "7.038531e-26".toList ∧
      parseAtom "7.038531e-26".toList = .ok (.number (.real false ⟨0x15ae43fe, by decide⟩)) ∧
      parseAtom (numberText (.real false astray)) ≠ .ok (.number (.real false astray)) := by
  have written : numberText (.real false astray) = "7.038531e-26".toList := by decide +kernel
  have read := parseAtom_numberText (singleOfText?_numberText (.real false astray))
  refine ⟨written, written ▸ read, ?_⟩
  rw [read]
  intro same
  cases same

end FexprLisp
