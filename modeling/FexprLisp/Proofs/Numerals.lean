import FexprLisp.Proofs.Atoms
import Mathlib.Tactic.Ring

/-!
# Reading written numbers

In either layout a numeral spells the digits that it was made of, with zeros added at an end. It is
read as a decimal of the same value: the exact digits and exponent in the scientific layout, and in
the positional one as many places as stand behind the point.
-/

namespace FexprLisp

attribute [local instance] natPow

/-- The characters are digits of these values. -/
def Spells (t : Text) (ds : List Nat) : Prop := t.map digitValue? = ds.map some

namespace Spells

variable {t t' : Text} {ds ds' : List Nat}

theorem length (h : Spells t ds) : t.length = ds.length := by
  simpa using congrArg List.length h

theorem append (h : Spells t ds) (h' : Spells t' ds') : Spells (t ++ t') (ds ++ ds') := by
  rw [Spells, List.map_append, List.map_append, h, h']

theorem take (h : Spells t ds) (n : Nat) : Spells (t.take n) (ds.take n) := by
  rw [Spells, List.map_take, List.map_take, h]

theorem drop (h : Spells t ds) (n : Nat) : Spells (t.drop n) (ds.drop n) := by
  rw [Spells, List.map_drop, List.map_drop, h]

theorem zeros (n : Nat) : Spells (List.replicate n '0') (List.replicate n 0) := by
  rw [Spells, List.map_replicate, List.map_replicate]
  rfl

theorem padded (h : Spells t ds) (width : Nat) :
    Spells (padded width t) (List.replicate (width - t.length) 0 ++ ds) :=
  (zeros _).append h

/-- Digits are read until something else stands there. -/
theorem span (h : Spells t ds) {rest : Text} (stop : ∀ c r, rest = c :: r → digitValue? c = none) :
    Numeral.spanDigits (t ++ rest) = (ds, rest) := by
  induction t generalizing ds with
  | nil =>
    obtain rfl : ds = [] := List.map_eq_nil_iff.mp h.symm
    cases rest with
    | nil => rfl
    | cons c r => rw [List.nil_append, Numeral.spanDigits, stop c r rfl]
  | cons c t ih =>
    cases ds with
    | nil => cases h
    | cons d ds =>
      obtain ⟨value, tail⟩ := List.cons.inj h
      rw [List.cons_append, Numeral.spanDigits, value, ih tail]

end Spells

namespace Numeral

theorem foldl_ofDigits (n : Nat) (ds : List Nat) :
    ds.foldl (fun n d => 10 * n + d) n = n * 10 ^ ds.length + ofDigits ds := by
  induction ds generalizing n with
  | nil => simp [ofDigits]
  | cons d ds ih =>
    rw [ofDigits, List.foldl_cons, List.foldl_cons, ih, ih, List.length_cons, Nat.pow_succ]
    ring

theorem ofDigits_append (ds ds' : List Nat) :
    ofDigits (ds ++ ds') = ofDigits ds * 10 ^ ds'.length + ofDigits ds' := by
  rw [ofDigits, List.foldl_append, foldl_ofDigits]
  rfl

theorem ofDigits_zeros (n : Nat) : ofDigits (List.replicate n 0) = 0 := by
  induction n with
  | zero => rfl
  | succ n ih => rw [List.replicate_succ', ofDigits_append, ih, Nat.zero_mul, Nat.zero_add]; rfl

theorem ofDigits_padded (n : Nat) (ds : List Nat) :
    ofDigits (List.replicate n 0 ++ ds) = ofDigits ds := by
  rw [ofDigits_append, ofDigits_zeros, Nat.zero_mul, Nat.zero_add]

end Numeral

theorem digitValue?_digitChar {d : Nat} (small : d < 10) : digitValue? d.digitChar = some d := by
  have all : ∀ d < 10, digitValue? (Nat.digitChar d) = some d := by decide
  exact all d small

/-- A natural is written with digits of its value. -/
theorem exists_spells_natText (n : Nat) :
    ∃ ds, Spells (natText n) ds ∧ Numeral.ofDigits ds = n := by
  induction n using Nat.strongRecOn with
  | ind n ih =>
    rcases Nat.lt_or_ge n 10 with small | large
    · refine ⟨[n], ?_, by simp [Numeral.ofDigits]⟩
      rw [natText, Nat.toDigits_of_lt_base small, Spells, List.map_singleton, List.map_singleton,
        digitValue?_digitChar small]
    · obtain ⟨ds, spells, value⟩ := ih (n / 10) (Nat.div_lt_self (by omega) (by decide))
      have last : n % 10 < 10 := Nat.mod_lt n (by decide)
      refine ⟨ds ++ [n % 10], ?_, ?_⟩
      · rw [natText, Nat.toDigits_of_base_le (by decide) large]
        refine spells.append ?_
        rw [Spells, List.map_singleton, List.map_singleton, digitValue?_digitChar last]
      · rw [Numeral.ofDigits_append, value]
        have := Nat.div_add_mod n 10
        simp [Numeral.ofDigits]
        omega

theorem natText_ne_nil (n : Nat) : natText n ≠ [] := Nat.toDigits_ne_nil

theorem digitValue?_point : digitValue? '.' = none := by decide

theorem digitValue?_e : digitValue? 'e' = none := by decide

/-- Nothing here continues a row of digits. -/
def StopsDigits (rest : Text) : Prop := ∀ c r, rest = c :: r → digitValue? c = none

theorem stopsDigits_nil : StopsDigits [] := fun _ _ h => nomatch h

theorem stopsDigits_cons {c : Char} (h : digitValue? c = none) (r : Text) : StopsDigits (c :: r) :=
  fun _ _ same => (List.cons.inj same).1 ▸ h

namespace Numeral

theorem decimal?_point (neg : Bool) {t t' rest : Text} {ds ds' : List Nat} {e : Int}
    (whole : Spells t ds) (part : Spells t' ds') (nonempty : t ≠ []) (stop : StopsDigits rest)
    (exponent : exponent? rest = some e) :
    decimal? neg (t ++ '.' :: (t' ++ rest)) =
      some (decimal neg (ofDigits (ds ++ ds')) (e - ds'.length)) := by
  have some : ds ≠ [] := by
    rintro rfl
    exact nonempty (List.length_eq_zero_iff.mp whole.length)
  rw [decimal?, whole.span (stopsDigits_cons digitValue?_point _)]
  simp only [part.span stop]
  rw [if_neg (fun h => some (List.isEmpty_iff.mp h.1)), exponent]
  rfl

theorem decimal?_whole (neg : Bool) {t rest : Text} {ds : List Nat} {e : Int}
    (whole : Spells t ds) (nonempty : t ≠ []) (stop : StopsDigits rest)
    (noPoint : ∀ r, rest ≠ '.' :: r) (exponent : exponent? rest = some e) :
    decimal? neg (t ++ rest) = some (decimal neg (ofDigits ds) e) := by
  have some : ds ≠ [] := by
    rintro rfl
    exact nonempty (List.length_eq_zero_iff.mp whole.length)
  rw [decimal?, whole.span stop]
  dsimp only
  split
  next r => exact absurd rfl (noPoint r)
  next =>
    rw [if_neg (fun h => some (List.isEmpty_iff.mp h.1)), exponent]
    simp

/-- A written exponent is read as it is. -/
theorem exponent?_written (width : Nat) (power : Int) :
    exponent? ('e' :: (if power < 0 then '-' else '+') :: padded width (natText power.natAbs)) =
      some power := by
  obtain ⟨ds, spells, value⟩ := exists_spells_natText power.natAbs
  have digits := (spells.padded width).span stopsDigits_nil
  rw [List.append_nil] at digits
  have sign : splitSign ((if power < 0 then '-' else '+') ::
      padded width (natText power.natAbs)) =
      (decide (power < 0), padded width (natText power.natAbs)) := by
    by_cases negative : power < 0 <;> simp [negative, splitSign]
  obtain ⟨d, r, some⟩ : ∃ d r, List.replicate (width - (natText power.natAbs).length) 0 ++ ds =
      d :: r := by
    refine List.exists_cons_of_ne_nil fun none => natText_ne_nil power.natAbs ?_
    rw [← List.length_eq_zero_iff, spells.length, (List.append_eq_nil_iff.mp none).2]
    rfl
  rw [exponent?, if_pos (Or.inl rfl), sign]
  dsimp only
  rw [digits, some]
  dsimp only
  rw [← some, ofDigits_padded, value]
  by_cases negative : power < 0
  · rw [if_pos (by simpa using negative)]
    congr 1
    omega
  · rw [if_neg (by simpa using negative)]
    congr 1
    omega

/-- What a positional numeral is read as. -/
theorem decimal?_positional (neg : Bool) (digits : Nat) (exponent : Int) :
    ∃ digits' exponent', decimal? neg (Layout.positional digits exponent) =
        some (decimal neg digits' exponent') ∧
      (digits' = digits ∧ exponent' = exponent ∨
        ∃ e : Nat, exponent = e ∧ digits' = digits * 10 ^ (e + 1) ∧ exponent' = -1) := by
  obtain ⟨ds, spells, value⟩ := exists_spells_natText digits
  cases exponent with
  | ofNat e =>
    refine ⟨digits * 10 ^ (e + 1), -1, ?_, Or.inr ⟨e, rfl, rfl, rfl⟩⟩
    have read := decimal?_point neg (spells.append (.zeros e)) (.zeros 1)
      (List.append_ne_nil_of_left_ne_nil (natText_ne_nil digits) _) stopsDigits_nil rfl
    rw [ofDigits_append, ofDigits_append, ofDigits_zeros, ofDigits_zeros, value,
      List.length_replicate, List.length_replicate, Nat.add_zero, Nat.add_zero, Nat.mul_assoc,
      ← Nat.pow_add] at read
    exact read
  | negSucc e =>
    refine ⟨digits, Int.negSucc e, ?_, Or.inl ⟨rfl, rfl⟩⟩
    have all := spells.padded (e + 2)
    have long : e + 2 ≤ (padded (e + 2) (natText digits)).length := by
      rw [padded, List.length_append, List.length_replicate]
      omega
    rw [Layout.positional]
    have value' : ofDigits (List.replicate (e + 2 - (natText digits).length) 0 ++ ds) = digits := by
      rw [ofDigits_padded, value]
    generalize padded (e + 2) (natText digits) = t at *
    generalize List.replicate (e + 2 - (natText digits).length) 0 ++ ds = ds' at *
    have read := decimal?_point neg (all.take (t.length - (e + 1))) (all.drop (t.length - (e + 1)))
      (by
        intro none
        have := congrArg List.length none
        rw [List.length_take, List.length_nil] at this
        omega)
      stopsDigits_nil rfl
    rw [List.take_append_drop, value', List.append_nil, List.length_drop, ← all.length] at read
    rw [read]
    congr 2
    omega

/-- What a scientific numeral is read as. -/
theorem decimal?_scientific (neg : Bool) (l : Layout) (digits : Nat) (exponent : Int) :
    decimal? neg (l.scientific digits exponent) = some (decimal neg digits exponent) := by
  obtain ⟨ds, spells, value⟩ := exists_spells_natText digits
  have nonempty := natText_ne_nil digits
  rw [Layout.scientific]
  generalize natText digits = t at *
  have power := exponent?_written l.exponentWidth (exponent + (t.length - 1 : Nat))
  split
  next c c' r =>
    rcases ds with _ | ⟨d, ds⟩
    · cases spells
    obtain ⟨first, rest⟩ := List.cons.inj spells
    have whole : Spells [c] [d] := by rw [Spells, List.map_singleton, first]; rfl
    have part : Spells (c' :: r) ds := rest
    have read := decimal?_point neg whole part (List.cons_ne_nil _ _)
      (stopsDigits_cons digitValue?_e _) power
    have places : (c :: c' :: r).length - 1 = ds.length := part.length
    rw [places, add_sub_cancel_right, List.singleton_append, List.singleton_append, value] at read
    rw [places]
    exact read
  next short =>
    have read := decimal?_whole neg spells nonempty (stopsDigits_cons digitValue?_e _)
      (by simp) power
    have places : t.length - 1 = 0 := by
      rcases t with _ | ⟨c, _ | ⟨c', r⟩⟩
      · rfl
      · rfl
      · exact (short c c' r rfl).elim
    rw [places, Nat.cast_zero, add_zero, value] at read
    rw [places, Nat.cast_zero, add_zero]
    exact read

theorem trim_of_kept {p : Char → Bool} {t : Text} (kept : ∀ c ∈ t, p c = false) : trim p t = t := by
  have front : ∀ {t : Text}, (∀ c ∈ t, p c = false) → t.dropWhile p = t := by
    intro t kept
    cases t with
    | nil => rfl
    | cons c t => simp [kept c List.mem_cons_self]
  rw [trim, front kept, front fun c mem => kept c (List.mem_reverse.mp mem), List.reverse_reverse]

/-- A numeral that begins with a digit after its sign is no word. -/
theorem ofText?_signed (neg : Bool) {c : Char} {r : Text} (digit : c.isDigit = true)
    (plain : ∀ d ∈ c :: r, IsNumberChar d) :
    ofText? (if neg then '-' :: c :: r else c :: r) = decimal? neg (c :: r) := by
  have range : 48 ≤ c.toNat ∧ c.toNat ≤ 57 := by
    simpa [Char.isDigit, UInt32.le_iff_toNat_le] using digit
  have other : ∀ d : Char, (d.toNat < 48 ∨ 57 < d.toNat) → c ≠ d := by
    rintro d out rfl
    omega
  have sign : splitSign (if neg then '-' :: c :: r else c :: r) = (neg, c :: r) := by
    cases neg with
    | true => rfl
    | false =>
      rw [if_neg (by decide), splitSign]
      · intro r' same
        exact other '-' (by decide) (List.cons.inj same).1
      · intro r' same
        exact other '+' (by decide) (List.cons.inj same).1
  have kept : ∀ d ∈ (if neg then '-' :: c :: r else c :: r), isNumeralBlank d = false := by
    intro d mem
    have number : IsNumberChar d := by
      cases neg with
      | true =>
        rcases List.mem_cons.mp mem with rfl | mem
        · exact Or.inr (by decide)
        · exact plain d mem
      | false => exact plain d mem
    rw [isNumeralBlank, Bool.eq_false_iff.mpr fun blank =>
      (isPlain_of_number number).notStop (Or.inl blank), Bool.false_and]
  have lower : c.toLower = c := by
    refine dif_neg ?_
    rintro ⟨capital, -⟩
    have := UInt32.le_iff_toNat_le.mp capital
    have : 65 ≤ c.toNat := this
    omega
  rw [ofText?, trim_of_kept kept, sign]
  dsimp only
  rw [if_neg, if_neg]
  · intro word
    rw [List.map_cons, lower] at word
    exact other 'n' (by decide) (List.cons.inj word).1
  · rintro (word | word) <;> rw [List.map_cons, lower] at word <;>
      exact other 'i' (by decide) (List.cons.inj word).1

end Numeral

theorem isDigit_natText {n : Nat} {c : Char} (mem : c ∈ natText n) : c.isDigit = true :=
  Nat.isDigit_of_mem_toDigits (by decide) (by decide) mem

theorem isDigit_padded {width n : Nat} {c : Char} (mem : c ∈ padded width (natText n)) :
    c.isDigit = true := by
  rcases List.mem_append.mp mem with zero | digit
  · rw [List.eq_of_mem_replicate zero]
    rfl
  · exact isDigit_natText digit

theorem exists_digit_cons {t : Text} (rest : Text) (nonempty : t ≠ [])
    (digits : ∀ c ∈ t, c.isDigit = true) : ∃ c r, t ++ rest = c :: r ∧ c.isDigit = true := by
  obtain ⟨c, r, rfl⟩ := List.exists_cons_of_ne_nil nonempty
  exact ⟨c, r ++ rest, rfl, digits c List.mem_cons_self⟩

theorem exists_digit_positional (digits : Nat) (exponent : Int) :
    ∃ c r, Layout.positional digits exponent = c :: r ∧ c.isDigit = true := by
  cases exponent with
  | ofNat e =>
    rw [Layout.positional, List.append_assoc]
    exact exists_digit_cons _ (natText_ne_nil digits) fun c => isDigit_natText
  | negSucc e =>
    refine exists_digit_cons _ ?_ fun c mem => isDigit_padded (List.mem_of_mem_take mem)
    intro none
    have := congrArg List.length none
    rw [List.length_take, padded, List.length_append, List.length_replicate, List.length_nil] at this
    omega

theorem exists_digit_scientific (l : Layout) (digits : Nat) (exponent : Int) :
    ∃ c r, l.scientific digits exponent = c :: r ∧ c.isDigit = true := by
  rw [Layout.scientific]
  split
  next c c' r same =>
    exact ⟨c, _, rfl, isDigit_natText (n := digits) (same ▸ List.mem_cons_self)⟩
  next => exact exists_digit_cons _ (natText_ne_nil digits) fun c => isDigit_natText

/-- In either layout a number is read as the decimal that it was written from. -/
theorem ofText?_magnitude (l : Layout) (neg : Bool) {k : Fin (Grid.single.top + 1)}
    (finite : k.val ≠ Grid.single.top) (nonzero : k.val ≠ 0) :
    ∃ digits exponent, Numeral.ofText? (if neg then '-' :: l.magnitude k else l.magnitude k) =
        some (.decimal neg digits exponent) ∧
      (digits = (Single.shortest k).1 ∧ exponent = (Single.shortest k).2 ∨
        ∃ e : Nat, (Single.shortest k).2 = e ∧ digits = (Single.shortest k).1 * 10 ^ (e + 1) ∧
          exponent = -1) := by
  have plain : ∀ c ∈ l.magnitude k, IsNumberChar c := fun c => isNumberChar_magnitude
  rw [Layout.magnitude, if_neg finite, if_neg nonzero] at plain ⊢
  -- The search for the digits must not be run.
  generalize Single.shortest k = shortest at *
  obtain ⟨digits, exponent⟩ := shortest
  dsimp only at plain ⊢
  by_cases positional : l.isPositional k = true
  · rw [if_pos positional] at plain ⊢
    obtain ⟨c, r, same, digit⟩ := exists_digit_positional digits exponent
    obtain ⟨digits', exponent', read, value⟩ := Numeral.decimal?_positional neg digits exponent
    rw [same] at plain read ⊢
    exact ⟨digits', exponent', (Numeral.ofText?_signed neg digit plain).trans read, value⟩
  · rw [if_neg positional] at plain ⊢
    obtain ⟨c, r, same, digit⟩ := exists_digit_scientific l digits exponent
    have read := Numeral.decimal?_scientific neg l digits exponent
    rw [same] at plain read ⊢
    exact ⟨digits, exponent, (Numeral.ofText?_signed neg digit plain).trans read, Or.inl ⟨rfl, rfl⟩⟩

end FexprLisp
