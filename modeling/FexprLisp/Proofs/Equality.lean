import FexprLisp.Proofs.Readable

/-!
# The laws of equality

Equality is what its rules say, whichever way two chains are compared, and inequality is its
negation although functions have a rule of their own for it. It is symmetric and transitive. It is
not reflexive: not-a-number and functions equal nothing, and no more does a datum that has one of
them among its parts. Equal data that have a hash have the same hash.
-/

namespace FexprLisp

namespace Binary

variable {g : Grid}

/-- Two numbers are the same if they are both numbers and differ at most in the sign of a zero. -/
theorem same_real_iff {s s' : Bool} {k k' : Fin (g.top + 1)} :
    (real s k).same (real s' k') = true ↔ k = k' ∧ (s = s' ∨ k.val = 0) := by
  simp [same]

theorem same_symm (v w : Binary g) : v.same w = w.same v := by
  cases v with
  | nan => cases w <;> rfl
  | real s k =>
    cases w with
    | nan => rfl
    | real s' k' =>
      rw [Bool.eq_iff_iff, same_real_iff, same_real_iff]
      constructor <;> rintro ⟨rfl, h⟩ <;> exact ⟨rfl, h.imp Eq.symm id⟩

theorem same_trans {u v w : Binary g} (first : u.same v = true) (second : v.same w = true) :
    u.same w = true := by
  cases u with
  | nan => cases first
  | real s k =>
    cases v with
    | nan => cases first
    | real s' k' =>
      cases w with
      | nan => cases second
      | real s'' k'' =>
        rw [same_real_iff] at first second ⊢
        obtain ⟨rfl, signs | zero⟩ := first
        · obtain ⟨rfl, signs' | zero⟩ := second
          · exact ⟨rfl, Or.inl (signs.trans signs')⟩
          · exact ⟨rfl, Or.inr zero⟩
        · exact ⟨second.1, Or.inr zero⟩

theorem same_self_iff (v : Binary g) : v.same v = true ↔ v ≠ nan := by
  cases v with
  | nan => simp [same]
  | real s k => simp [same]

end Binary

namespace HashKey

theorem ofNumber_real_cases (s : Bool) (k : Fin (Grid.single.top + 1)) :
    ∃ n, ofNumber (.real s k) = residue n := by
  rw [ofNumber]
  split
  · exact ⟨_, rfl⟩
  · exact ⟨_, rfl⟩

theorem ofNumber_zero (s : Bool) : ofNumber (.zero s) = residue 0 := by
  cases s <;> decide +kernel

/-- The two zeros have one residue, so numbers that are the same have the same key. -/
theorem ofNumber_of_same {v w : Single} (equal : v.same w = true) : ofNumber v = ofNumber w := by
  cases v with
  | nan => cases equal
  | real s k =>
    cases w with
    | nan => cases equal
    | real s' k' =>
      obtain ⟨rfl, rfl | zero⟩ := Binary.same_real_iff.mp equal
      · rfl
      · obtain rfl : k = 0 := Fin.ext zero
        exact (ofNumber_zero s).trans (ofNumber_zero s').symm

theorem ofText_ne_itself (t : Text) : ofText t ≠ itself := by
  unfold ofText
  split <;> simp

theorem ofNumber_ne_itself (v : Single) : ofNumber v ≠ itself := by
  cases v with
  | nan => simp [ofNumber]
  | real s k =>
    obtain ⟨n, key⟩ := ofNumber_real_cases s k
    simp [key]

end HashKey

namespace Datum

/-- A leaf that equals nothing. -/
inductive EqualsNothing : Datum → Prop
  | nan : EqualsNothing (number .nan)
  | func (params : List Text) (body : List Datum) : EqualsNothing (func params body)
  | native (f : Native) : EqualsNothing (native f)

/-- The rule for functions is no exception: they equal nothing. -/
theorem differs_of_equalAlong {a b : Datum} (walk : a.equalAlong b = a.equal b) :
    a.differs b = !a.equal b := by
  rw [differs, walk]
  cases a with
  | func params body => rfl
  | native f => rfl
  | _ => exact Bool.false_or _

theorem equalAlong_eq (a b : Datum) : a.equalAlong b = a.equal b := by
  induction a generalizing b with
  | pair h t ihh iht =>
    cases b with
    | pair h' t' =>
      rw [equalAlong_pair, differs_of_equalAlong (ihh h'), iht, equal]
      cases h.equal h' <;> rfl
    | _ => rfl
  | quoted d ih =>
    cases b with
    | quoted d' => exact ih d'
    | _ => rfl
  | _ => rfl

theorem differs_eq (a b : Datum) : a.differs b = !a.equal b :=
  differs_of_equalAlong (equalAlong_eq a b)

theorem Alike.symm {a b : Datum} (same : Alike a b) : Alike b a := by
  induction same with
  | nil => exact .nil
  | truth => exact .truth
  | number equal => exact .number (by rw [Binary.same_symm]; exact equal)
  | char c => exact .char c
  | symbol n => exact .symbol n
  | quoted _ ih => exact .quoted ih
  | pair _ _ ihh iht => exact .pair ihh iht
  | payload l => exact .payload l

theorem Alike.trans {a b c : Datum} (first : Alike a b) (second : Alike b c) : Alike a c := by
  induction first generalizing c with
  | number equal =>
    cases second with
    | number equal' => exact .number (Binary.same_trans equal equal')
  | quoted _ ih =>
    cases second with
    | quoted second => exact .quoted (ih second)
  | pair _ _ ihh iht =>
    cases second with
    | pair head tail => exact .pair (ihh head) (iht tail)
  | nil | truth | char _ | symbol _ | payload _ => exact second

theorem equal_symm (a b : Datum) : a.equal b = b.equal a := by
  rw [Bool.eq_iff_iff, equal_iff_alike, equal_iff_alike]
  exact ⟨Alike.symm, Alike.symm⟩

theorem equal_trans {a b c : Datum} (first : a.equal b = true) (second : b.equal c = true) :
    a.equal c = true := by
  rw [equal_iff_alike] at *
  exact first.trans second

theorem part_self_iff {motive : Datum → Prop} {d : Datum} (leaf : ∀ e, Part e d → e = d) :
    (∀ e, Part e d → motive e) ↔ motive d :=
  ⟨fun h => h d .self, fun h e part => leaf e part ▸ h⟩

/-- A datum equals itself unless some part of it equals nothing. -/
theorem equal_self_iff (d : Datum) :
    d.equal d = true ↔ ∀ e, Part e d → ¬ EqualsNothing e := by
  induction d with
  | number v =>
    have only : ∀ e, Part e (number v) → e = number v := fun e part => by cases part; rfl
    have nothing : EqualsNothing (number v) ↔ v = .nan :=
      ⟨fun h => by cases h; rfl, fun h => h ▸ .nan⟩
    rw [part_self_iff only, nothing]
    exact Binary.same_self_iff v
  | quoted d ih =>
    have inner : (quoted d).equal (quoted d) = d.equal d := rfl
    rw [inner, ih]
    constructor
    · intro h e part
      cases part with
      | self => rintro ⟨⟩
      | quoted part => exact h e part
    · exact fun h e part => h e (.quoted part)
  | pair h t ihh iht =>
    have both : (pair h t).equal (pair h t) = (h.equal h && t.equal t) := rfl
    rw [both, Bool.and_eq_true, ihh, iht]
    constructor
    · rintro ⟨head, tail⟩ e part
      cases part with
      | self => rintro ⟨⟩
      | head part => exact head e part
      | tail part => exact tail e part
    · exact fun h => ⟨fun e part => h e (.head part), fun e part => h e (.tail part)⟩
  | func params body =>
    exact ⟨fun h => by simp [equal] at h, fun h => absurd (.func params body) (h _ .self)⟩
  | native f =>
    exact ⟨fun h => by simp [equal] at h, fun h => absurd (.native f) (h _ .self)⟩
  | nil | truth | char c | symbol n | payload l =>
    rw [part_self_iff fun e part => by cases part; rfl]
    exact ⟨fun _ => (by rintro ⟨⟩), fun _ => by simp [equal]⟩

/-- Equal data with a hash have one key, and it is not that of a function. -/
theorem agree_of_equal {a b : Datum} (hashable : a.isHashable = true) (same : a.equal b = true) :
    HashKey.agree a b = true := by
  obtain ⟨key, proper⟩ : HashKey.ofDatum a = HashKey.ofDatum b ∧
      HashKey.ofDatum a ≠ HashKey.itself := by
    cases (equal_iff_alike a b).mp same with
    | @number v w equal =>
      exact ⟨HashKey.ofNumber_of_same equal, HashKey.ofNumber_ne_itself v⟩
    | char c => exact ⟨rfl, HashKey.ofText_ne_itself [c]⟩
    | symbol n => exact ⟨rfl, HashKey.ofText_ne_itself n⟩
    | quoted _ => cases hashable
    | pair _ _ => cases hashable
    | nil | truth | payload l => exact ⟨rfl, by simp [HashKey.ofDatum]⟩
  rw [HashKey.agree, Bool.and_eq_true, decide_eq_true_eq, decide_eq_true_eq]
  exact ⟨key, proper⟩

/-- Equality is given by its rules, and a walk along two chains comes to the same. Inequality is its
negation. It is symmetric and transitive, a datum equals itself exactly if none of its parts is
not-a-number or a function, and equal data that have hashes hash alike. -/
theorem equality_laws (a b c : Datum) :
    (a.equal b = true ↔ Alike a b) ∧ a.equalAlong b = a.equal b ∧ a.differs b = !a.equal b ∧
    a.equal b = b.equal a ∧
    (a.equal b = true → b.equal c = true → a.equal c = true) ∧
    (a.equal a = true ↔ ∀ d, Part d a → ¬ EqualsNothing d) ∧
    (a.isHashable = true → b.isHashable = true → a.equal b = true → HashKey.agree a b = true) := by
  refine ⟨equal_iff_alike a b, equalAlong_eq a b, differs_eq a b, equal_symm a b, equal_trans,
    equal_self_iff a, ?_⟩
  intro hashable _ same
  exact agree_of_equal hashable same

end Datum

end FexprLisp
