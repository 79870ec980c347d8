import FexprLisp.Proofs.RoundTrip
import Mathlib.Logic.Function.Iterate

/-!
# Which data survive being written

A datum is read back from its printed form, as one form that equals it, exactly if it is `Readable`.
What is read can be written, and equality carries that over to whatever is equal to it; in the other
direction a readable datum has a printed form that derives it.
-/

namespace FexprLisp

namespace Datum

/-- The data inside a datum, itself included. The forms of a function body do not count. -/
inductive Part (d : Datum) : Datum → Prop
  | self : Part d d
  | quoted {e : Datum} : Part d e → Part d (quoted e)
  | head {h t : Datum} : Part d h → Part d (pair h t)
  | tail {h t : Datum} : Part d t → Part d (pair h t)

/-- The variants that a text can denote. -/
inductive Denotable : Datum → Prop
  | nil : Denotable nil
  | number {v : Single} : v ≠ .nan → Denotable (number v)
  | char (c : Char) : Denotable (char c)
  | symbol (name : Text) : Denotable (symbol name)
  | quoted (d : Datum) : Denotable (quoted d)
  | pair (h t : Datum) : Denotable (pair h t)

/-- Conditions on the parts of a datum, one by one. -/
structure Spelled (t : Datum) : Prop where
  denotable : ∀ d, Part d t → Denotable d
  /-- A name is one atom, and stands for itself. -/
  name : ∀ n, Part (symbol n) t →
    lex n = ⟨[⟨.atom, n⟩], false⟩ ∧ parseAtom n = .ok (symbol n)
  /-- A point is neither an element nor the end of a list. -/
  notPoint : ∀ h r, Part (pair h r) t → h ≠ point ∧ r ≠ point
  notQuoted : ∀ h r, Part (pair h r) t → ∀ e, (pair h r).terminator ≠ quoted e

/-- A lone backslash has nothing around it but quotation marks. -/
structure Readable (t : Datum) : Prop extends Spelled t where
  lone : Part lone t → ∃ k, t = quoted^[k] lone

theorem Part.trans {a b c : Datum} (first : Part a b) (second : Part b c) : Part a c := by
  induction second with
  | self => exact first
  | quoted _ ih => exact .quoted ih
  | head _ ih => exact .head ih
  | tail _ ih => exact .tail ih

theorem Spelled.part {d t : Datum} (spelled : Spelled t) (part : Part d t) : Spelled d where
  denotable e h := spelled.denotable e (h.trans part)
  name n h := spelled.name n (h.trans part)
  notPoint a b h := spelled.notPoint a b (h.trans part)
  notQuoted a b h := spelled.notQuoted a b (h.trans part)

theorem part_of_mem_numbers {v : Single} {t : Datum} (h : v ∈ t.numbers) : Part (number v) t := by
  induction t with
  | number w =>
    obtain rfl := List.mem_singleton.mp h
    exact .self
  | quoted d ih => exact .quoted (ih h)
  | pair a b iha ihb =>
    rcases List.mem_append.mp h with h | h
    · exact .head (iha h)
    · exact .tail (ihb h)
  | _ => cases h

theorem mem_numbers_of_part {v : Single} {t : Datum} (h : Part (number v) t) : v ∈ t.numbers := by
  induction h with
  | self => exact List.mem_singleton.mpr rfl
  | quoted _ ih => exact ih
  | head _ ih => exact List.mem_append_left _ ih
  | tail _ ih => exact List.mem_append_right _ ih

section Equal

theorem Alike.eq_symbol {d : Datum} {n : Text} (same : Alike d (.symbol n)) : d = .symbol n := by
  cases same
  rfl

theorem Alike.eq_quoted {d e : Datum} (same : Alike d (.quoted e)) : ∃ e', d = .quoted e' := by
  cases same with
  | quoted _ => exact ⟨_, rfl⟩

theorem Alike.notNaN {u t : Datum} (same : Alike u t) : ∀ v ∈ t.numbers, v ≠ .nan := by
  induction same with
  | @number v w equal =>
    intro x hx
    obtain rfl := List.mem_singleton.mp hx
    rintro rfl
    cases v <;> simp [Binary.same] at equal
  | quoted _ ih => exact ih
  | pair _ _ ihh iht =>
    intro x hx
    exact (List.mem_append.mp hx).elim (ihh x) (iht x)
  | _ => exact fun x hx => absurd hx List.not_mem_nil

/-- Equal numbers differ at most in the sign of a zero. -/
theorem readsBack_of_same {v w : Single} (equal : v.same w = true) (reads : ReadsBack w) :
    ReadsBack v := by
  cases v with
  | nan => cases equal
  | real s k =>
    cases w with
    | nan => cases equal
    | real s' k' =>
      simp only [Binary.same, Bool.and_eq_true, decide_eq_true_eq, Bool.or_eq_true,
        beq_iff_eq] at equal
      obtain ⟨rfl, rfl | zero⟩ := equal
      · exact reads
      · obtain rfl : k = 0 := Fin.ext zero
        exact readsBack_zero s

theorem Alike.readsBack {u t : Datum} (same : Alike u t)
    (reads : ∀ v ∈ t.numbers, ReadsBack v) : ∀ v ∈ u.numbers, ReadsBack v := by
  induction same with
  | @number v w equal =>
    intro x hx
    obtain rfl := List.mem_singleton.mp hx
    exact readsBack_of_same equal (reads w (List.mem_singleton.mpr rfl))
  | quoted _ ih => exact ih reads
  | pair _ _ ihh iht =>
    intro x hx
    rcases List.mem_append.mp hx with hx | hx
    · exact ihh (fun v hv => reads v (List.mem_append_left _ hv)) x hx
    · exact iht (fun v hv => reads v (List.mem_append_right _ hv)) x hx
  | _ => exact fun x hx => absurd hx List.not_mem_nil

/-- What equals a datum that can be written can be written. -/
theorem Writable.alike {u t : Datum} (writable : Writable u) (same : Alike u t)
    (reads : ∀ v ∈ t.numbers, ReadsBack v) : Writable t := by
  induction writable generalizing t with
  | nil =>
    cases same
    exact .nil
  | number _ =>
    cases same with
    | @number _ w _ => exact .number (reads w (List.mem_singleton.mpr rfl))
  | char c =>
    cases same
    exact .char c
  | symbol atom parsed =>
    cases same
    exact .symbol atom parsed
  | quoted _ ih =>
    cases same with
    | quoted same => exact .quoted (ih same reads)
  | pair _ headNotPoint _ tailNotPoint tailNotQuoted ihh iht =>
    cases same with
    | pair head tail =>
      have headReads := ihh head fun v hv => reads v (List.mem_append_left _ hv)
      have tailReads := iht tail fun v hv => reads v (List.mem_append_right _ hv)
      refine .pair headReads ?_ tailReads ?_ ?_
      · rintro rfl
        exact headNotPoint head.eq_symbol
      · rintro rfl
        exact tailNotPoint tail.eq_symbol
      · rintro e rfl
        obtain ⟨e', h⟩ := tail.eq_quoted
        exact tailNotQuoted e' h

theorem Final.alike {u t : Datum} (final : Final u) (same : Alike u t)
    (reads : ∀ v ∈ t.numbers, ReadsBack v) : Final t := by
  induction final generalizing t with
  | writable writable => exact .writable (writable.alike same reads)
  | lone =>
    cases same
    exact .lone
  | quoted _ ih =>
    cases same with
    | quoted same => exact .quoted (ih same reads)

end Equal

theorem Writable.part {d t : Datum} (writable : Writable t) (part : Part d t) : Writable d := by
  induction part with
  | self => exact writable
  | quoted _ ih =>
    cases writable with
    | quoted writable => exact ih writable
  | head _ ih =>
    cases writable with
    | pair writable _ _ _ _ => exact ih writable
  | tail _ ih =>
    cases writable with
    | pair _ _ writable _ _ => exact ih writable

theorem Writable.ne_lone {d : Datum} (writable : Writable d) : d ≠ lone := by
  rintro rfl
  cases writable with
  | symbol atom _ => cases atom.run

theorem Writable.terminator_ne {t : Datum} (writable : Writable t)
    (notQuoted : ∀ e, t ≠ .quoted e) :
    ∀ e, t.terminator ≠ .quoted e := by
  induction writable with
  | pair _ _ _ _ tailNotQuoted _ iht => exact iht tailNotQuoted
  | _ => exact notQuoted

theorem Writable.spelled {t : Datum} (writable : Writable t) (noNaN : ∀ v ∈ t.numbers, v ≠ .nan) :
    Spelled t where
  denotable d part := by
    cases writable.part part with
    | nil => exact .nil
    | @number v _ => exact .number (noNaN v (mem_numbers_of_part part))
    | char c => exact .char c
    | symbol _ _ => exact .symbol _
    | quoted _ => exact .quoted _
    | pair _ _ _ _ _ => exact .pair _ _
  name n part := by
    cases writable.part part with
    | symbol atom parsed =>
      have last : Token.EndsAtom [] := trivial
      have alone := lex_atom atom last
      rw [List.append_nil, lex_nil] at alone
      exact ⟨alone, parsed⟩
  notPoint h r part := by
    cases writable.part part with
    | pair _ head _ tail _ => exact ⟨head, tail⟩
  notQuoted h r part := (writable.part part).terminator_ne (by simp)

theorem Final.readable {t : Datum} (final : Final t) (noNaN : ∀ v ∈ t.numbers, v ≠ .nan) :
    Readable t := by
  induction final with
  | writable writable =>
    exact ⟨writable.spelled noNaN, fun part => absurd rfl (writable.part part).ne_lone⟩
  | lone =>
    have only : ∀ d, Part d Datum.lone → d = Datum.lone := by
      intro d part
      cases part
      rfl
    refine ⟨⟨?_, ?_, ?_, ?_⟩, fun _ => ⟨0, rfl⟩⟩
    · intro d part
      rw [only d part]
      exact .symbol _
    · intro n part
      obtain rfl := symbol.inj (only _ part)
      exact ⟨lex_lone, rfl⟩
    · intro h r part
      cases only _ part
    · intro h r part
      cases only _ part
  | @quoted d _ ih =>
    have inner := ih noNaN
    refine ⟨⟨?_, ?_, ?_, ?_⟩, ?_⟩
    · intro e part
      cases part with
      | self => exact .quoted d
      | quoted part => exact inner.denotable e part
    · intro n part
      cases part with
      | quoted part => exact inner.name n part
    · intro h r part
      cases part with
      | quoted part => exact inner.notPoint h r part
    · intro h r part
      cases part with
      | quoted part => exact inner.notQuoted h r part
    · intro part
      cases part with
      | quoted part =>
        obtain ⟨k, rfl⟩ := inner.lone part
        exact ⟨k + 1, (Function.iterate_succ_apply' Datum.quoted k _).symm⟩

/-- A name that lexes to itself is an atom, unless it is the lone backslash. -/
theorem atomText_of_lex {n : Text} (lexed : lex n = ⟨[⟨.atom, n⟩], false⟩) (notLone : n ≠ ['\\']) :
    Token.AtomText n := by
  have emitted : Token.Emitted ⟨.atom, n⟩ := emitted_of_mem_lex (s := n) (by simp [lexed])
  cases emitted with
  | atom atom => exact atom
  | lone => exact absurd rfl notLone

theorem Spelled.writable {t : Datum} (spelled : Spelled t) (noLone : ¬ Part lone t)
    (reads : ∀ v ∈ t.numbers, v ≠ .nan → ReadsBack v) : Writable t := by
  induction t with
  | nil => exact .nil
  | number v =>
    cases spelled.denotable _ .self with
    | number notNaN => exact .number (reads v (List.mem_singleton.mpr rfl) notNaN)
  | char c => exact .char c
  | symbol n =>
    obtain ⟨lexed, parsed⟩ := spelled.name n .self
    refine .symbol (atomText_of_lex lexed ?_) parsed
    rintro rfl
    exact noLone .self
  | quoted d ih =>
    exact .quoted (ih (spelled.part (.quoted .self)) (fun part => noLone (.quoted part)) reads)
  | pair h t ihh iht =>
    obtain ⟨headNotPoint, tailNotPoint⟩ := spelled.notPoint h t .self
    have head := ihh (spelled.part (.head .self)) (fun part => noLone (.head part))
      fun v hv => reads v (List.mem_append_left _ hv)
    have tail := iht (spelled.part (.tail .self)) (fun part => noLone (.tail part))
      fun v hv => reads v (List.mem_append_right _ hv)
    refine .pair head headNotPoint tail tailNotPoint ?_
    rintro e rfl
    exact spelled.notQuoted h (quoted e) .self e rfl
  | truth => cases spelled.denotable _ .self
  | func params body => cases spelled.denotable _ .self
  | native f => cases spelled.denotable _ .self
  | payload label => cases spelled.denotable _ .self

theorem final_lone (k : Nat) : Final (quoted^[k] lone) := by
  induction k with
  | zero => exact .lone
  | succ k ih =>
    rw [Function.iterate_succ_apply']
    exact .quoted ih

theorem Readable.final {t : Datum} (readable : Readable t)
    (reads : ∀ v ∈ t.numbers, v ≠ .nan → ReadsBack v) : Final t := by
  by_cases part : Part Datum.lone t
  · obtain ⟨k, rfl⟩ := readable.lone part
    exact final_lone k
  · exact .writable (readable.toSpelled.writable part reads)

theorem Spelled.notNaN {t : Datum} (spelled : Spelled t) : ∀ v ∈ t.numbers, v ≠ .nan := by
  intro v hv
  cases spelled.denotable _ (part_of_mem_numbers hv) with
  | number notNaN => exact notNaN

theorem Final.reads {t : Datum} (final : Final t) : FexprLisp.read t.printed = .ok [t] := by
  have alone := read_printedLines (.last final)
  rwa [printedLines, List.map_singleton, List.intercalate_singleton] at alone

/-- A datum is read back from its printed form as one form that equals it if and only if it is
readable. Of the numbers in it, not-a-number apart, it is assumed that they are written so that they
read back. -/
theorem reads_printed_iff (t : Datum) (reads : ∀ v ∈ t.numbers, v ≠ .nan → ReadsBack v) :
    (∃ u, FexprLisp.read t.printed = .ok [u] ∧ u.equal t = true) ↔ Readable t := by
  constructor
  · rintro ⟨u, read, equal⟩
    have same := (equal_iff_alike u t).mp equal
    have noNaN := same.notNaN
    have all : ∀ v ∈ t.numbers, ReadsBack v := fun v hv => reads v hv (noNaN v hv)
    have forms := writableForms_of_read read fun f hf => by
      rw [List.mem_singleton.mp hf]
      exact same.readsBack all
    have final := forms.final u List.mem_cons_self
    exact (final.alike same all).readable noNaN
  · intro readable
    have final := readable.final reads
    exact ⟨t, final.reads, final.equal_self readable.notNaN⟩

/-- A quotation of a list with a number, an escaped character and a dotted end. -/
def dottedSample : Datum := quoted (chain [number oneAndHalf, char '('] (symbol ['b']))

/-- A list that ends in a quotation. -/
def quotedEnd : Datum := pair (symbol ['a']) (quoted nil)

theorem reads_printed_sample :
    (∀ v ∈ dottedSample.numbers, v ≠ .nan → ReadsBack v) ∧ Readable dottedSample ∧
      (∃ u, FexprLisp.read dottedSample.printed = .ok [u] ∧ u.equal dottedSample = true) ∧
        ¬ Readable quotedEnd ∧
          ¬ ∃ u, FexprLisp.read quotedEnd.printed = .ok [u] ∧ u.equal quotedEnd = true := by
  have reads : ∀ v ∈ dottedSample.numbers, v ≠ .nan → ReadsBack v := by
    intro v hv _
    obtain rfl : v = oneAndHalf := by simpa [dottedSample, numbers, chain] using hv
    exact readsBack_oneAndHalf
  have name : Writable (symbol ['b']) :=
    .symbol ⟨rfl, by simp, by simp; decide, by simp⟩ rfl
  have list : Writable (chain [number oneAndHalf, char '('] (symbol ['b'])) :=
    .pair (.number readsBack_oneAndHalf) (by simp [point])
      (.pair (.char '(') (by simp [point]) name (by simp [point]) (by simp)) (by simp [point])
      (by simp)
  have readable : Readable dottedSample := by
    refine (Final.writable (.quoted list)).readable ?_
    intro v hv
    obtain rfl : v = oneAndHalf := by simpa [numbers, chain] using hv
    simp [oneAndHalf]
  have notReadable : ¬ Readable quotedEnd := fun h =>
    h.notQuoted (symbol ['a']) (quoted nil) .self nil rfl
  have noNumbers : ∀ v ∈ quotedEnd.numbers, v ≠ .nan → ReadsBack v :=
    fun v hv => absurd hv List.not_mem_nil
  exact ⟨reads, readable, (reads_printed_iff dottedSample reads).mpr readable, notReadable,
    fun back => notReadable ((reads_printed_iff quotedEnd noNumbers).mp back)⟩

end Datum

end FexprLisp
