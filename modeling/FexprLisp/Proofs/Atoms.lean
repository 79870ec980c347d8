import FexprLisp.Atom
import FexprLisp.Proofs.Lexing

/-!
# What single tokens stand for

Every atom of the lexer stands for a number, a character or the symbol of its own text, and every
string for its characters or for nothing. In the other direction a string literal, a character and a
number are written as one token that stands for them.
-/

namespace FexprLisp

theorem trim_cons {p : Char → Bool} {c : Char} (keep : p c = false) (r : Text) :
    ∃ r', trim p (c :: r) = c :: r' := by
  have tail : ((c :: r).reverse.dropWhile p) = (r.reverse.dropWhile p) ++ [c] := by
    rw [List.reverse_cons, List.dropWhile_append]
    split
    · next h => simp [keep, List.isEmpty_iff.mp h]
    · rfl
  refine ⟨(r.reverse.dropWhile p).reverse, ?_⟩
  have front : (c :: r).dropWhile p = c :: r := by simp [keep]
  rw [trim, front, tail, List.reverse_append]
  rfl

/-- A character that no numeral begins with. -/
structure StartsNoNumeral (c : Char) : Prop where
  notBlank : isNumeralBlank c = false
  notSign : c ≠ '-' ∧ c ≠ '+'
  notPoint : c ≠ '.'
  notDigit : digitValue? c = none
  notWord : c.toLower ≠ 'i' ∧ c.toLower ≠ 'n'

theorem startsNoNumeral_quote : StartsNoNumeral '"' :=
  ⟨by decide, by decide, by decide, by decide, by decide⟩

theorem startsNoNumeral_backslash : StartsNoNumeral '\\' :=
  ⟨by decide, by decide, by decide, by decide, by decide⟩

theorem atomNumber?_eq_none {c : Char} (h : StartsNoNumeral c) (r : Text) :
    atomNumber? (c :: r) = none := by
  obtain ⟨r', trimmed⟩ := trim_cons h.notBlank r
  have sign : Numeral.splitSign (c :: r') = (false, c :: r') := by
    rw [Numeral.splitSign]
    · intro r'' he; exact h.notSign.1 (List.cons.inj he).1
    · intro r'' he; exact h.notSign.2 (List.cons.inj he).1
  have digits : Numeral.spanDigits (c :: r') = ([], c :: r') := by
    rw [Numeral.spanDigits, h.notDigit]
  have infinite : ¬ ((c :: r').map Char.toLower = "inf".toList ∨
      (c :: r').map Char.toLower = "infinity".toList) := by
    rintro (he | he) <;> exact h.notWord.1 (List.cons.inj he).1
  have nan : (c :: r').map Char.toLower ≠ "nan".toList :=
    fun he => h.notWord.2 (List.cons.inj he).1
  have decimal : Numeral.decimal? false (c :: r') = none := by
    rw [Numeral.decimal?, digits]
    dsimp only
    split
    next r'' he => exact absurd (List.cons.inj he).1 h.notPoint
    · rfl
  have numeral : Numeral.ofText? (c :: r) = none := by
    rw [Numeral.ofText?, trimmed, sign]
    simp only [if_neg infinite, if_neg nan, decimal]
  rw [atomNumber?, singleOfText?, numeral]
  split <;> rfl

/-- What an atom of the lexer can stand for. -/
inductive AtomDatum (t : Text) : Datum → Prop
  | number {v : Single} : atomNumber? t = some v → AtomDatum t (.number v)
  | char {c : Char} : t = ['\\', c] → AtomDatum t (.char c)
  | symbol : AtomDatum t (.symbol t)

theorem literalBody?_eq_none {t : Text} (h : ∀ r, t ≠ '"' :: r) : literalBody? t = none := by
  unfold literalBody?
  split
  · exact absurd rfl (h _)
  · rfl

theorem parseAtom_atom {t : Text} (nonempty : t ≠ []) (notString : ∀ r, t ≠ '"' :: r)
    (notComment : t.head? ≠ some ';') : ∃ d, parseAtom t = .ok d ∧ AtomDatum t d := by
  unfold parseAtom
  rw [if_neg nonempty, literalBody?_eq_none notString, if_neg notComment]
  cases h : atomNumber? t with
  | some v => exact ⟨_, rfl, .number h⟩
  | none =>
    dsimp only
    split
    next c => exact ⟨_, rfl, .char rfl⟩
    · exact ⟨_, rfl, .symbol⟩

/-- Every atom that the lexer makes stands for a datum. -/
theorem parseAtom_emitted {t : Token} (emitted : t.Emitted) (kind : t.kind = .atom) :
    ∃ d, parseAtom t.text = .ok d ∧ AtomDatum t.text d := by
  cases emitted with
  | @atom text atom =>
    refine parseAtom_atom atom.nonempty ?_ ?_
    · intro r h
      exact (atom.notSpecial '"' r h).2.1 rfl
    · intro h
      cases text with
      | nil => cases h
      | cons c r => exact (atom.notSpecial c r rfl).1 (Option.some.inj h)
  | lone =>
    exact parseAtom_atom (by simp [Token.lone]) (by simp [Token.lone]) (by simp [Token.lone])
  | string _ => cases kind
  | mark => cases kind
  | opening => cases kind
  | closing => cases kind

theorem getLast?_of_stringBody? {body : Text} (h : Token.stringBody? body = some (body, [])) :
    body.getLast? = some '"' := by
  suffices all : ∀ r s rest, Token.stringBody? r = some (s, rest) → s.getLast? = some '"' from
    all body body [] h
  intro r
  fun_induction Token.stringBody? r with
  | case1 => intro s rest h; cases h
  | case2 r => intro s rest h; cases h; rfl
  | case3 c r ih =>
    intro s rest h
    obtain ⟨⟨s', rest'⟩, hs, he⟩ := Option.map_eq_some_iff.mp h
    cases he
    simp [List.getLast?_cons, ih s' rest hs]
  | case4 => intro s rest h; cases h
  | case5 c r _ _ _ ih =>
    intro s rest h
    obtain ⟨⟨s', rest'⟩, hs, he⟩ := Option.map_eq_some_iff.mp h
    cases he
    simp [List.getLast?_cons, ih s' rest hs]

/-- A string of the lexer stands for the characters of its body, when all its escapes are known. -/
theorem parseAtom_string {body : Text} (h : Token.stringBody? body = some (body, [])) :
    parseAtom ('"' :: body) = match unescape body.dropLast with
      | .ok cs => .ok (.ofText cs)
      | .error _ => .error (.unreadable (.unparsableAtom ('"' :: body))) := by
  unfold parseAtom
  rw [if_neg (List.cons_ne_nil _ _), atomNumber?_eq_none startsNoNumeral_quote]
  dsimp only
  rw [literalBody?, if_pos (getLast?_of_stringBody? h)]
  split
  next he => exact absurd (List.cons.inj he).1 (by decide)
  · rfl

/-- How a character is written inside a string: escaped by a letter, or as itself. -/
theorem escapedChar_cases (c : Char) :
    (∃ letter, escapedChar c = ['\\', letter] ∧ unescapedChar? letter = some c) ∨
      (escapedChar c = [c] ∧ c ≠ '\\' ∧ c ≠ '"') := by
  by_cases special : c ∈ stringEscapes.map (·.1)
  · simp only [stringEscapes, List.map_cons, List.map_nil, List.mem_cons, List.not_mem_nil,
      or_false] at special
    rcases special with rfl | rfl | rfl | rfl | rfl | rfl <;> exact Or.inl ⟨_, rfl, rfl⟩
  · refine Or.inr ⟨?_, ?_, ?_⟩
    · have missing : stringEscapes.lookup c = none := by
        rw [List.lookup_eq_none_iff]
        intro e he
        refine bne_iff_ne.mpr ?_
        rintro rfl
        exact special (List.mem_map_of_mem he)
      rw [escapedChar, missing]
    · rintro rfl
      exact special (by decide)
    · rintro rfl
      exact special (by decide)

/-- Expanding escapes undoes escaping. -/
theorem unescape_escaped (t : Text) : unescape (t.flatMap escapedChar) = .ok t := by
  induction t with
  | nil => rfl
  | cons c t ih =>
    rw [List.flatMap_cons]
    rcases escapedChar_cases c with ⟨letter, written, known⟩ | ⟨written, notBackslash, _⟩
    · rw [written, List.cons_append, List.cons_append, List.nil_append, unescape, known]
      simp [ih, Except.map]
    · rw [written, List.cons_append, List.nil_append, unescape]
      · simp [ih, Except.map]
      · intro h _; exact notBackslash h
      · intro _ _ h _; exact notBackslash h

/-- The first quote that is not escaped ends a written string. -/
theorem stringBody?_escaped (t rest : Text) :
    Token.stringBody? (t.flatMap escapedChar ++ '"' :: rest) =
      some (t.flatMap escapedChar ++ ['"'], rest) := by
  induction t with
  | nil => rfl
  | cons c t ih =>
    rw [List.flatMap_cons]
    rcases escapedChar_cases c with ⟨letter, written, _⟩ | ⟨written, notBackslash, notQuote⟩
    · rw [written]
      simp [Token.stringBody?, ih]
    · rw [written, List.cons_append, List.nil_append, List.cons_append, Token.stringBody?]
      · simp [notBackslash, ih]
      · intro h; exact notQuote h
      · intro _ _ h _; exact notBackslash h

/-- A string literal is one token. -/
theorem lex_stringLiteral (t rest : Text) :
    lex (stringLiteral t ++ rest) = (lex rest).prepend [⟨.string, stringLiteral t⟩] := by
  have body := stringBody?_escaped t rest
  have first : Token.first? '"' (t.flatMap escapedChar ++ '"' :: rest) =
      some (⟨.string, stringLiteral t⟩, rest) := by
    rw [Token.first?, if_pos rfl, body]
    rfl
  have shape : stringLiteral t ++ rest = '"' :: (t.flatMap escapedChar ++ '"' :: rest) := by
    simp [stringLiteral]
  rw [shape]
  exact lex_of_first? first (by decide) (by decide)

theorem emitted_stringLiteral (t : Text) : Token.Emitted ⟨.string, stringLiteral t⟩ :=
  .string (stringBody?_escaped t [])

/-- A string literal stands for its characters. -/
theorem parseAtom_stringLiteral (t : Text) : parseAtom (stringLiteral t) = .ok (.ofText t) := by
  have read := parseAtom_string (stringBody?_escaped t [])
  rw [List.dropLast_concat, unescape_escaped] at read
  exact read

/-- A character is one token. -/
theorem atomText_char (c : Char) : Token.AtomText ['\\', c] where
  run := rfl
  nonempty := List.cons_ne_nil _ _
  notBlank := by
    intro c' r h
    rw [← (List.cons.inj h).1]
    decide
  notSpecial := by
    intro c' r h
    rw [← (List.cons.inj h).1]
    decide

theorem parseAtom_char (c : Char) : parseAtom ['\\', c] = .ok (.char c) := by
  unfold parseAtom
  rw [if_neg (List.cons_ne_nil _ _), atomNumber?_eq_none startsNoNumeral_backslash]
  rfl

/-- The characters that a written number is made of. -/
def IsNumberChar (c : Char) : Prop :=
  c.isDigit = true ∨ c ∈ ['.', '-', '+', 'e', 'i', 'n', 'f', 'a']

/-- Such a character has no meaning of its own inside or outside an atom. -/
structure IsPlain (c : Char) : Prop where
  notStop : ¬ Token.Stops c
  notBackslash : c ≠ '\\'
  notSpecial : c ≠ ';' ∧ c ≠ '"' ∧ c ≠ '\''
  notUnderscore : c ≠ '_'

theorem isPlain_of_number {c : Char} (h : IsNumberChar c) : IsPlain c := by
  rcases h with digit | h
  · have range : 48 ≤ c.toNat ∧ c.toNat ≤ 57 := by
      simpa [Char.isDigit, UInt32.le_iff_toNat_le] using digit
    have other : ∀ d : Char, (d.toNat < 48 ∨ 57 < d.toNat) → c ≠ d := by
      rintro d hd rfl
      omega
    refine ⟨?_, other _ (by decide), ⟨other _ (by decide), other _ (by decide),
      other _ (by decide)⟩, other _ (by decide)⟩
    rintro (h | h | h)
    · simp [isBlank, blankRanges] at h
      omega
    · exact other _ (by decide) h
    · exact other _ (by decide) h
  · simp only [List.mem_cons, List.not_mem_nil, or_false] at h
    rcases h with rfl | rfl | rfl | rfl | rfl | rfl | rfl | rfl <;>
      exact ⟨by simp [Token.Stops]; decide, by decide, by decide, by decide⟩

theorem atomRun_of_plain {t : Text} (plain : ∀ c ∈ t, IsPlain c) :
    Token.atomRun t = (t, []) := by
  induction t with
  | nil => rfl
  | cons c t ih =>
    have head := plain c List.mem_cons_self
    rw [Token.atomRun_plain t head.notStop head.notBackslash,
      ih fun c hc => plain c (List.mem_cons_of_mem _ hc)]

theorem isNumberChar_natText {n : Nat} {c : Char} (h : c ∈ natText n) : IsNumberChar c :=
  Or.inl (Nat.isDigit_of_mem_toDigits (by decide) (by decide) h)

theorem isNumberChar_padded {width n : Nat} {c : Char} (h : c ∈ padded width (natText n)) :
    IsNumberChar c := by
  rcases List.mem_append.mp h with h | h
  · rw [List.eq_of_mem_replicate h]
    exact Or.inl rfl
  · exact isNumberChar_natText h

theorem isNumberChar_positional {digits : Nat} {exponent : Int} {c : Char}
    (h : c ∈ Layout.positional digits exponent) : IsNumberChar c := by
  unfold Layout.positional at h
  split at h
  · simp only [List.mem_append, List.mem_cons, List.not_mem_nil, or_false] at h
    rcases h with (h | h) | rfl | rfl
    · exact isNumberChar_natText h
    · rw [List.eq_of_mem_replicate h]
      exact Or.inl rfl
    · exact Or.inr (by decide)
    · exact Or.inl rfl
  · rcases List.mem_append.mp h with h | h
    · exact isNumberChar_padded (List.mem_of_mem_take h)
    · rcases List.mem_cons.mp h with rfl | h
      · exact Or.inr (by decide)
      · exact isNumberChar_padded (List.mem_of_mem_drop h)

theorem isNumberChar_scientific {l : Layout} {digits : Nat} {exponent : Int} {c : Char}
    (h : c ∈ l.scientific digits exponent) : IsNumberChar c := by
  rcases List.mem_append.mp h with h | h
  · split at h
    next d d' r he =>
      by_cases point : c = '.'
      · subst point
        exact Or.inr (by decide)
      · refine isNumberChar_natText (n := digits) ?_
        rw [he]
        simpa [point] using h
    · exact isNumberChar_natText h
  · rcases List.mem_cons.mp h with rfl | h
    · exact Or.inr (by decide)
    · rcases List.mem_cons.mp h with rfl | h
      · split <;> exact Or.inr (by decide)
      · exact isNumberChar_padded h

/-- The shapes of a written magnitude. -/
theorem magnitude_cases (l : Layout) (k : Fin (Grid.single.top + 1)) :
    l.magnitude k = ['i', 'n', 'f'] ∨ l.magnitude k = ['0', '.', '0'] ∨
      ∃ digits exponent, l.magnitude k = Layout.positional digits exponent ∨
        l.magnitude k = l.scientific digits exponent := by
  unfold Layout.magnitude
  -- The search for the digits must not be run.
  generalize Single.shortest k = shortest
  obtain ⟨digits, exponent⟩ := shortest
  split
  · exact Or.inl rfl
  split
  · exact Or.inr (Or.inl rfl)
  · refine Or.inr (Or.inr ⟨digits, exponent, ?_⟩)
    by_cases h : l.isPositional k = true
    · exact Or.inl (if_pos h)
    · exact Or.inr (if_neg h)

theorem isNumberChar_magnitude {l : Layout} {k : Fin (Grid.single.top + 1)} {c : Char}
    (h : c ∈ l.magnitude k) : IsNumberChar c := by
  rcases magnitude_cases l k with shape | shape | ⟨digits, exponent, shape | shape⟩
  · rw [shape] at h
    simp only [List.mem_cons, List.not_mem_nil, or_false] at h
    rcases h with rfl | rfl | rfl <;> exact Or.inr (by decide)
  · rw [shape] at h
    simp only [List.mem_cons, List.not_mem_nil, or_false] at h
    rcases h with rfl | rfl | rfl
    · exact Or.inl rfl
    · exact Or.inr (by decide)
    · exact Or.inl rfl
  · exact isNumberChar_positional (shape ▸ h)
  · exact isNumberChar_scientific (shape ▸ h)

theorem isNumberChar_numberText {v : Single} {c : Char} (h : c ∈ numberText v) :
    IsNumberChar c := by
  have word : "nan".toList = ['n', 'a', 'n'] := rfl
  cases v with
  | nan =>
    rw [numberText, word] at h
    simp only [List.mem_cons, List.not_mem_nil, or_false] at h
    rcases h with rfl | rfl | rfl <;> exact Or.inr (by decide)
  | real neg k =>
    rw [numberText] at h
    split at h
    · rcases List.mem_cons.mp h with rfl | h
      · exact Or.inr (by decide)
      · exact isNumberChar_magnitude h
    · exact isNumberChar_magnitude h

/-- The written form of a number is read back as that number. -/
def ReadsBack (v : Single) : Prop := singleOfText? (numberText v) = some v

theorem readsBack_zero (neg : Bool) : ReadsBack (.zero neg) := by
  rw [ReadsBack]
  cases neg <;> decide +kernel

theorem readsBack_infinite (neg : Bool) : ReadsBack (.infinite neg) := by
  rw [ReadsBack]
  cases neg <;> decide +kernel

theorem readsBack_nan : ReadsBack .nan := by
  rw [ReadsBack]
  decide +kernel

theorem atomText_of_plain {t : Text} (plain : ∀ c ∈ t, IsPlain c) (nonempty : t ≠ []) :
    Token.AtomText t where
  run := atomRun_of_plain plain
  nonempty := nonempty
  notBlank := by
    intro c r h
    have first := plain c (h ▸ List.mem_cons_self)
    exact Bool.eq_false_iff.mpr fun blank => first.notStop (Or.inl blank)
  notSpecial := by
    intro c r h
    exact (plain c (h ▸ List.mem_cons_self)).notSpecial

theorem isPlain_numberText {v : Single} {c : Char} (h : c ∈ numberText v) : IsPlain c :=
  isPlain_of_number (isNumberChar_numberText h)

/-- The written form of a number that is read as some number is one token. -/
theorem atomText_numberText {v w : Single} (read : singleOfText? (numberText v) = some w) :
    Token.AtomText (numberText v) := by
  refine atomText_of_plain (fun _ => isPlain_numberText) ?_
  intro empty
  rw [empty] at read
  cases read

theorem parseAtom_numberText {v w : Single} (read : singleOfText? (numberText v) = some w) :
    parseAtom (numberText v) = .ok (.number w) := by
  have noUnderscore : '_' ∉ numberText v := fun h => (isPlain_numberText h).notUnderscore rfl
  unfold parseAtom
  rw [if_neg (atomText_numberText read).nonempty, atomNumber?, if_neg noUnderscore, read]

/-- A number that reads back is one token. -/
theorem atomText_number {v : Single} (reads : ReadsBack v) : Token.AtomText (numberText v) :=
  atomText_numberText reads

theorem parseAtom_number {v : Single} (reads : ReadsBack v) :
    parseAtom (numberText v) = .ok (.number v) :=
  parseAtom_numberText reads

end FexprLisp
