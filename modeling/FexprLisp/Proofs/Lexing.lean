import FexprLisp.Token

/-!
# Texts and their tokens

What the lexer makes of a text that begins with a known token, and which tokens it can make at all.
An atom is closed off by a blank, a parenthesis or the end of the text, and by nothing else; a
backslash that ends the text is the last token.
-/

namespace FexprLisp

namespace Token

def mark : Token := ⟨.quote, ['\'']⟩

def opening : Token := ⟨.lparen, ['(']⟩

def closing : Token := ⟨.rparen, [')']⟩

def point : Token := ⟨.atom, ['.']⟩

/-- The backslash that ends a text. -/
def lone : Token := ⟨.atom, ['\\']⟩

/-- A character that no atom takes in unescaped, the backslash apart. -/
def Stops (c : Char) : Prop := isBlank c = true ∨ c = '(' ∨ c = ')'

/-- Nothing at the front of such a text belongs to an atom before it. -/
def EndsAtom : Text → Prop
  | [] => True
  | c :: _ => Stops c

/-- An atom other than the backslash that ends a text. -/
structure AtomText (t : Text) : Prop where
  run : atomRun t = (t, [])
  nonempty : t ≠ []
  notBlank : ∀ c r, t = c :: r → isBlank c = false
  notSpecial : ∀ c r, t = c :: r → c ≠ ';' ∧ c ≠ '"' ∧ c ≠ '\''

/-- The tokens that a lexer can make. -/
inductive Emitted : Token → Prop
  | string {body : Text} : stringBody? body = some (body, []) → Emitted ⟨.string, '"' :: body⟩
  | mark : Emitted mark
  | opening : Emitted opening
  | closing : Emitted closing
  | atom {t : Text} : AtomText t → Emitted ⟨.atom, t⟩
  | lone : Emitted lone

theorem atomRun_escape (c : Char) (r : Text) :
    atomRun ('\\' :: c :: r) = ('\\' :: c :: (atomRun r).1, (atomRun r).2) := rfl

theorem atomRun_plain {c : Char} (r : Text) (plain : ¬ Stops c) (notBackslash : c ≠ '\\') :
    atomRun (c :: r) = (c :: (atomRun r).1, (atomRun r).2) := by
  have h : ¬ (isBlank c = true ∨ c = '(' ∨ c = ')' ∨ c = '\\') := by
    simpa [Stops, notBackslash] using plain
  rw [atomRun]
  · rw [if_neg h]
  · intro c' r' hc _
    exact notBackslash hc

theorem atomRun_stop {c : Char} (r : Text) (stop : Stops c) : atomRun (c :: r) = ([], c :: r) := by
  have h : isBlank c = true ∨ c = '(' ∨ c = ')' ∨ c = '\\' := by
    rcases stop with h | h | h
    · exact Or.inl h
    · exact Or.inr (Or.inl h)
    · exact Or.inr (Or.inr (Or.inl h))
  rw [atomRun]
  · rw [if_pos h]
  · rintro c' r' rfl _
    rcases stop with h | h | h
    · exact absurd h (by decide)
    · cases h
    · cases h

theorem atomRun_of_endsAtom {rest : Text} (ends : EndsAtom rest) : atomRun rest = ([], rest) := by
  cases rest with
  | nil => rfl
  | cons c r => exact atomRun_stop r ends

/-- An atom goes no further than to the separator behind it. -/
theorem atomRun_append_of_run {t rest : Text} (run : atomRun t = (t, [])) (ends : EndsAtom rest) :
    atomRun (t ++ rest) = (t, rest) := by
  fun_induction atomRun t with
  | case1 c r s rest' hr ih =>
    obtain ⟨rfl, rfl⟩ : s = r ∧ rest' = [] := by simpa using run
    simp only [List.cons_append, atomRun_escape, ih hr]
  | case2 c r _ _ => cases run
  | case3 c r hn stop s rest' hr ih =>
    obtain ⟨rfl, rfl⟩ : s = r ∧ rest' = [] := by simpa using run
    have plain : ¬ Stops c := fun h => stop (by rcases h with h | h | h <;> simp [h])
    have notBackslash : c ≠ '\\' := fun h => stop (by simp [h])
    simp only [List.cons_append, atomRun_plain _ plain notBackslash, ih hr]
  | case4 => exact atomRun_of_endsAtom ends

/-- What a run has taken is a run by itself. -/
theorem atomRun_fst (r : Text) : atomRun (atomRun r).1 = ((atomRun r).1, []) := by
  fun_induction atomRun r with
  | case1 c r s rest hr ih =>
    rw [hr] at ih
    simp only [atomRun_escape, ih]
  | case2 c r _ _ => rfl
  | case3 c r hn stop s rest hr ih =>
    rw [hr] at ih
    have plain : ¬ Stops c := fun h => stop (by rcases h with h | h | h <;> simp [h])
    have notBackslash : c ≠ '\\' := fun h => stop (by simp [h])
    simp only [atomRun_plain _ plain notBackslash, ih]
  | case4 => rfl

/-- An atom run is empty only before a separator and before a backslash that ends the text. -/
theorem eq_backslash_of_atomRun_nil {c : Char} {r rest : Text} (h : atomRun (c :: r) = ([], rest))
    (notStop : ¬ Stops c) : c = '\\' ∧ r = [] := by
  by_cases hc : c = '\\'
  · subst hc
    cases r with
    | nil => exact ⟨rfl, rfl⟩
    | cons c' r' => cases h
  · rw [atomRun_plain r notStop hc] at h
    cases h

theorem skipGap_blank {c : Char} (r : Text) (blank : isBlank c = true) :
    skipGap (c :: r) = skipGap r := by
  rw [skipGap, if_pos blank]

theorem skipGap_self {c : Char} (r : Text) (notBlank : isBlank c = false) (notComment : c ≠ ';') :
    skipGap (c :: r) = c :: r := by
  rw [skipGap, notBlank, if_neg Bool.false_ne_true, if_neg notComment]

/-- No gap begins where a gap ends. -/
theorem skipGap_head {s r : Text} {c : Char} (h : skipGap s = c :: r) :
    isBlank c = false ∧ c ≠ ';' := by
  suffices both : ∀ n : Nat, ∀ s : Text, s.length ≤ n →
      (skipGap s = c :: r ∨ skipGap.skipComment s = c :: r) → isBlank c = false ∧ c ≠ ';' from
    both s.length s (Nat.le_refl _) (Or.inl h)
  intro n
  induction n with
  | zero => intro s hs h; cases s <;> simp_all [skipGap, skipGap.skipComment]
  | succ n ih =>
    intro s hs h
    cases s with
    | nil => simp [skipGap, skipGap.skipComment] at h
    | cons c' r' =>
      have hr := ih r' (by simpa using hs)
      simp only [skipGap, skipGap.skipComment] at h
      grind

theorem first?_atom {c : Char} {r t rest : Text} (run : atomRun (c :: r) = (t, rest))
    (nonempty : t ≠ []) (notQuotes : c ≠ '"' ∧ c ≠ '\'') (notParen : c ≠ '(' ∧ c ≠ ')') :
    first? c r = some (⟨.atom, t⟩, rest) := by
  rw [first?, if_neg notQuotes.1, if_neg notQuotes.2, if_neg notParen.1, if_neg notParen.2, run]
  cases t with
  | nil => exact absurd rfl nonempty
  | cons => rfl

theorem stringBody?_fst {r s rest : Text} (h : stringBody? r = some (s, rest)) :
    stringBody? s = some (s, []) := by
  fun_induction stringBody? r generalizing s rest with
  | case1 => cases h
  | case2 r => cases h; rfl
  | case3 c r ih =>
    obtain ⟨⟨s', rest'⟩, hs, he⟩ := Option.map_eq_some_iff.mp h
    cases he
    simp [stringBody?, ih hs]
  | case4 => cases h
  | case5 c r hq he hc ih =>
    obtain ⟨⟨s', rest'⟩, hs, he⟩ := Option.map_eq_some_iff.mp h
    cases he
    rw [stringBody?, if_neg hc, ih hs]
    · rfl
    · exact hq
    · intro c' r' h _
      exact hc h

/-- A token is one of those listed, and a lone backslash has nothing after it. -/
theorem first?_emitted {c : Char} {r rest : Text} {t : Token} (h : first? c r = some (t, rest))
    (notBlank : isBlank c = false) (notComment : c ≠ ';') :
    Emitted t ∧ (t = lone → rest = []) := by
  rw [first?] at h
  split at h
  · obtain ⟨⟨s, rest'⟩, hs, he⟩ := Option.map_eq_some_iff.mp h
    cases he
    exact ⟨.string (stringBody?_fst hs), fun h => by cases h⟩
  split at h
  · cases h; exact ⟨.mark, fun h => by cases h⟩
  split at h
  · cases h; exact ⟨.opening, fun h => by cases h⟩
  split at h
  · cases h; exact ⟨.closing, fun h => by cases h⟩
  next hs hq hl hr =>
    split at h
    next rest' heq =>
      cases h
      have notStop : ¬ Stops c := by simp [Stops, notBlank, hl, hr]
      obtain ⟨rfl, rfl⟩ := eq_backslash_of_atomRun_nil heq notStop
      exact ⟨.lone, fun _ => rfl⟩
    next s rest' hne heq =>
      cases h
      have whole := atomRun_append (c :: r)
      have run := atomRun_fst (c :: r)
      rw [heq] at whole run
      have head : ∀ c' r', s = c' :: r' → c' = c := by
        rintro c' r' rfl
        exact (List.cons.inj whole).1
      refine ⟨.atom ⟨run, hne, ?_, ?_⟩, ?_⟩
      · intro c' r' h
        rw [head c' r' h]
        exact notBlank
      · intro c' r' h
        rw [head c' r' h]
        exact ⟨notComment, hs, hq⟩
      · intro h
        cases h
        cases run

end Token

namespace Lexed

/-- The tokens that stand before the others. -/
def prepend (ts : List Token) (l : Lexed) : Lexed := ⟨ts ++ l.tokens, l.openString⟩

theorem prepend_prepend (ts us : List Token) (l : Lexed) :
    (l.prepend us).prepend ts = l.prepend (ts ++ us) := by
  simp [prepend]

end Lexed

open Token

theorem lex_of_done {s : Text} (h : step s = .done) : lex s = ⟨[], false⟩ := by
  rw [lex]
  split <;> simp_all

theorem lex_of_openString {s : Text} (h : step s = .openString) : lex s = ⟨[], true⟩ := by
  rw [lex]
  split <;> simp_all

theorem lex_of_step {s rest : Text} {t : Token} (h : step s = .token t rest) :
    lex s = (lex rest).prepend [t] := by
  rw [lex]
  split
  · simp_all
  · simp_all
  next t' rest' h' =>
    rw [h] at h'
    cases h'
    rfl

theorem lex_nil : lex [] = ⟨[], false⟩ := lex_of_done rfl

/-- A token at the very front of a text. -/
theorem lex_of_first? {c : Char} {r rest : Text} {t : Token} (h : first? c r = some (t, rest))
    (notBlank : isBlank c = false) (notComment : c ≠ ';') :
    lex (c :: r) = (lex rest).prepend [t] := by
  apply lex_of_step
  rw [step, skipGap_self r notBlank notComment]
  simp only [h]

/-- What comes before the first token has no part in the tokens. -/
theorem lex_congr {s s' : Text} (h : skipGap s = skipGap s') : lex s = lex s' := by
  have same : step s = step s' := by rw [step, step, h]
  cases h' : step s' with
  | done => rw [lex_of_done (same.trans h'), lex_of_done h']
  | openString => rw [lex_of_openString (same.trans h'), lex_of_openString h']
  | token t rest => rw [lex_of_step (same.trans h'), lex_of_step h']

theorem lex_blank {c : Char} (r : Text) (blank : isBlank c = true) : lex (c :: r) = lex r :=
  lex_congr (skipGap_blank r blank)

theorem lex_mark (r : Text) : lex ('\'' :: r) = (lex r).prepend [mark] :=
  lex_of_first? rfl (by decide) (by decide)

theorem lex_opening (r : Text) : lex ('(' :: r) = (lex r).prepend [opening] :=
  lex_of_first? rfl (by decide) (by decide)

theorem lex_closing (r : Text) : lex (')' :: r) = (lex r).prepend [closing] :=
  lex_of_first? rfl (by decide) (by decide)

theorem lex_lone : lex ['\\'] = ⟨[lone], false⟩ := by
  have h : first? '\\' [] = some (lone, []) := by decide
  rw [lex_of_first? h (by decide) (by decide), lex_nil]
  rfl

/-- An atom with a separator behind it is one token. -/
theorem lex_atom {t rest : Text} (atom : AtomText t) (ends : EndsAtom rest) :
    lex (t ++ rest) = (lex rest).prepend [⟨.atom, t⟩] := by
  cases t with
  | nil => exact absurd rfl atom.nonempty
  | cons c r =>
    have run := atomRun_append_of_run atom.run ends
    obtain ⟨notComment, notString, notQuote⟩ := atom.notSpecial c r rfl
    have notParen : c ≠ '(' ∧ c ≠ ')' := by
      constructor <;> rintro rfl <;> cases atom.run
    exact lex_of_first? (first?_atom run atom.nonempty ⟨notString, notQuote⟩ notParen)
      (atom.notBlank c r rfl) notComment

theorem step_eq_token {s rest : Text} {t : Token} (h : step s = .token t rest) :
    ∃ c r, skipGap s = c :: r ∧ first? c r = some (t, rest) := by
  rw [step] at h
  split at h
  · cases h
  next c r heq =>
    split at h
    next t' rest' hf =>
      cases h
      exact ⟨c, r, heq, hf⟩
    · cases h

theorem step_emitted {s rest : Text} {t : Token} (h : step s = .token t rest) :
    Emitted t ∧ (t = lone → rest = []) := by
  obtain ⟨c, r, gap, first⟩ := step_eq_token h
  obtain ⟨notBlank, notComment⟩ := skipGap_head gap
  exact first?_emitted first notBlank notComment

theorem emitted_of_mem_lex {s : Text} {t : Token} (h : t ∈ (lex s).tokens) : Emitted t := by
  induction s using lex.induct with
  | case1 s hs => rw [lex_of_done hs] at h; cases h
  | case2 s hs => rw [lex_of_openString hs] at h; cases h
  | case3 s t' rest hs ih =>
    rw [lex_of_step hs] at h
    rcases List.mem_cons.mp h with rfl | h
    · exact (step_emitted hs).1
    · exact ih h

/-- A lone backslash is the last token there is. -/
theorem lex_after_lone {s : Text} {before after : List Token}
    (h : (lex s).tokens = before ++ lone :: after) : after = [] := by
  induction s using lex.induct generalizing before with
  | case1 s hs => rw [lex_of_done hs] at h; simp at h
  | case2 s hs => rw [lex_of_openString hs] at h; simp at h
  | case3 s t rest hs ih =>
    rw [lex_of_step hs] at h
    cases before with
    | nil =>
      obtain ⟨ht, hafter⟩ := List.cons.inj h
      rw [(step_emitted hs).2 ht, lex_nil] at hafter
      exact hafter.symm
    | cons b before => exact ih (List.cons.inj h).2

end FexprLisp
