import FexprLisp.Proofs.Viability

/-!
# Gaps and tokens

A text is a gap, a token, a gap, a token and so on to a last gap, or to a string that is left open.
`Tiled` says so by the patterns of gaps and tokens alone, and the lexer finds the one way there is
to tile a text. So the layout of a text is of no account: the same tokens with other gaps between
them are the same to whoever reads them.
-/

namespace FexprLisp

namespace Token

/-- Escaped characters, and characters of a class other than the backslash. -/
inductive Units (p : Char → Prop) : Text → Prop
  | nil : Units p []
  | escape (c : Char) {r : Text} : Units p r → Units p ('\\' :: c :: r)
  | plain {c : Char} {r : Text} : p c → c ≠ '\\' → Units p r → Units p (c :: r)

/-- What can stand in a string. -/
abbrev StringUnits : Text → Prop := Units (· ≠ '"')

/-- What can stand in an atom. -/
abbrev AtomUnits : Text → Prop := Units (¬ Stops ·)

/-- The patterns of the tokens. -/
inductive Pattern : TokenKind → Text → Prop
  | string {body : Text} : StringUnits body → Pattern .string ('"' :: (body ++ ['"']))
  | quote : Pattern .quote ['\'']
  | lparen : Pattern .lparen ['(']
  | rparen : Pattern .rparen [')']
  | atom {t : Text} : t ≠ [] → AtomUnits t → Pattern .atom t
  | lone : Pattern .atom ['\\']

/-- A comment goes on to the end of its line. -/
def IsComment (t : Text) : Prop := ∃ body, t = ';' :: body ∧ '\n' ∉ body

/-- A string without its closing quote. -/
def IsOpening (t : Text) : Prop := ∃ body, t = '"' :: body ∧ StringUnits body

/-- Some pattern matches at the front of a text. -/
def Matches (s : Text) : Prop :=
  ∃ m rest, s = m ++ rest ∧ (IsComment m ∨ IsOpening m ∨ ∃ kind, Pattern kind m)

/-- An atom has no first character that a comment, a string or a quote begins with. -/
def Unclaimed (t : Token) : Prop :=
  t.kind = .atom → ∀ c r, t.text = c :: r → c ≠ ';' ∧ c ≠ '"' ∧ c ≠ '\''

/-- An atom goes on to the next blank or parenthesis, or to a backslash that ends the text, and that
backslash is the last token. -/
def Bounded (t : Token) (rest : Text) : Prop :=
  t.kind = .atom → (EndsAtom rest ∨ rest = ['\\']) ∧ (t = lone → rest = [])

/-- Blanks and comments, each comment with the newline that ends it. -/
inductive Gap : Text → Prop
  | nil : Gap []
  | blank {c : Char} {r : Text} : isBlank c = true → Gap r → Gap (c :: r)
  | comment {body r : Text} : '\n' ∉ body → Gap r → Gap (';' :: (body ++ '\n' :: r))

/-- At the end of the text the last comment needs no newline. -/
inductive LastGap : Text → Prop
  | gap {g : Text} : Gap g → LastGap g
  | comment {g body : Text} : Gap g → '\n' ∉ body → LastGap (g ++ ';' :: body)

/-- A text cut into gaps and tokens. -/
inductive Tiled : Text → Lexed → Prop
  | last {g : Text} : LastGap g → Tiled g ⟨[], false⟩
  | openString {g body stray : Text} : Gap g → StringUnits body → stray = [] ∨ stray = ['\\'] →
      Tiled (g ++ '"' :: (body ++ stray)) ⟨[], true⟩
  | token {g s : Text} {t : Token} {l : Lexed} : Gap g → Pattern t.kind t.text → t.Unclaimed →
      t.Bounded s → Tiled s l → Tiled (g ++ (t.text ++ s)) ⟨t :: l.tokens, l.openString⟩

/-- A gap that begins with a blank. -/
structure Separator (g : Text) : Prop where
  gap : Gap g
  blank : ∃ c r, g = c :: r ∧ isBlank c = true

/-- The texts of some tokens with separators between them. -/
inductive Joined : List Token → Text → Prop
  | nil : Joined [] []
  | single (t : Token) : Joined [t] t.text
  | cons {t t' : Token} {ts : List Token} {g s : Text} : Separator g → Joined (t' :: ts) s →
      Joined (t :: t' :: ts) (t.text ++ (g ++ s))

/-! ### Patterns and what the lexer takes -/

theorem Units.stringBody? {body : Text} (units : StringUnits body) (rest : Text) :
    Token.stringBody? (body ++ '"' :: rest) = some (body ++ ['"'], rest) := by
  induction units with
  | nil => rfl
  | escape c _ ih => simp [Token.stringBody?, ih]
  | @plain c r notQuote notBackslash _ ih =>
    rw [List.cons_append, Token.stringBody?, if_neg notBackslash, ih]
    · rfl
    · exact notQuote
    · exact fun _ _ same _ => notBackslash same

theorem units_of_stringBody? {r s rest : Text} (h : stringBody? r = some (s, rest)) :
    ∃ body, s = body ++ ['"'] ∧ StringUnits body := by
  fun_induction stringBody? r generalizing s rest with
  | case1 => cases h
  | case2 r => cases h; exact ⟨[], rfl, .nil⟩
  | case3 c r ih =>
    obtain ⟨⟨s', rest'⟩, hs, he⟩ := Option.map_eq_some_iff.mp h
    cases he
    obtain ⟨body, rfl, units⟩ := ih hs
    exact ⟨'\\' :: c :: body, rfl, .escape c units⟩
  | case4 => cases h
  | case5 c r notQuote _ notBackslash ih =>
    obtain ⟨⟨s', rest'⟩, hs, he⟩ := Option.map_eq_some_iff.mp h
    cases he
    obtain ⟨body, rfl, units⟩ := ih hs
    exact ⟨c :: body, rfl, .plain notQuote notBackslash units⟩

/-- A string is left open by the end of the text, or by a backslash there. -/
theorem units_of_open {r : Text} (h : stringBody? r = none) :
    ∃ body stray, r = body ++ stray ∧ StringUnits body ∧ (stray = [] ∨ stray = ['\\']) := by
  fun_induction stringBody? r with
  | case1 => exact ⟨[], [], rfl, .nil, Or.inl rfl⟩
  | case2 => cases h
  | case3 c r ih =>
    obtain ⟨body, stray, rfl, units, ends⟩ := ih (Option.map_eq_none_iff.mp h)
    exact ⟨'\\' :: c :: body, stray, rfl, .escape c units, ends⟩
  | case4 r _ notEscape =>
    cases r with
    | nil => exact ⟨[], ['\\'], rfl, .nil, Or.inr rfl⟩
    | cons c r => exact absurd rfl (fun h => notEscape c r rfl h)
  | case5 c r notQuote _ notBackslash ih =>
    obtain ⟨body, stray, rfl, units, ends⟩ := ih (Option.map_eq_none_iff.mp h)
    exact ⟨c :: body, stray, rfl, .plain notQuote notBackslash units, ends⟩

theorem Units.stringBody?_stray {body stray : Text} (units : StringUnits body)
    (ends : stray = [] ∨ stray = ['\\']) : Token.stringBody? (body ++ stray) = none := by
  induction units with
  | nil => rcases ends with rfl | rfl <;> rfl
  | escape c _ ih => simp [Token.stringBody?, ih]
  | @plain c r notQuote notBackslash _ ih =>
    rw [List.cons_append, Token.stringBody?, if_neg notBackslash, ih]
    · rfl
    · exact notQuote
    · exact fun _ _ same _ => notBackslash same

/-- The units of an atom are taken up to what bounds it. -/
theorem Units.atomRun {t rest : Text} (units : AtomUnits t)
    (ends : EndsAtom rest ∨ rest = ['\\']) : Token.atomRun (t ++ rest) = (t, rest) := by
  induction units with
  | nil =>
    rcases ends with ends | rfl
    · exact atomRun_of_endsAtom ends
    · rfl
  | escape c _ ih => simp only [List.cons_append, atomRun_escape, ih]
  | plain notStop notBackslash _ ih =>
    simp only [List.cons_append, atomRun_plain _ notStop notBackslash, ih]

theorem units_of_atomRun (r : Text) : AtomUnits (atomRun r).1 := by
  fun_induction atomRun r with
  | case1 c r s rest hr ih =>
    rw [hr] at ih
    exact .escape c ih
  | case2 => exact .nil
  | case3 c r _ stop s rest hr ih =>
    rw [hr] at ih
    have plain : ¬ Stops c := fun h => stop (by rcases h with h | h | h <;> simp [h])
    exact .plain plain (fun h => stop (by simp [h])) ih
  | case4 => exact .nil

theorem Units.head_notBlank {c : Char} {r : Text} (units : AtomUnits (c :: r)) :
    isBlank c = false := by
  cases units with
  | escape => decide
  | plain notStop => exact Bool.eq_false_iff.mpr fun blank => notStop (Or.inl blank)

/-- The tokens of the lexer are those of the patterns, as far as no earlier pattern matches. -/
theorem emitted_iff {t : Token} : t.Emitted ↔ Pattern t.kind t.text ∧ t.Unclaimed := by
  constructor
  · intro emitted
    cases emitted with
    | string whole =>
      obtain ⟨body, rfl, units⟩ := units_of_stringBody? whole
      exact ⟨.string units, by rintro ⟨⟩⟩
    | mark => exact ⟨.quote, by rintro ⟨⟩⟩
    | opening => exact ⟨.lparen, by rintro ⟨⟩⟩
    | closing => exact ⟨.rparen, by rintro ⟨⟩⟩
    | @atom text atom =>
      have units := units_of_atomRun text
      rw [atom.run] at units
      exact ⟨.atom atom.nonempty units, fun _ => atom.notSpecial⟩
    | lone =>
      refine ⟨.lone, ?_⟩
      rintro - c r ⟨⟩
      decide
  · rintro ⟨pattern, unclaimed⟩
    obtain ⟨kind, text⟩ := t
    cases pattern with
    | string units => exact .string (units.stringBody? [])
    | quote => exact .mark
    | lparen => exact .opening
    | rparen => exact .closing
    | atom nonempty units =>
      have ends : EndsAtom [] := trivial
      have run := units.atomRun (Or.inl ends)
      rw [List.append_nil] at run
      refine .atom ⟨run, nonempty, ?_, unclaimed rfl⟩
      rintro c r rfl
      exact units.head_notBlank
    | lone => exact .lone

/-- Only a string can fail to be taken. -/
theorem open_of_first?_none {c : Char} {r : Text} (h : first? c r = none) :
    c = '"' ∧ stringBody? r = none := by
  rw [first?] at h
  split at h
  next string => exact ⟨string, Option.map_eq_none_iff.mp h⟩
  repeat' split at h
  all_goals cases h

/-- Whatever is no blank begins a comment, a string or a token. -/
theorem matches_of_notBlank {c : Char} (r : Text) (notBlank : isBlank c = false) :
    Matches (c :: r) := by
  by_cases comment : c = ';'
  · exact ⟨[c], r, rfl, Or.inl ⟨[], by rw [comment], List.not_mem_nil⟩⟩
  cases taken : first? c r with
  | none =>
    obtain ⟨rfl, _⟩ := open_of_first?_none taken
    exact ⟨['"'], r, rfl, Or.inr (Or.inl ⟨[], rfl, .nil⟩)⟩
  | some next =>
    obtain ⟨t, rest⟩ := next
    obtain ⟨text, _⟩ := first?_text taken notBlank
    have pattern := (emitted_iff.mp (first?_emitted taken notBlank comment).1).1
    exact ⟨t.text, rest, text, Or.inr (Or.inr ⟨t.kind, pattern⟩)⟩

/-! ### Gaps -/

theorem skipComment_newline {body : Text} (inside : '\n' ∉ body) (r : Text) :
    skipGap.skipComment (body ++ '\n' :: r) = skipGap r := by
  induction body with
  | nil => rfl
  | cons c body ih =>
    rw [List.mem_cons, not_or] at inside
    rw [List.cons_append, skipGap.skipComment, if_neg (Ne.symm inside.1), ih inside.2]

theorem skipComment_end {body : Text} (inside : '\n' ∉ body) :
    skipGap.skipComment body = [] := by
  induction body with
  | nil => rfl
  | cons c body ih =>
    rw [List.mem_cons, not_or] at inside
    rw [skipGap.skipComment, if_neg (Ne.symm inside.1), ih inside.2]

theorem Gap.skipGap {g : Text} (gap : Gap g) (s : Text) :
    Token.skipGap (g ++ s) = Token.skipGap s := by
  induction gap with
  | nil => rfl
  | blank blank _ ih => rw [List.cons_append, skipGap_blank _ blank, ih]
  | @comment body r inside _ ih =>
    have comment : Token.skipGap (';' :: (body ++ '\n' :: r) ++ s) =
        skipGap.skipComment (body ++ '\n' :: (r ++ s)) := by
      rw [List.cons_append, List.append_assoc]
      rfl
    rw [comment, skipComment_newline inside, ih]

theorem LastGap.skipGap {g : Text} (gap : LastGap g) : Token.skipGap g = [] := by
  cases gap with
  | gap gap =>
    have whole := gap.skipGap []
    rwa [List.append_nil] at whole
  | comment gap inside =>
    rw [gap.skipGap]
    exact skipComment_end inside

/-- What is skipped before a token is a gap. -/
theorem gap_of_skipGap {s r : Text} {c : Char} (h : skipGap s = c :: r) :
    ∃ g, Gap g ∧ s = g ++ c :: r := by
  induction s using skipGap.induct (motive_1 := fun s => skipGap.skipComment s = c :: r →
    ∃ body g, '\n' ∉ body ∧ Gap g ∧ s = body ++ '\n' :: (g ++ c :: r)) with
  | case1 h => cases h
  | case2 s ih h =>
    obtain ⟨g, gap, rfl⟩ := ih h
    exact ⟨[], g, List.not_mem_nil, gap, rfl⟩
  | case3 c' s inside ih h =>
    rw [skipGap.skipComment, if_neg inside] at h
    obtain ⟨body, g, within, gap, rfl⟩ := ih h
    exact ⟨c' :: body, g, by simp [Ne.symm inside, within], gap, rfl⟩
  | case4 => cases h
  | case5 c' s blank ih =>
    rw [skipGap_blank s blank] at h
    obtain ⟨g, gap, rfl⟩ := ih h
    exact ⟨c' :: g, .blank blank gap, rfl⟩
  | case6 s _ ih =>
    obtain ⟨body, g, within, gap, rfl⟩ := ih h
    exact ⟨';' :: (body ++ '\n' :: g), .comment within gap, by simp⟩
  | case7 c' s notBlank notComment =>
    rw [skipGap_self s (Bool.eq_false_iff.mpr notBlank) notComment] at h
    exact ⟨[], .nil, h⟩

theorem LastGap.blank {c : Char} {g : Text} (blank : isBlank c = true) (gap : LastGap g) :
    LastGap (c :: g) := by
  cases gap with
  | gap gap => exact .gap (.blank blank gap)
  | comment gap inside => exact .comment (.blank blank gap) inside

theorem LastGap.afterComment {body g : Text} (inside : '\n' ∉ body) (gap : LastGap g) :
    LastGap (';' :: (body ++ '\n' :: g)) := by
  cases gap with
  | gap gap => exact .gap (.comment inside gap)
  | @comment g' body' gap inside' =>
    have whole := LastGap.comment (.comment inside gap) inside'
    simpa using whole

/-- A text without a token is a gap. -/
theorem lastGap_of_skipGap {s : Text} (h : skipGap s = []) : LastGap s := by
  induction s using skipGap.induct (motive_1 := fun s => skipGap.skipComment s = [] →
    '\n' ∉ s ∨ ∃ body g, '\n' ∉ body ∧ LastGap g ∧ s = body ++ '\n' :: g) with
  | case1 _ => exact Or.inl List.not_mem_nil
  | case2 s ih h => exact Or.inr ⟨[], s, List.not_mem_nil, ih h, rfl⟩
  | case3 c s inside ih h =>
    rw [skipGap.skipComment, if_neg inside] at h
    rcases ih h with within | ⟨body, g, within, gap, rfl⟩
    · exact Or.inl (by simp [Ne.symm inside, within])
    · exact Or.inr ⟨c :: body, g, by simp [Ne.symm inside, within], gap, rfl⟩
  | case4 => exact .gap .nil
  | case5 c s blank ih =>
    rw [skipGap_blank s blank] at h
    exact (ih h).blank blank
  | case6 s _ ih =>
    rcases ih h with within | ⟨body, g, within, gap, rfl⟩
    · exact .comment .nil within
    · exact gap.afterComment within
  | case7 c s notBlank notComment =>
    rw [skipGap_self s (Bool.eq_false_iff.mpr notBlank) notComment] at h
    cases h

/-! ### The one tiling of a text -/

/-- A token is the first one of its text and what bounds it. -/
theorem first?_of_bounded {t : Token} {s : Text} (emitted : t.Emitted) (bounded : t.Bounded s) :
    ∃ c r, t.text = c :: r ∧ (isBlank c = false ∧ c ≠ ';') ∧ first? c (r ++ s) = some (t, s) := by
  by_cases closed : t.ClosedBy s
  · exact emitted.first? closed
  -- What is left is an atom in front of the backslash that ends the text.
  obtain ⟨kind, cut⟩ : t.kind = .atom ∧ ¬ (EndsAtom s ∧ (t = lone → s = [])) := by
    simpa [ClosedBy] using closed
  obtain ⟨ends, last⟩ := bounded kind
  obtain rfl : s = ['\\'] := ends.resolve_left fun ends => cut ⟨ends, last⟩
  cases emitted with
  | @atom text atom =>
    have units := units_of_atomRun text
    rw [atom.run] at units
    cases text with
    | nil => exact absurd rfl atom.nonempty
    | cons c r =>
      obtain ⟨notComment, notString, notQuote⟩ := atom.notSpecial c r rfl
      have notParen : c ≠ '(' ∧ c ≠ ')' := by
        constructor <;> rintro rfl <;> cases atom.run
      have run := units.atomRun (Or.inr (rfl : ['\\'] = ['\\']))
      exact ⟨c, r, rfl, ⟨atom.notBlank c r rfl, notComment⟩,
        first?_atom run atom.nonempty ⟨notString, notQuote⟩ notParen⟩
  | lone => cases last rfl
  | string _ => cases kind
  | mark => cases kind
  | opening => cases kind
  | closing => cases kind

theorem step_of_open {g body stray : Text} (gap : Gap g) (units : StringUnits body)
    (ends : stray = [] ∨ stray = ['\\']) : step (g ++ '"' :: (body ++ stray)) = .openString := by
  have start : skipGap ('"' :: (body ++ stray)) = '"' :: (body ++ stray) :=
    skipGap_self _ (by decide) (by decide)
  have fails : first? '"' (body ++ stray) = none := by
    rw [first?, if_pos rfl, units.stringBody?_stray ends]
    rfl
  rw [step, gap.skipGap, start]
  simp only [fails]

end Token

open Token

theorem lex_of_tiled {s : Text} {l : Lexed} (tiled : Tiled s l) : lex s = l := by
  induction tiled with
  | last gap => rw [lex_congr (gap.skipGap.trans skipGap.eq_1.symm), lex_nil]
  | openString gap units ends => exact lex_of_openString (step_of_open gap units ends)
  | @token g s t l gap pattern unclaimed bounded _ ih =>
    obtain ⟨c, r, text, ⟨notBlank, notComment⟩, first⟩ :=
      first?_of_bounded (emitted_iff.mpr ⟨pattern, unclaimed⟩) bounded
    rw [lex_congr (gap.skipGap (t.text ++ s)), text, List.cons_append,
      lex_of_first? first notBlank notComment, ih]
    rfl

theorem tiled_lex (s : Text) : Tiled s (lex s) := by
  induction s using lex.induct with
  | case1 s done =>
    rw [lex_of_done done]
    exact .last (lastGap_of_skipGap (skipGap_of_done done))
  | case2 s opened =>
    rw [lex_of_openString opened]
    rw [step] at opened
    split at opened
    · cases opened
    next c r start =>
      split at opened
      · cases opened
      next fails =>
        obtain ⟨g, gap, rfl⟩ := gap_of_skipGap start
        obtain ⟨rfl, unclosed⟩ := open_of_first?_none fails
        obtain ⟨body, stray, rfl, units, ends⟩ := units_of_open unclosed
        exact .openString gap units ends
  | case3 s t rest taken ih =>
    rw [lex_of_step taken]
    obtain ⟨c, r, start, first⟩ := step_eq_token taken
    obtain ⟨g, gap, rfl⟩ := gap_of_skipGap start
    obtain ⟨text, ends⟩ := first?_text first (skipGap_head start).1
    obtain ⟨emitted, last⟩ := step_emitted taken
    obtain ⟨pattern, unclaimed⟩ := emitted_iff.mp emitted
    rw [text]
    exact .token gap pattern unclaimed (fun kind => ⟨ends kind, last⟩) ih

theorem tiled_iff (s : Text) (l : Lexed) : Tiled s l ↔ l = lex s :=
  ⟨fun tiled => (lex_of_tiled tiled).symm, fun h => h ▸ tiled_lex s⟩

/-! ### Other layouts -/

/-- Tokens with separators between them are tiled by themselves, if the backslash that ends a text
is only the last of them. -/
theorem tiled_of_joined {ts : List Token} {g s : Text} (gap : Gap g) (joined : Joined ts s)
    (emitted : ∀ t ∈ ts, t.Emitted) (last : ∀ p q, ts = p ++ lone :: q → q = []) :
    Tiled (g ++ s) ⟨ts, false⟩ := by
  induction joined generalizing g with
  | nil =>
    rw [List.append_nil]
    exact .last (.gap gap)
  | single t =>
    obtain ⟨pattern, unclaimed⟩ := emitted_iff.mp (emitted t List.mem_cons_self)
    have bounded : t.Bounded [] := fun _ => ⟨Or.inl trivial, fun _ => rfl⟩
    have tiled := Tiled.token gap pattern unclaimed bounded (.last (.gap .nil))
    rwa [List.append_nil] at tiled
  | @cons t t' ts g' s separator _ ih =>
    obtain ⟨pattern, unclaimed⟩ := emitted_iff.mp (emitted t List.mem_cons_self)
    have rest := ih separator.gap (fun u hu => emitted u (List.mem_cons_of_mem _ hu))
      fun p q split => last (t :: p) q (by rw [split]; rfl)
    obtain ⟨c, r, rfl, blank⟩ := separator.blank
    have bounded : t.Bounded (c :: r ++ s) := by
      refine fun _ => ⟨Or.inl (Or.inl blank), ?_⟩
      rintro rfl
      cases last [] (t' :: ts) rfl
    exact .token gap pattern unclaimed bounded rest

/-- The tokens of a text are lexed again from their texts with separators between them. -/
theorem lex_of_joined {s s' : Text} (closed : (lex s).openString = false)
    (joined : Joined (lex s).tokens s') : lex s' = lex s := by
  have tiled : Tiled s' ⟨(lex s).tokens, false⟩ :=
    tiled_of_joined .nil joined (fun _ => emitted_of_mem_lex) fun _ _ => lex_after_lone
  rw [lex_of_tiled tiled, ← closed]

theorem read_congr {s s' : Text} (same : lex s' = lex s) : read s' = read s := by
  rw [read, read, readForms, readForms, same]

/-- The lexer for a limited number of rounds, each of which takes a token or comes to the end;
`none` if they do not suffice. -/
def lexWithin : Nat → Text → Option Lexed
  | 0, _ => none
  | n + 1, s =>
    match Token.step s with
    | .done => some ⟨[], false⟩
    | .openString => some ⟨[], true⟩
    | .token t rest => (lexWithin n rest).map (·.prepend [t])

/-- A round takes a character at least. -/
theorem lexWithin_of_length {n : Nat} {s : Text} (enough : s.length < n) :
    lexWithin n s = some (lex s) := by
  induction n generalizing s with
  | zero => omega
  | succ n ih =>
    rw [lexWithin]
    split
    next done => rw [lex_of_done done]
    next opened => rw [lex_of_openString opened]
    next t rest taken =>
      have shorter := length_of_step taken
      rw [lex_of_step taken, ih (by omega)]
      rfl

/-- The lexer comes to an end in no more rounds than a text has characters and one. At every
character that is no blank some pattern matches. A text is tiled by gaps and tokens in one way,
which the lexer finds. If no string is left open, the texts of the tokens with any separators
between them have the same tokens, so they are read alike. -/
theorem lex_tiles (s : Text) :
    lexWithin (s.length + 1) s = some (lex s) ∧
    (∀ u c r, s = u ++ c :: r → isBlank c = false → Matches (c :: r)) ∧
    (∀ l, Tiled s l ↔ l = lex s) ∧
    ((lex s).openString = false → ∀ s', Joined (lex s).tokens s' →
      lex s' = lex s ∧ read s' = read s) := by
  refine ⟨lexWithin_of_length (Nat.lt_succ_self _), ?_, tiled_iff s, ?_⟩
  · intro u c r _ notBlank
    exact matches_of_notBlank r notBlank
  · intro closed s' joined
    have same := lex_of_joined closed joined
    exact ⟨same, read_congr same⟩

end FexprLisp
