import FexprLisp.Text.Blank
import FexprLisp.Fault

/-!
# Tokens

A text is a sequence of tokens with gaps of blanks and comments between them. A string token runs
from a double quote to the next one that no backslash precedes; an atom runs to the next blank or
parenthesis, a backslash taking the character after it along. A backslash that ends the text is a
token of its own.

The only way for a text not to lex is a string that the end of the text leaves open. The tokens
before it are good all the same.
-/

namespace FexprLisp

inductive TokenKind where
  | string | quote | lparen | rparen | atom
  deriving DecidableEq

structure Token where
  kind : TokenKind
  text : Text
  deriving DecidableEq

namespace Token

/-- The rest of a string after its opening quote: what belongs to it, closing quote included, and
what follows. -/
def stringBody? : Text → Option (Text × Text)
  | [] => none
  | '"' :: r => some (['"'], r)
  | '\\' :: c :: r => (stringBody? r).map fun (s, rest) => ('\\' :: c :: s, rest)
  | c :: r => if c = '\\' then none else (stringBody? r).map fun (s, rest) => (c :: s, rest)

/-- The longest beginning made of escaped characters and characters other than blanks, parentheses
and backslashes, and what follows. -/
def atomRun : Text → Text × Text
  | '\\' :: c :: r => let (s, rest) := atomRun r; ('\\' :: c :: s, rest)
  | c :: r =>
    if isBlank c ∨ c = '(' ∨ c = ')' ∨ c = '\\' then ([], c :: r)
    else let (s, rest) := atomRun r; (c :: s, rest)
  | [] => ([], [])

/-- What follows the gap at the beginning of a text. -/
def skipGap : Text → Text
  | [] => []
  | c :: r =>
    if isBlank c then skipGap r
    else if c = ';' then skipComment r
    else c :: r
where
  /-- A comment ends before the next newline. -/
  skipComment : Text → Text
    | [] => []
    | c :: r => if c = '\n' then skipGap r else skipComment r

/-- The token at the beginning of a text that has no gap there; `none` for an open string. -/
def first? (c : Char) (r : Text) : Option (Token × Text) :=
  if c = '"' then (stringBody? r).map fun (s, rest) => (⟨.string, '"' :: s⟩, rest)
  else if c = '\'' then some (⟨.quote, ['\'']⟩, r)
  else if c = '(' then some (⟨.lparen, ['(']⟩, r)
  else if c = ')' then some (⟨.rparen, [')']⟩, r)
  else match atomRun (c :: r) with
    | ([], _) => some (⟨.atom, [c]⟩, r)
    | (s, rest) => some (⟨.atom, s⟩, rest)

theorem stringBody?_append {r s rest : Text} (h : stringBody? r = some (s, rest)) :
    s ++ rest = r := by
  fun_induction stringBody? r generalizing s rest with
  | case1 => cases h
  | case2 r => cases h; rfl
  | case3 c r ih =>
    obtain ⟨⟨s', rest'⟩, hs, he⟩ := Option.map_eq_some_iff.1 h
    cases he
    simp [ih hs]
  | case4 c r => cases h
  | case5 c r _ _ _ ih =>
    obtain ⟨⟨s', rest'⟩, hs, he⟩ := Option.map_eq_some_iff.1 h
    cases he
    simp [ih hs]

theorem atomRun_append (r : Text) : (atomRun r).1 ++ (atomRun r).2 = r := by
  fun_induction atomRun r <;> simp_all

theorem length_skipGap_le (s : Text) : (skipGap s).length ≤ s.length := by
  suffices h : ∀ n : Nat, ∀ s : Text, s.length ≤ n →
      (skipGap s).length ≤ s.length ∧ (skipGap.skipComment s).length ≤ s.length from
    (h s.length s (Nat.le_refl _)).1
  intro n
  induction n with
  | zero => intro s hs; cases s <;> simp_all [skipGap, skipGap.skipComment]
  | succ n ih =>
    intro s hs
    cases s with
    | nil => simp [skipGap, skipGap.skipComment]
    | cons c r =>
      have hr := ih r (by simpa using hs)
      simp only [skipGap, skipGap.skipComment, List.length_cons]
      grind

theorem first?_length {c : Char} {r rest : Text} {t : Token} (h : first? c r = some (t, rest)) :
    rest.length < (c :: r).length := by
  fun_cases first? c r with
  | case1 =>
    rw [first?, if_pos ‹_›] at h
    obtain ⟨⟨s, rest'⟩, hs, he⟩ := Option.map_eq_some_iff.1 h
    cases he
    have hl := congrArg List.length (stringBody?_append hs)
    simp only [List.length_append] at hl
    simp only [List.length_cons]
    omega
  | case2 => simp_all [first?]
  | case3 => simp_all [first?]
  | case4 => simp_all [first?]
  | case5 => simp_all [first?]
  | case6 _ _ _ _ s rest' hs heq =>
    have hl := congrArg List.length (atomRun_append (c :: r))
    simp_all [first?]
    have := List.length_pos_iff.2 hs
    omega

/-- One step of the lexer: the first token and what follows it. -/
inductive Step where
  | done
  | openString
  | token (t : Token) (rest : Text)

def step (s : Text) : Step :=
  match skipGap s with
  | [] => .done
  | c :: r =>
    match first? c r with
    | some (t, rest) => .token t rest
    | none => .openString

theorem length_of_step {s rest : Text} {t : Token} (h : step s = .token t rest) :
    rest.length < s.length := by
  unfold step at h
  have hs := length_skipGap_le s
  split at h
  · cases h
  next c r heq =>
    split at h
    next t' rest' hf =>
      cases h
      have := first?_length hf
      rw [heq] at hs
      exact Nat.lt_of_lt_of_le this hs
    · cases h

end Token

/-- A string that is left open. -/
def openStringFault : Fault := .unreadable (.unmatchedToken ['"'])

/-- The tokens of a text, and whether a string is left open after them. -/
structure Lexed where
  tokens : List Token
  openString : Bool

def lex (s : Text) : Lexed :=
  match _h : Token.step s with
  | .done => ⟨[], false⟩
  | .openString => ⟨[], true⟩
  | .token t rest =>
    let l := lex rest
    ⟨t :: l.tokens, l.openString⟩
termination_by s.length
decreasing_by exact Token.length_of_step _h

namespace Lexed

/-- The fault that waits after the last token. -/
def fault? (l : Lexed) : Option Fault := if l.openString then some openStringFault else none

end Lexed

end FexprLisp
