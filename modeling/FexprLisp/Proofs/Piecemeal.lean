import FexprLisp.Proofs.Faults
import FexprLisp.Proofs.Grammar

/-!
# Tokens on demand

A stream lexes its text as far as it is asked to and keeps a token that was only peeked at. Nothing
of this shows: whatever a host asks for, in any order and also after a fault, it gets what a
position in the list of all tokens gives. What was taken and what is left make up that list, and a
string that is left open is told once, when the tokens are used up.
-/

namespace FexprLisp

open TokenSource

/-- What a host can ask a source for: a token to look at, a token to take, a form, the rest of a
list, the rest of a list behind its point, or all forms. -/
inductive Call where
  | peek | advance | form | list | tail | forms

inductive Reply where
  | token (r : Except Fault (Option Token))
  | form (r : Except Fault (Option Datum))
  | forms (r : Reader.Reading)

def Reply.fault? : Reply → Option Fault
  | token (.error f) => some f
  | form (.error f) => some f
  | forms r => r.fault
  | _ => none

/-- A source with a record of the tokens that were taken from it. -/
structure Recorded (σ : Type) where
  source : σ
  taken : List Token

namespace Recorded

variable {σ : Type} [TokenSource σ]

/-- The token in an answer. -/
def given : Except Fault (Option Token) → List Token
  | .ok (some t) => [t]
  | _ => []

def peek (r : Recorded σ) : Except Fault (Option Token) × Recorded σ :=
  ((TokenSource.peek r.source).1, ⟨(TokenSource.peek r.source).2, r.taken⟩)

def advance (r : Recorded σ) : Except Fault (Option Token) × Recorded σ :=
  ((TokenSource.advance r.source).1,
    ⟨(TokenSource.advance r.source).2, r.taken ++ given (TokenSource.advance r.source).1⟩)

theorem size_of_advance {r r' : Recorded σ} {t : Token} (h : r.peek = (.ok (some t), r')) :
    TokenSource.size r'.advance.2.source < TokenSource.size r.source := by
  obtain ⟨answer, rfl⟩ := Prod.mk.inj h
  exact TokenSource.advance_lt (Prod.ext answer rfl)

instance : TokenSource (Recorded σ) :=
  ⟨fun r => TokenSource.size r.source, peek, advance, size_of_advance⟩

end Recorded

section Calls

variable {σ : Type} [TokenSource σ]

def Call.perform (s : σ) : Call → Reply × σ
  | peek => (.token (TokenSource.peek s).1, (TokenSource.peek s).2)
  | advance => (.token (TokenSource.advance s).1, (TokenSource.advance s).2)
  | form => (.form (Reader.parse Reader.idle s).1, (Reader.parse Reader.idle s).2)
  | list => (.form (Reader.parse Reader.insideList s).1, (Reader.parse Reader.insideList s).2)
  | tail => (.form (Reader.parse Reader.insideTail s).1, (Reader.parse Reader.insideTail s).2)
  | forms => (.forms (Reader.parseAll Reader.idle s).1, (Reader.parseAll Reader.idle s).2)

/-- Call after call, whatever the replies are. -/
def performAll (s : σ) : List Call → List Reply × σ
  | [] => ([], s)
  | call :: calls =>
    let (reply, s') := call.perform s
    let (replies, s'') := performAll s' calls
    (reply :: replies, s'')

/-- What peeks and advances make of a source. -/
inductive Reaches (s : σ) : σ → Prop
  | still : Reaches s s
  | peek {s' : σ} : Reaches s s' → Reaches s (TokenSource.peek s').2
  | advance {s' : σ} : Reaches s s' → Reaches s (TokenSource.advance s').2

end Calls

section Sources

variable {σ τ : Type} [TokenSource σ] [TokenSource τ]

namespace Reader

theorem parse_of_error {s s' : σ} {f : Fault} (peeked : peek s = (.error f, s')) (state : State) :
    parse state s = (.error f, s') := by
  rw [parse]
  split <;> simp_all

theorem parse_of_end {s s' : σ} (peeked : peek s = (.ok none, s')) (state : State) :
    parse state s = match state.atEnd with
      | some f => (.error f, s')
      | none => (.ok none, s') := by
  rw [parse]
  split
  · simp_all
  next h =>
    rw [peeked] at h
    cases h
    rfl
  · simp_all

theorem parse_of_token {s s' : σ} {t : Token} (peeked : peek s = (.ok (some t), s'))
    (state : State) :
    parse state s = match state.move t with
      | .next state' => parse state' (advance s').2
      | .finish d => (.ok (some d), (advance s').2)
      | .spoil f => (.error f, (advance s').2)
      | .refuse f => (.error f, s') := by
  rw [parse]
  split
  · simp_all
  · simp_all
  next h =>
    rw [peeked] at h
    cases h
    rfl

theorem parseAll_of_error {s s' : σ} {f : Fault} (peeked : peek s = (.error f, s'))
    (state : State) : parseAll state s = (⟨[], some f⟩, s') := by
  rw [parseAll]
  split <;> simp_all

theorem parseAll_of_end {s s' : σ} (peeked : peek s = (.ok none, s')) (state : State) :
    parseAll state s = (⟨[], state.atEnd⟩, s') := by
  rw [parseAll]
  split <;> simp_all

end Reader

/-- A view of one source as another that gives the same tokens and faults. -/
structure Shows (view : σ → τ) : Prop where
  peek (s : σ) : peek (view s) = ((peek s).1, view (peek s).2)
  advance (s : σ) : advance (view s) = ((advance s).1, view (advance s).2)

section View

variable {view : σ → τ} (shows : Shows view)

include shows

theorem Shows.peek_of {s s' : σ} {answer : Except Fault (Option Token)}
    (peeked : TokenSource.peek s = (answer, s')) :
    TokenSource.peek (view s) = (answer, view s') := by
  rw [shows.peek, peeked]

theorem Shows.advance_snd (s : σ) :
    (TokenSource.advance (view s)).2 = view (TokenSource.advance s).2 := by
  rw [shows.advance]

theorem Shows.parse (state : Reader.State) (s : σ) :
    Reader.parse state (view s) =
      ((Reader.parse state s).1, view (Reader.parse state s).2) := by
  fun_induction Reader.parse state s with
  | case1 state s f s' peeked => exact Reader.parse_of_error (shows.peek_of peeked) state
  | case2 state s s' peeked f unfinished =>
    rw [Reader.parse_of_end (shows.peek_of peeked), unfinished]
  | case3 state s s' peeked finished =>
    rw [Reader.parse_of_end (shows.peek_of peeked), finished]
  | case4 state s t s' peeked state' move ih =>
    rw [Reader.parse_of_token (shows.peek_of peeked), move, ← ih, ← shows.advance_snd]
  | case5 state s t s' peeked d move =>
    rw [Reader.parse_of_token (shows.peek_of peeked), move, ← shows.advance_snd]
  | case6 state s t s' peeked f move =>
    rw [Reader.parse_of_token (shows.peek_of peeked), move, ← shows.advance_snd]
  | case7 state s t s' peeked f move =>
    rw [Reader.parse_of_token (shows.peek_of peeked), move]

theorem Shows.parseAll (state : Reader.State) (s : σ) :
    Reader.parseAll state (view s) =
      ((Reader.parseAll state s).1, view (Reader.parseAll state s).2) := by
  fun_induction Reader.parseAll state s with
  | case1 state s f s' peeked => exact Reader.parseAll_of_error (shows.peek_of peeked) state
  | case2 state s s' peeked => exact Reader.parseAll_of_end (shows.peek_of peeked) state
  | case3 state s t s' peeked state' move ih =>
    rw [Reader.parseAll_of_token (shows.peek_of peeked), move, ← ih, ← shows.advance_snd]
  | case4 state s t s' peeked d move r s'' others ih =>
    rw [Reader.parseAll_of_token (shows.peek_of peeked), move, shows.advance_snd, ih, others]
  | case5 state s t s' peeked f move =>
    rw [Reader.parseAll_of_token (shows.peek_of peeked), move, ← shows.advance_snd]
  | case6 state s t s' peeked f move =>
    rw [Reader.parseAll_of_token (shows.peek_of peeked), move]

theorem Shows.perform (s : σ) (call : Call) :
    call.perform (view s) = ((call.perform s).1, view (call.perform s).2) := by
  cases call with
  | peek => rw [Call.perform, shows.peek]; rfl
  | advance => rw [Call.perform, shows.advance]; rfl
  | forms => rw [Call.perform, shows.parseAll]; rfl
  | form | list | tail => rw [Call.perform, shows.parse]; rfl

theorem Shows.performAll (s : σ) (calls : List Call) :
    FexprLisp.performAll (view s) calls =
      ((FexprLisp.performAll s calls).1, view (FexprLisp.performAll s calls).2) := by
  induction calls generalizing s with
  | nil => rfl
  | cons call calls ih =>
    rw [FexprLisp.performAll, shows.perform]
    dsimp only
    rw [ih]
    rfl

end View

section Reach

variable {s s' s'' : σ}

theorem Reaches.trans (first : Reaches s s') (rest : Reaches s' s'') : Reaches s s'' := by
  induction rest with
  | still => exact first
  | peek _ ih => exact ih.peek
  | advance _ ih => exact ih.advance

theorem reaches_peeked {answer : Except Fault (Option Token)} (peeked : peek s = (answer, s')) :
    Reaches s s' := by
  have reached := (Reaches.still (s := s)).peek
  rwa [peeked] at reached

theorem reaches_parse (state : Reader.State) (s : σ) : Reaches s (Reader.parse state s).2 := by
  fun_induction Reader.parse state s with
  | case4 state s t s' peeked state' move ih => exact (reaches_peeked peeked).advance.trans ih
  | case5 state s t s' peeked d move => exact (reaches_peeked peeked).advance
  | case6 state s t s' peeked f move => exact (reaches_peeked peeked).advance
  | _ => exact reaches_peeked ‹_›

theorem reaches_parseAll (state : Reader.State) (s : σ) :
    Reaches s (Reader.parseAll state s).2 := by
  fun_induction Reader.parseAll state s with
  | case3 state s t s' peeked state' move ih => exact (reaches_peeked peeked).advance.trans ih
  | case4 state s t s' peeked d move r s'' others ih =>
    rw [others] at ih
    exact (reaches_peeked peeked).advance.trans ih
  | case5 state s t s' peeked f move => exact (reaches_peeked peeked).advance
  | _ => exact reaches_peeked ‹_›

theorem reaches_perform (s : σ) (call : Call) : Reaches s (call.perform s).2 := by
  cases call with
  | peek => exact Reaches.still.peek
  | advance => exact Reaches.still.advance
  | forms => exact reaches_parseAll _ s
  | form | list | tail => exact reaches_parse _ s

theorem reaches_performAll (s : σ) (calls : List Call) : Reaches s (performAll s calls).2 := by
  induction calls generalizing s with
  | nil => exact .still
  | cons call calls ih => exact (reaches_perform s call).trans (ih _)

end Reach

/-- The record changes nothing. -/
theorem Recorded.shows_source : Shows (Recorded.source : Recorded σ → σ) where
  peek _ := rfl
  advance _ := rfl

end Sources

namespace Supply

/-- The position before the first of the tokens that a supply has. -/
def cursor : Supply → Cursor
  | text s => .ofText s
  | tokens ts => .ofTokens ts

/-- What a supply gives next is what its tokens begin with. -/
theorem advance_cursor (s : Supply) : s.cursor.advance = (s.next.1, s.next.2.cursor) := by
  cases s with
  | tokens ts => cases ts <;> rfl
  | text s =>
    cases h : Token.step s with
    | done =>
      rw [cursor, Cursor.ofText, next, h, lex_of_done h]
      rfl
    | openString =>
      rw [cursor, Cursor.ofText, next, h, lex_of_openString h]
      rfl
    | token t rest =>
      rw [cursor, Cursor.ofText, next, h, lex_of_step h]
      rfl

end Supply

namespace Cursor

/-- A cursor stands before a token, or at the end with or without a string left open. -/
theorem peek_cases (c : Cursor) :
    (∃ t ts, c = ⟨t :: ts, c.openString⟩ ∧ peek c = (.ok (some t), c) ∧
      advance c = (.ok (some t), ⟨ts, c.openString⟩)) ∨
    (c = ⟨[], true⟩ ∧ peek c = (.error openStringFault, ⟨[], false⟩) ∧
      advance c = (.error openStringFault, ⟨[], false⟩)) ∨
    (c = ⟨[], false⟩ ∧ peek c = (.ok none, ⟨[], false⟩) ∧
      advance c = (.ok none, ⟨[], false⟩)) := by
  obtain ⟨rest, o⟩ := c
  cases rest with
  | cons t ts => exact Or.inl ⟨t, ts, rfl, rfl, rfl⟩
  | nil =>
    cases o with
    | true => exact Or.inr (Or.inl ⟨rfl, rfl, rfl⟩)
    | false => exact Or.inr (Or.inr ⟨rfl, rfl, rfl⟩)

theorem rest_peek (c : Cursor) : c.peek.2.rest = c.rest := by
  rcases c.peek_cases with ⟨t, ts, _, peeked, _⟩ | ⟨whole, peeked, _⟩ | ⟨whole, peeked, _⟩
  · rw [peeked]
  · rw [peeked, whole]
  · rw [peeked, whole]

theorem given_advance (c : Cursor) :
    Recorded.given c.advance.1 ++ c.advance.2.rest = c.rest := by
  rcases c.peek_cases with ⟨t, ts, whole, _, taken⟩ | ⟨whole, _, taken⟩ | ⟨whole, _, taken⟩
  · rw [taken, whole]
    rfl
  · rw [taken, whole]
    rfl
  · rw [taken, whole]
    rfl

end Cursor

namespace TokenStream

/-- A stream that nothing was asked for yet. -/
def reading (supply : Supply) : TokenStream := ⟨supply, []⟩

/-- The position that a stream has come to, whatever it has lexed beyond it. -/
def left (s : TokenStream) : Cursor :=
  ⟨s.buffer ++ s.supply.cursor.rest, s.supply.cursor.openString⟩

theorem peek_of_next {supply rest : Supply} {t : Token}
    (next : supply.next = (.ok (some t), rest)) :
    TokenStream.peek ⟨supply, []⟩ = (.ok (some t), ⟨rest, [t]⟩) := by
  simp [TokenStream.peek, next]

theorem peek_of_no_next {supply rest : Supply} {answer : Except Fault (Option Token)}
    (next : supply.next = (answer, rest)) (none : ∀ t, answer ≠ .ok (some t)) :
    TokenStream.peek ⟨supply, []⟩ = (answer, ⟨rest, []⟩) := by
  rcases answer with f | _ | t
  · simp [TokenStream.peek, next]
  · simp [TokenStream.peek, next]
  · exact absurd rfl (none t)

theorem shows_left : Shows left where
  peek s := by
    obtain ⟨supply, buffer⟩ := s
    cases buffer with
    | cons t ts => rfl
    | nil =>
      change supply.cursor.peek = ((TokenStream.peek ⟨supply, []⟩).1,
        left (TokenStream.peek ⟨supply, []⟩).2)
      have stepped := supply.advance_cursor
      generalize next : supply.next = n at stepped
      obtain ⟨answer, rest⟩ := n
      rcases supply.cursor.peek_cases with
        ⟨t, ts, whole, peeked, taken⟩ | ⟨_, peeked, taken⟩ | ⟨_, peeked, taken⟩
      · -- The token that is kept in the buffer is still before the position.
        obtain ⟨rfl, after⟩ := Prod.mk.inj (taken.symm.trans stepped)
        dsimp only at after
        rw [peeked, peek_of_next next, left, ← after, whole]
        rfl
      · obtain ⟨rfl, after⟩ := Prod.mk.inj (taken.symm.trans stepped)
        rw [peeked, peek_of_no_next next (by rintro t ⟨⟩), left, ← after]
        rfl
      · obtain ⟨rfl, after⟩ := Prod.mk.inj (taken.symm.trans stepped)
        rw [peeked, peek_of_no_next next (by rintro t ⟨⟩), left, ← after]
        rfl
  advance s := by
    obtain ⟨supply, buffer⟩ := s
    cases buffer with
    | cons t ts => rfl
    | nil => exact supply.advance_cursor

end TokenStream

/-- How a call deals with a string that is left open. It is told when the position is at the end,
and is forgotten then; the end comes after it, for every call. -/
structure TellsOnce (before : Cursor) (call : Call) (reply : Reply) (after : Cursor) : Prop where
  told : reply.fault? = some openStringFault ↔ before.openString = true ∧ after.openString = false
  forgotten : after.openString = before.openString ∨ after = ⟨[], false⟩
  atEnd : before = ⟨[], true⟩ → reply.fault? = some openStringFault
  ended : before = ⟨[], false⟩ → after = ⟨[], false⟩ ∧
    (call = .peek ∨ call = .advance → reply = .token (.ok none))

namespace Cursor

theorem forgotten_of_reaches {c c' : Cursor} (reached : Reaches c c') :
    c'.openString = c.openString ∨ c' = ⟨[], false⟩ := by
  induction reached with
  | still => exact Or.inl rfl
  | @peek c' _ ih =>
    change c'.peek.2.openString = _ ∨ c'.peek.2 = _
    rcases c'.peek_cases with ⟨t, ts, _, peeked, _⟩ | ⟨_, peeked, _⟩ | ⟨_, peeked, _⟩
    · rw [peeked]
      exact ih
    · rw [peeked]
      exact Or.inr rfl
    · rw [peeked]
      exact Or.inr rfl
  | @advance c' _ ih =>
    change c'.advance.2.openString = _ ∨ c'.advance.2 = _
    rcases c'.peek_cases with ⟨t, ts, whole, _, taken⟩ | ⟨_, _, taken⟩ | ⟨_, _, taken⟩
    · rw [taken]
      refine ih.imp id fun ended => ?_
      rw [ended] at whole
      cases whole
    · rw [taken]
      exact Or.inr rfl
    · rw [taken]
      exact Or.inr rfl

theorem ended_of_reaches {c : Cursor} (reached : Reaches ⟨[], false⟩ c) : c = ⟨[], false⟩ := by
  induction reached with
  | still => rfl
  | peek _ ih =>
    rw [ih]
    rfl
  | advance _ ih =>
    rw [ih]
    rfl

section Peeked

variable {c c' : Cursor}

theorem of_peek_error {f : Fault} (peeked : TokenSource.peek c = (.error f, c')) :
    c = ⟨[], true⟩ ∧ f = openStringFault ∧ c' = ⟨[], false⟩ := by
  change c.peek = _ at peeked
  rcases c.peek_cases with ⟨_, _, _, h, _⟩ | ⟨whole, h, _⟩ | ⟨_, h, _⟩
  · cases h.symm.trans peeked
  · cases h.symm.trans peeked
    exact ⟨whole, rfl, rfl⟩
  · cases h.symm.trans peeked

theorem of_peek_end (peeked : TokenSource.peek c = (.ok none, c')) :
    c = ⟨[], false⟩ ∧ c' = ⟨[], false⟩ := by
  change c.peek = _ at peeked
  rcases c.peek_cases with ⟨_, _, _, h, _⟩ | ⟨_, h, _⟩ | ⟨whole, h, _⟩
  · cases h.symm.trans peeked
  · cases h.symm.trans peeked
  · cases h.symm.trans peeked
    exact ⟨whole, rfl⟩

theorem of_peek_token {t : Token} (peeked : TokenSource.peek c = (.ok (some t), c')) :
    c'.openString = c.openString ∧ (TokenSource.advance c').2.openString = c.openString := by
  change c.peek = _ at peeked
  change _ ∧ c'.advance.2.openString = _
  rcases c.peek_cases with ⟨_, _, _, h, taken⟩ | ⟨_, h, _⟩ | ⟨_, h, _⟩
  · cases h.symm.trans peeked
    exact ⟨rfl, by rw [taken]⟩
  · cases h.symm.trans peeked
  · cases h.symm.trans peeked

end Peeked

theorem ne_openString_of_blamed {f : Fault} (blamed : Fault.Blamed f) : f ≠ openStringFault := by
  rintro rfl
  cases blamed

theorem atEnd_ne_openString (state : Reader.State) : state.atEnd ≠ some openStringFault := by
  unfold Reader.State.atEnd
  split <;> simp [openStringFault, Fault.unreadable]

/-- A call that ends in no fault of the lexer, and has not met one. -/
theorem not_told {before after : Cursor} (same : after.openString = before.openString)
    {told : Prop} (other : ¬ told) :
    told ↔ before.openString = true ∧ after.openString = false := by
  refine ⟨fun h => absurd h other, ?_⟩
  rintro ⟨waits, gone⟩
  rw [same, waits] at gone
  cases gone

theorem parse_told (state : Reader.State) (c : Cursor) :
    (Reader.parse state c).1 = .error openStringFault ↔
      c.openString = true ∧ (Reader.parse state c).2.openString = false := by
  fun_induction Reader.parse state c with
  | case1 state c f c' peeked =>
    obtain ⟨rfl, rfl, rfl⟩ := of_peek_error peeked
    simp
  | case2 state c c' peeked f unfinished =>
    obtain ⟨rfl, rfl⟩ := of_peek_end peeked
    refine not_told rfl ?_
    rintro ⟨⟩
    exact atEnd_ne_openString state unfinished
  | case3 state c c' peeked finished =>
    obtain ⟨rfl, rfl⟩ := of_peek_end peeked
    exact not_told rfl (by rintro ⟨⟩)
  | case4 state c t c' peeked state' move ih =>
    rw [ih, (of_peek_token peeked).2]
  | case5 state c t c' peeked d move =>
    exact not_told (of_peek_token peeked).2 (by rintro ⟨⟩)
  | case6 state c t c' peeked f move =>
    refine not_told (of_peek_token peeked).2 ?_
    rintro ⟨⟩
    exact ne_openString_of_blamed (Reader.blamesToken_move state t _ (Or.inl move)) rfl
  | case7 state c t c' peeked f move =>
    refine not_told (of_peek_token peeked).1 ?_
    rintro ⟨⟩
    exact ne_openString_of_blamed (Reader.blamesToken_move state t _ (Or.inr move)) rfl

theorem parseAll_told (state : Reader.State) (c : Cursor) :
    (Reader.parseAll state c).1.fault = some openStringFault ↔
      c.openString = true ∧ (Reader.parseAll state c).2.openString = false := by
  fun_induction Reader.parseAll state c with
  | case1 state c f c' peeked =>
    obtain ⟨rfl, rfl, rfl⟩ := of_peek_error peeked
    simp
  | case2 state c c' peeked =>
    obtain ⟨rfl, rfl⟩ := of_peek_end peeked
    exact not_told rfl (atEnd_ne_openString state)
  | case3 state c t c' peeked state' move ih =>
    rw [ih, (of_peek_token peeked).2]
  | case4 state c t c' peeked d move r c'' others ih =>
    rw [others, (of_peek_token peeked).2] at ih
    exact ih
  | case5 state c t c' peeked f move =>
    refine not_told (of_peek_token peeked).2 ?_
    rintro ⟨⟩
    exact ne_openString_of_blamed (Reader.blamesToken_move state t _ (Or.inl move)) rfl
  | case6 state c t c' peeked f move =>
    refine not_told (of_peek_token peeked).1 ?_
    rintro ⟨⟩
    exact ne_openString_of_blamed (Reader.blamesToken_move state t _ (Or.inr move)) rfl

theorem fault?_token {r : Except Fault (Option Token)} {f : Fault} :
    (Reply.token r).fault? = some f ↔ r = .error f := by
  cases r <;> simp [Reply.fault?]

theorem fault?_form {r : Except Fault (Option Datum)} {f : Fault} :
    (Reply.form r).fault? = some f ↔ r = .error f := by
  cases r <;> simp [Reply.fault?]

theorem perform_told (c : Cursor) (call : Call) :
    (call.perform c).1.fault? = some openStringFault ↔
      c.openString = true ∧ (call.perform c).2.openString = false := by
  cases call with
  | peek =>
    change (Reply.token c.peek.1).fault? = _ ↔ _ ∧ c.peek.2.openString = _
    rw [fault?_token]
    rcases c.peek_cases with ⟨t, ts, _, peeked, _⟩ | ⟨whole, peeked, _⟩ | ⟨whole, peeked, _⟩
    · rw [peeked]
      exact not_told rfl (by rintro ⟨⟩)
    · rw [peeked, whole]
      simp
    · rw [peeked, whole]
      simp
  | advance =>
    change (Reply.token c.advance.1).fault? = _ ↔ _ ∧ c.advance.2.openString = _
    rw [fault?_token]
    rcases c.peek_cases with ⟨t, ts, _, _, taken⟩ | ⟨whole, _, taken⟩ | ⟨whole, _, taken⟩
    · rw [taken]
      exact not_told rfl (by rintro ⟨⟩)
    · rw [taken, whole]
      simp
    · rw [taken, whole]
      simp
  | forms => exact parseAll_told _ c
  | form | list | tail =>
    rw [Call.perform, fault?_form]
    exact parse_told _ c

theorem perform_atEnd (call : Call) :
    (call.perform (⟨[], true⟩ : Cursor)).1.fault? = some openStringFault := by
  have peeked : TokenSource.peek (⟨[], true⟩ : Cursor) =
      (.error openStringFault, (⟨[], false⟩ : Cursor)) := rfl
  cases call with
  | peek | advance => rfl
  | forms => rw [Call.perform, Reader.parseAll_of_error peeked]; rfl
  | form | list | tail => rw [Call.perform, Reader.parse_of_error peeked]; rfl

theorem tellsOnce (c : Cursor) (call : Call) :
    TellsOnce c call (call.perform c).1 (call.perform c).2 where
  told := c.perform_told call
  forgotten := forgotten_of_reaches (reaches_perform c call)
  atEnd := by
    rintro rfl
    exact perform_atEnd call
  ended := by
    rintro rfl
    refine ⟨ended_of_reaches (reaches_perform _ call), ?_⟩
    rintro (rfl | rfl) <;> rfl

end Cursor

/-- What was taken from a stream and what is left of it stay the same list. -/
theorem taken_append_left {r r' : Recorded TokenStream} (reached : Reaches r r') :
    r'.taken ++ r'.source.left.rest = r.taken ++ r.source.left.rest := by
  induction reached with
  | still => rfl
  | @peek r' _ ih =>
    have left : (TokenSource.peek r'.source).2.left = r'.source.left.peek.2 :=
      (congrArg Prod.snd (TokenStream.shows_left.peek r'.source)).symm
    change r'.taken ++ (TokenSource.peek r'.source).2.left.rest = _
    rw [left, Cursor.rest_peek, ih]
  | @advance r' _ ih =>
    have stepped : r'.source.left.advance = ((TokenSource.advance r'.source).1,
      (TokenSource.advance r'.source).2.left) := TokenStream.shows_left.advance r'.source
    have given := r'.source.left.given_advance
    rw [stepped] at given
    change r'.taken ++ Recorded.given (TokenSource.advance r'.source).1 ++
      (TokenSource.advance r'.source).2.left.rest = _
    rw [List.append_assoc, given, ih]

/-- A stream over a text or over tokens gives what a position in the list of its tokens gives,
whatever is asked for and in whatever order, also after faults. It comes to the same position. The
tokens that were taken, followed by those that are left, are all its tokens; a peek takes none. A
string that is left open is told by the first call that gets past the last token, and by no other
one; after it there is the end. -/
theorem performAll_stream (supply : Supply) (calls : List Call) :
    let stream := performAll (TokenStream.reading supply) calls
    let record := performAll (⟨TokenStream.reading supply, []⟩ : Recorded TokenStream) calls
    performAll supply.cursor calls = (stream.1, stream.2.left) ∧
    (record.1 = stream.1 ∧ record.2.source = stream.2 ∧
      record.2.taken ++ stream.2.left.rest = supply.cursor.rest ∧
      (Call.peek.perform record.2).2.taken = record.2.taken ∧
      (Call.peek.perform stream.2).2.left.rest = stream.2.left.rest) ∧
    ∀ call : Call, TellsOnce stream.2.left call (call.perform stream.2).1
      (call.perform stream.2).2.left := by
  intro stream record
  have shown : performAll supply.cursor calls = (stream.1, stream.2.left) :=
    TokenStream.shows_left.performAll (TokenStream.reading supply) calls
  have recorded : stream = (record.1, record.2.source) :=
    Recorded.shows_source.performAll (⟨TokenStream.reading supply, []⟩ : Recorded TokenStream) calls
  have source : record.2.source = stream.2 := (congrArg Prod.snd recorded).symm
  refine ⟨shown, ⟨(congrArg Prod.fst recorded).symm, source, ?_, rfl, ?_⟩, ?_⟩
  · rw [← source]
    exact taken_append_left (reaches_performAll _ calls)
  · have peeked := TokenStream.shows_left.perform stream.2 .peek
    rw [← (Prod.mk.inj peeked).2]
    exact Cursor.rest_peek stream.2.left
  · intro call
    have performed := TokenStream.shows_left.perform stream.2 call
    have once := stream.2.left.tellsOnce call
    rw [performed] at once
    exact once

end FexprLisp
