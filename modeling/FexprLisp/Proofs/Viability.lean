import FexprLisp.Proofs.Atoms
import FexprLisp.Proofs.Joining
import Mathlib.Data.List.Induction

/-!
# Where reading fails

Tokens are viable if more tokens can make a program of them. A reading that runs out of viable
tokens lacks what its state lacks, and any other reading fails at the first token that leaves
nothing viable. The fault then names that token, and neither it nor the forms read before depend on
what comes later, as long as the token itself stays what it is: an atom goes on to the next blank or
parenthesis.
-/

namespace FexprLisp

namespace Token

/-- What stands behind a token does not become part of it. A backslash that ends the text would take
whatever comes. -/
def ClosedBy (t : Token) (w : Text) : Prop :=
  t.kind = .atom → EndsAtom w ∧ (t = lone → w = [])

/-- The gap at the beginning of a text, and where it ends. -/
theorem skipGap_split {s r : Text} {c : Char} (h : skipGap s = c :: r) :
    ∃ gap, s = gap ++ c :: r ∧ ∀ w, skipGap (gap ++ c :: w) = c :: w := by
  induction s using skipGap.induct (motive_1 := fun s => skipGap.skipComment s = c :: r →
    ∃ gap, s = gap ++ c :: r ∧ ∀ w, skipGap.skipComment (gap ++ c :: w) = c :: w) with
  | case1 h => cases h
  | case2 s ih h =>
    obtain ⟨gap, rfl, ends⟩ := ih h
    exact ⟨'\n' :: gap, rfl, ends⟩
  | case3 c' s inside ih h =>
    rw [skipGap.skipComment, if_neg inside] at h
    obtain ⟨gap, rfl, ends⟩ := ih h
    refine ⟨c' :: gap, rfl, fun w => ?_⟩
    rw [List.cons_append, skipGap.skipComment, if_neg inside, ends]
  | case4 => cases h
  | case5 c' s blank ih =>
    rw [skipGap_blank s blank] at h
    obtain ⟨gap, rfl, ends⟩ := ih h
    refine ⟨c' :: gap, rfl, fun w => ?_⟩
    rw [List.cons_append, skipGap_blank _ blank, ends]
  | case6 s _ ih =>
    obtain ⟨gap, rfl, ends⟩ := ih h
    exact ⟨';' :: gap, rfl, ends⟩
  | case7 c' s notBlank notComment =>
    have plain := Bool.eq_false_iff.mpr notBlank
    rw [skipGap_self s plain notComment] at h
    obtain ⟨rfl, rfl⟩ := List.cons.inj h
    exact ⟨[], rfl, fun w => skipGap_self w plain notComment⟩

/-- An atom run ends before a separator, or before a backslash that ends the text. -/
theorem atomRun_snd (r : Text) : EndsAtom (atomRun r).2 ∨ (atomRun r).2 = ['\\'] := by
  fun_induction atomRun r with
  | case1 c r s rest hr ih =>
    rw [hr] at ih
    exact ih
  | case2 c r notEscape stop =>
    rcases stop with blank | opening | closing | rfl
    · exact Or.inl (Or.inl blank)
    · exact Or.inl (Or.inr (Or.inl opening))
    · exact Or.inl (Or.inr (Or.inr closing))
    · cases r with
      | nil => exact Or.inr rfl
      | cons c' r' => exact absurd rfl (fun h => notEscape c' r' rfl h)
  | case3 c r _ _ s rest hr ih =>
    rw [hr] at ih
    exact ih
  | case4 => exact Or.inl trivial

/-- The characters of a token are those that were taken, and an atom is not cut short. -/
theorem first?_text {c : Char} {r rest : Text} {t : Token} (h : first? c r = some (t, rest))
    (notBlank : isBlank c = false) :
    c :: r = t.text ++ rest ∧ (t.kind = .atom → EndsAtom rest ∨ rest = ['\\']) := by
  rw [first?] at h
  split at h
  next string =>
    obtain ⟨⟨s, rest'⟩, hs, he⟩ := Option.map_eq_some_iff.mp h
    cases he
    exact ⟨by rw [string, ← stringBody?_append hs]; rfl, by rintro ⟨⟩⟩
  split at h
  next quote =>
    cases h
    exact ⟨by rw [quote]; rfl, by rintro ⟨⟩⟩
  split at h
  next opening =>
    cases h
    exact ⟨by rw [opening]; rfl, by rintro ⟨⟩⟩
  split at h
  next closing =>
    cases h
    exact ⟨by rw [closing]; rfl, by rintro ⟨⟩⟩
  next notOpening notClosing =>
  have whole := atomRun_append (c :: r)
  have ends := atomRun_snd (c :: r)
  split at h
  next rest' run =>
    cases h
    have notStop : ¬ Stops c := by simp [Stops, notBlank, notOpening, notClosing]
    obtain ⟨rfl, rfl⟩ := eq_backslash_of_atomRun_nil run notStop
    exact ⟨rfl, fun _ => Or.inl trivial⟩
  next s rest' _ run =>
    cases h
    rw [run] at whole ends
    exact ⟨whole.symm, fun _ => ends⟩

/-- A token that is closed off is the first token of its text and what follows. -/
theorem Emitted.first? {t : Token} (emitted : t.Emitted) {w : Text} (closed : t.ClosedBy w) :
    ∃ c r, t.text = c :: r ∧ (isBlank c = false ∧ c ≠ ';') ∧
      Token.first? c (r ++ w) = some (t, w) := by
  cases emitted with
  | @string body whole =>
    refine ⟨'"', body, rfl, by decide, ?_⟩
    rw [Token.first?, if_pos rfl, stringBody?_append_right whole w]
    rfl
  | mark => exact ⟨'\'', [], rfl, by decide, rfl⟩
  | opening => exact ⟨'(', [], rfl, by decide, rfl⟩
  | closing => exact ⟨')', [], rfl, by decide, rfl⟩
  | @atom text atom =>
    cases text with
    | nil => exact absurd rfl atom.nonempty
    | cons c r =>
      have run := atomRun_append_of_run atom.run (closed rfl).1
      obtain ⟨notComment, notString, notQuote⟩ := atom.notSpecial c r rfl
      have notParen : c ≠ '(' ∧ c ≠ ')' := by
        constructor <;> rintro rfl <;> cases atom.run
      exact ⟨c, r, rfl, ⟨atom.notBlank c r rfl, notComment⟩,
        first?_atom run atom.nonempty ⟨notString, notQuote⟩ notParen⟩
  | lone =>
    obtain rfl := (closed rfl).2 rfl
    exact ⟨'\\', [], rfl, by decide, by decide⟩

theorem closedBy_nil (t : Token) : t.ClosedBy [] := fun _ => ⟨trivial, fun _ => rfl⟩

theorem Emitted.text_ne_nil {t : Token} (emitted : t.Emitted) : t.text ≠ [] := by
  obtain ⟨c, r, text, _⟩ := emitted.first? (closedBy_nil t)
  rw [text]
  exact List.cons_ne_nil c r

/-- The text of a first token, the gap before it included, and what may stand behind it instead. -/
theorem step_split {s rest : Text} {t : Token} (h : step s = .token t rest) :
    ∃ u, s = u ++ rest ∧ t.text <:+ u ∧ (t.kind = .atom → EndsAtom rest ∨ rest = ['\\']) ∧
      ∀ w, t.ClosedBy w → step (u ++ w) = .token t w := by
  obtain ⟨c, r, gap, first⟩ := step_eq_token h
  obtain ⟨before, rfl, ends⟩ := skipGap_split gap
  obtain ⟨text, notCut⟩ := first?_text first (skipGap_head gap).1
  refine ⟨before ++ t.text, by rw [List.append_assoc, ← text], List.suffix_append _ _, notCut, ?_⟩
  intro w closed
  obtain ⟨c', r', text', _, first'⟩ := (step_emitted h).1.first? closed
  rw [text'] at text ⊢
  obtain ⟨rfl, _⟩ := List.cons.inj text
  rw [List.append_assoc, List.cons_append, step, ends]
  simp only [first']

end Token

open Token

/-- A token that is followed by a second one stays what it is, whatever stands behind the second. -/
theorem step_followed {u v w x : Text} {first t : Token} {p rest : List Token}
    (taken : step (u ++ (v ++ w)) = .token first (v ++ w))
    (notCut : first.kind = .atom → EndsAtom (v ++ w) ∨ v ++ w = ['\\'])
    (instead : ∀ w, first.ClosedBy w → step (u ++ w) = .token first w)
    (second : (lex (v ++ w)).tokens = p ++ t :: rest) (inside : t.text <:+ v)
    (closed : t.ClosedBy x) : step (u ++ (v ++ x)) = .token first (v ++ x) := by
  have emitted : t.Emitted := emitted_of_mem_lex (by rw [second]; simp)
  have nonempty : v ≠ [] := by
    rintro rfl
    exact emitted.text_ne_nil (List.suffix_nil.mp inside)
  by_cases atom : first.kind = .atom
  · rcases notCut atom with ends | last
    · refine instead _ fun _ => ⟨?_, ?_⟩
      · cases v with
        | nil => exact absurd rfl nonempty
        | cons c v => exact ends
      · rintro rfl
        have ended := (step_emitted taken).2 rfl
        exact absurd (List.append_eq_nil_iff.mp ended).1 nonempty
    · -- The second token is a backslash that ends the text, so nothing may stand behind it.
      obtain ⟨rfl, rfl⟩ : v = ['\\'] ∧ w = [] := by
        cases v with
        | nil => exact absurd rfl nonempty
        | cons c v => simpa [and_assoc] using last
      have alone : p = [] ∧ t = lone := by
        rw [List.append_nil, lex_lone] at second
        cases p with
        | nil => exact ⟨rfl, (List.cons.inj second).1.symm⟩
        | cons _ p => simp at second
      obtain rfl := (closed (by rw [alone.2]; rfl)).2 alone.2
      exact taken
  · exact instead _ fun h => absurd h atom

/-- The text up to and with one of its tokens, and what may stand behind that token instead. -/
theorem lex_split {s : Text} {p rest : List Token} {t : Token}
    (h : (lex s).tokens = p ++ t :: rest) :
    ∃ u v, s = u ++ v ∧ t.text <:+ u ∧
      ∀ w, t.ClosedBy w → lex (u ++ w) = (lex w).prepend (p ++ [t]) := by
  induction s using lex.induct generalizing p with
  | case1 s done =>
    rw [lex_of_done done] at h
    simp at h
  | case2 s opened =>
    rw [lex_of_openString opened] at h
    simp at h
  | case3 s first after taken ih =>
    obtain ⟨u, rfl, inside, notCut, instead⟩ := step_split taken
    rw [lex_of_step taken] at h
    cases p with
    | nil =>
      obtain ⟨rfl, _⟩ := List.cons.inj h
      exact ⟨u, after, rfl, inside, fun w closed => lex_of_step (instead w closed)⟩
    | cons first' p =>
      obtain ⟨rfl, tokens⟩ := List.cons.inj h
      obtain ⟨u', v, rfl, inside', instead'⟩ := ih tokens
      refine ⟨u ++ u', v, (List.append_assoc u u' v).symm, inside'.trans (List.suffix_append u u'),
        ?_⟩
      intro w closed
      have taken' := step_followed taken notCut instead tokens inside' closed
      rw [List.append_assoc, lex_of_step taken', instead' w closed, Lexed.prepend_prepend]
      rfl

namespace Reader

/-- What tokens make of a state: the forms that they finish, and the state that they lead to or the
fault that they are met with. -/
def State.run (s : State) : List Token → List Datum × Except Fault State
  | [] => ([], .ok s)
  | t :: ts =>
    match s.move t with
    | .next s' => s'.run ts
    | .finish d => let (ds, r) := idle.run ts; (d :: ds, r)
    | .spoil f => ([], .error f)
    | .refuse f => ([], .error f)

theorem run_append (s : State) (ts us : List Token) :
    s.run (ts ++ us) = match s.run ts with
      | (ds, .ok s') => (ds ++ (s'.run us).1, (s'.run us).2)
      | (ds, .error f) => (ds, .error f) := by
  induction ts generalizing s with
  | nil => rfl
  | cons t ts ih =>
    rw [List.cons_append, State.run, State.run]
    cases s.move t with
    | next s' => exact ih s'
    | finish d =>
      simp only [ih idle]
      rcases idle.run ts with ⟨ds, f | s'⟩ <;> rfl
    | spoil f => rfl
    | refuse f => rfl

/-- A reading is a run, and then the end of the tokens. -/
theorem forms_eq_run (s : State) (lexFault : Option Fault) (ts : List Token) :
    s.forms lexFault ts = match s.run ts with
      | (ds, .ok s') => ⟨ds, lexFault <|> s'.atEnd⟩
      | (ds, .error f) => ⟨ds, some f⟩ := by
  induction ts generalizing s with
  | nil => rfl
  | cons t ts ih =>
    rw [State.forms, State.run]
    cases s.move t with
    | next s' => exact ih s'
    | finish d =>
      simp only [ih idle]
      rcases idle.run ts with ⟨ds, f | s'⟩ <;> rfl
    | spoil f => rfl
    | refuse f => rfl

/-- The tokens are read to their end without a fault. -/
def Accepts (ts : List Token) : Prop :=
  (parseAll idle (TokenStream.ofTokens ts)).1.fault = none

/-- Tokens that some further tokens complete. -/
def Viable (ts : List Token) : Prop :=
  ∃ us, (∀ u ∈ us, u.Emitted) ∧ Accepts (ts ++ us)

theorem accepts_iff (ts : List Token) :
    Accepts ts ↔ ∃ ds s, idle.run ts = (ds, .ok s) ∧ s.atEnd = none := by
  rw [Accepts, parseAll_ofTokens, forms_eq_run]
  rcases idle.run ts with ⟨ds, f | s⟩
  · simp
  · simp

/-- A character as a token. -/
def letter : Token := ⟨.atom, ['\\', 'a']⟩

theorem emitted_letter : letter.Emitted := .atom (atomText_char 'a')

theorem begin_letter (stack : List Pending) : begin stack letter = settle (.char 'a') stack := by
  have parsed : parseAtom letter.text = .ok (.char 'a') := parseAtom_char 'a'
  rw [begin, parsed]
  rfl

/-- What a stack needs once a form is handed to it: a parenthesis for each list in it. -/
theorem settle_completes (stack : List Pending) :
    ∃ us, (∀ u ∈ us, u.Emitted) ∧ ∀ d, ((settle d stack).proceed none us).fault = none := by
  induction stack with
  | nil => exact ⟨[], by simp, fun _ => rfl⟩
  | cons p stack ih =>
    obtain ⟨us, emitted, completes⟩ := ih
    have closing : ∀ u ∈ Token.closing :: us, u.Emitted :=
      List.forall_mem_cons.mpr ⟨.closing, emitted⟩
    cases p with
    | quotation => exact ⟨us, emitted, fun d => completes (.quoted d)⟩
    | list reversed =>
      refine ⟨_, closing, fun d => ?_⟩
      rw [settle, Move.proceed, forms_cons]
      exact completes (.ofList (d :: reversed).reverse)
    | tail reversed =>
      refine ⟨_, closing, fun d => ?_⟩
      rw [settle, Move.proceed, forms_cons]
      exact completes (.chain reversed.reverse d)

/-- Every state can be completed. -/
theorem state_completes (s : State) :
    ∃ us, (∀ u ∈ us, u.Emitted) ∧ (s.forms none us).fault = none := by
  cases s with
  | waiting stack =>
    cases stack with
    | nil => exact ⟨[], by simp, rfl⟩
    | cons p stack =>
      cases p with
      | quotation =>
        obtain ⟨us, emitted, completes⟩ := settle_completes (.quotation :: stack)
        refine ⟨letter :: us, List.forall_mem_cons.mpr ⟨emitted_letter, emitted⟩, ?_⟩
        rw [forms_cons, move_inner (by decide), begin_letter]
        exact completes _
      | list reversed =>
        obtain ⟨us, emitted, completes⟩ := settle_completes stack
        refine ⟨.closing :: us, List.forall_mem_cons.mpr ⟨.closing, emitted⟩, ?_⟩
        rw [forms_cons]
        exact completes _
      | tail reversed =>
        obtain ⟨us, emitted, completes⟩ := settle_completes (.tail reversed :: stack)
        refine ⟨letter :: us, List.forall_mem_cons.mpr ⟨emitted_letter, emitted⟩, ?_⟩
        rw [forms_cons, move_tail (by decide) (by decide) (by decide), begin_letter]
        exact completes _
  | closing reversed d stack =>
    obtain ⟨us, emitted, completes⟩ := settle_completes stack
    refine ⟨.closing :: us, List.forall_mem_cons.mpr ⟨.closing, emitted⟩, ?_⟩
    rw [forms_cons]
    exact completes _

/-- Tokens are viable exactly if they lead to a state. -/
theorem viable_iff (ts : List Token) : Viable ts ↔ ∃ ds s, idle.run ts = (ds, .ok s) := by
  constructor
  · rintro ⟨us, _, accepted⟩
    obtain ⟨ds, s, ran, _⟩ := (accepts_iff _).mp accepted
    rw [run_append] at ran
    generalize idle.run ts = o at ran ⊢
    obtain ⟨ds', f | s'⟩ := o
    · cases ran
    · exact ⟨ds', s', rfl⟩
  · rintro ⟨ds, s, ran⟩
    obtain ⟨us, emitted, completes⟩ := state_completes s
    refine ⟨us, emitted, (accepts_iff _).mpr ?_⟩
    rw [forms_eq_run] at completes
    rw [run_append, ran]
    dsimp only
    generalize s.run us = o at completes ⊢
    obtain ⟨ds', f | s'⟩ := o
    · cases completes
    · exact ⟨_, s', rfl, completes⟩

/-- A quotation is begun and its datum is still to come. -/
def State.AwaitsQuoted (s : State) : Prop := ∃ stack, s = .waiting (.quotation :: stack)

theorem settle_eq_next {d : Datum} {stack : List Pending} {s : State}
    (h : settle d stack = .next s) : ¬ s.AwaitsQuoted := by
  induction stack generalizing d with
  | nil => cases h
  | cons p stack ih =>
    cases p with
    | quotation => exact ih h
    | list reversed =>
      cases h
      rintro ⟨_, ⟨⟩⟩
    | tail reversed =>
      cases h
      rintro ⟨_, ⟨⟩⟩

theorem begin_leaf_eq_next {stack : List Pending} {t : Token} {s : State}
    (leaf : t.kind = .atom ∨ t.kind = .string) (h : begin stack t = .next s) :
    ¬ s.AwaitsQuoted := by
  cases parsed : parseAtom t.text with
  | ok d =>
    have settled : settle d stack = .next s := by
      rcases leaf with kind | kind <;> simpa [begin, kind, parsed] using h
    exact settle_eq_next settled
  | error f => rcases leaf with kind | kind <;> simp [begin, kind, parsed] at h

theorem quote_of_begin {stack : List Pending} {t : Token} {s : State}
    (h : begin stack t = .next s) (awaits : s.AwaitsQuoted) : t.kind = .quote := by
  obtain ⟨kind, text⟩ := t
  cases kind with
  | quote => rfl
  | lparen =>
    cases h
    obtain ⟨_, ⟨⟩⟩ := awaits
  | rparen => cases h
  | atom => exact absurd awaits (begin_leaf_eq_next (Or.inl rfl) h)
  | string => exact absurd awaits (begin_leaf_eq_next (Or.inr rfl) h)

/-- Only a quote leads to a state that awaits a datum. -/
theorem quote_of_move {s s' : State} {t : Token} (h : s.move t = .next s')
    (awaits : s'.AwaitsQuoted) : t.kind = .quote := by
  unfold State.move at h
  split at h
  · split at h
    · exact absurd awaits (settle_eq_next h)
    · cases h
  · exact quote_of_begin h awaits
  · split at h
    · cases h
    · exact quote_of_begin h awaits
  · split at h
    · exact absurd awaits (settle_eq_next h)
    split at h
    · split at h
      · cases h
      · cases h
        obtain ⟨_, ⟨⟩⟩ := awaits
    · exact quote_of_begin h awaits
  · split at h
    · cases h
    · exact quote_of_begin h awaits

/-- A quote is refused or begins a quotation. -/
theorem move_mark (s : State) :
    (∃ s', s.move .mark = .next s' ∧ s'.AwaitsQuoted) ∨ ∃ f, s.move .mark = .refuse f := by
  cases s with
  | waiting stack =>
    cases stack with
    | nil => exact Or.inl ⟨_, rfl, _, rfl⟩
    | cons p stack =>
      cases p with
      | quotation => exact Or.inl ⟨_, rfl, _, rfl⟩
      | list reversed => exact Or.inl ⟨_, rfl, _, rfl⟩
      | tail reversed => exact Or.inr ⟨_, rfl⟩
  | closing reversed d stack => exact Or.inr ⟨_, rfl⟩

theorem mark_of_kind {t : Token} (emitted : t.Emitted) (kind : t.kind = .quote) : t = .mark := by
  cases emitted <;> first | rfl | cases kind

/-- Right behind a quote, and nowhere else, the datum of a quotation is awaited. -/
theorem awaitsQuoted_iff {p : List Token} (emitted : ∀ u ∈ p, u.Emitted) {ds : List Datum}
    {s : State} (ran : idle.run p = (ds, .ok s)) :
    s.AwaitsQuoted ↔ p.getLast? = some .mark := by
  rcases List.eq_nil_or_concat p with rfl | ⟨q, t, rfl⟩
  · cases ran
    exact ⟨by rintro ⟨_, ⟨⟩⟩, by rintro ⟨⟩⟩
  · rw [List.concat_eq_append] at emitted ran ⊢
    have last : (q ++ [t]).getLast? = some t := by simp
    have known : t.Emitted := emitted t (by simp)
    rw [last, Option.some.injEq]
    rw [run_append] at ran
    generalize idle.run q = o at ran
    obtain ⟨ds', f | s'⟩ := o
    · cases ran
    · have ended : (s'.run [t]).2 = .ok s := (Prod.mk.inj ran).2
      rw [State.run] at ended
      constructor
      · intro awaits
        cases move : s'.move t with
        | next s'' =>
          rw [move] at ended
          cases ended
          exact mark_of_kind known (quote_of_move move awaits)
        | finish d =>
          rw [move] at ended
          cases ended
          obtain ⟨_, ⟨⟩⟩ := awaits
        | spoil f => rw [move] at ended; cases ended
        | refuse f => rw [move] at ended; cases ended
      · rintro rfl
        rcases move_mark s' with ⟨s'', move, awaits⟩ | ⟨f, move⟩
        · rw [move] at ended
          cases ended
          exact awaits
        · rw [move] at ended
          cases ended

/-- What is wrong with a token that leaves nothing viable: a parenthesis right behind a quote, a
string that stands for nothing, or a token where it cannot stand. -/
inductive Refusal (p : List Token) (t : Token) : Fault → Prop
  | emptyQuote : p.getLast? = some .mark → t = .closing → Refusal p t (.unreadable .emptyQuote)
  | unparsable : t.kind = .string → parseAtom t.text = .error (.unreadable (.unparsableAtom t.text)) →
      Refusal p t (.unreadable (.unparsableAtom t.text))
  | invalid : ¬ (p.getLast? = some .mark ∧ t = .closing) →
      Refusal p t (.unreadable (.invalidToken t.text))

/-- The same for a move of a single state. -/
def State.Refuses (s : State) (t : Token) (f : Fault) : Prop :=
  (s.AwaitsQuoted ∧ t = .closing ∧ f = .unreadable .emptyQuote) ∨
    (t.kind = .string ∧ parseAtom t.text = .error f ∧ f = .unreadable (.unparsableAtom t.text)) ∨
      (¬ (s.AwaitsQuoted ∧ t = .closing) ∧ f = .unreadable (.invalidToken t.text))

/-- Only strings can stand for nothing. -/
theorem string_of_parseAtom_error {t : Token} (emitted : t.Emitted)
    (kind : t.kind = .atom ∨ t.kind = .string) {f : Fault} (h : parseAtom t.text = .error f) :
    t.kind = .string ∧ f = .unreadable (.unparsableAtom t.text) := by
  rcases kind with kind | kind
  · obtain ⟨d, parsed, _⟩ := parseAtom_emitted emitted kind
    rw [parsed] at h
    cases h
  · refine ⟨kind, ?_⟩
    cases emitted with
    | string whole =>
      rw [parseAtom_string whole] at h
      split at h
      · cases h
      · cases h
        rfl
    | atom _ => cases kind
    | lone => cases kind
    | mark => cases kind
    | opening => cases kind
    | closing => cases kind

theorem settle_ne_fault {d : Datum} {stack : List Pending} {f : Fault} :
    ¬ (settle d stack = .spoil f ∨ settle d stack = .refuse f) := by
  induction stack generalizing d with
  | nil => rintro (⟨⟨⟩⟩ | ⟨⟨⟩⟩)
  | cons p stack ih =>
    cases p with
    | quotation => exact ih
    | list reversed => rintro (⟨⟨⟩⟩ | ⟨⟨⟩⟩)
    | tail reversed => rintro (⟨⟨⟩⟩ | ⟨⟨⟩⟩)

theorem begin_refuses {stack : List Pending} {t : Token} (emitted : t.Emitted) {f : Fault}
    (h : begin stack t = .spoil f ∨ begin stack t = .refuse f) :
    (t.kind = .string ∧ parseAtom t.text = .error f ∧ f = .unreadable (.unparsableAtom t.text)) ∨
      f = .unreadable (.invalidToken t.text) := by
  unfold begin at h
  split at h
  · rcases h with ⟨⟨⟩⟩ | ⟨⟨⟩⟩
  · rcases h with ⟨⟨⟩⟩ | ⟨⟨⟩⟩
  · rcases h with ⟨⟨⟩⟩ | h
    cases h
    exact Or.inr rfl
  all_goals
    next kind =>
      split at h
      · exact absurd h settle_ne_fault
      next f' failed =>
        rcases h with h | ⟨⟨⟩⟩
        cases h
        obtain ⟨string, named⟩ := string_of_parseAtom_error emitted (by simp [kind]) failed
        exact Or.inl ⟨string, failed, named⟩

theorem move_refuses {s : State} {t : Token} (emitted : t.Emitted) {f : Fault}
    (h : s.move t = .spoil f ∨ s.move t = .refuse f) : s.Refuses t f := by
  have invalid (other : ¬ (s.AwaitsQuoted ∧ t = .closing)) {f : Fault}
      (h : invalid t = .spoil f ∨ invalid t = .refuse f) : s.Refuses t f := by
    rcases h with ⟨⟨⟩⟩ | h
    cases h
    exact Or.inr (Or.inr ⟨other, rfl⟩)
  have datum (other : ¬ (s.AwaitsQuoted ∧ t = .closing)) {stack : List Pending}
      (h : begin stack t = .spoil f ∨ begin stack t = .refuse f) : s.Refuses t f := by
    rcases begin_refuses emitted h with string | named
    · exact Or.inr (Or.inl string)
    · exact Or.inr (Or.inr ⟨other, named⟩)
  unfold State.move at h
  split at h
  · split at h
    · exact absurd h settle_ne_fault
    · exact invalid (by rintro ⟨⟨_, ⟨⟩⟩, _⟩) h
  · exact datum (by rintro ⟨⟨_, ⟨⟩⟩, _⟩) h
  · split at h
    next stack closing =>
      rcases h with ⟨⟨⟩⟩ | h
      cases h
      exact Or.inl ⟨⟨stack, rfl⟩, closing_of_kind emitted closing, rfl⟩
    next open? =>
      exact datum (by rintro ⟨_, rfl⟩; exact open? rfl) h
  · split at h
    · exact absurd h settle_ne_fault
    · split at h
      · split at h
        · exact invalid (by rintro ⟨⟨_, ⟨⟩⟩, _⟩) h
        · rcases h with ⟨⟨⟩⟩ | ⟨⟨⟩⟩
      · exact datum (by rintro ⟨⟨_, ⟨⟩⟩, _⟩) h
  · split at h
    · exact invalid (by rintro ⟨⟨_, ⟨⟩⟩, _⟩) h
    · exact datum (by rintro ⟨⟨_, ⟨⟩⟩, _⟩) h

/-- The shortest beginning of some tokens that is not viable, with its last token apart. -/
structure Breaks (ts p : List Token) (t : Token) : Prop where
  within : p ++ [t] <+: ts
  viable : Viable p
  broken : ¬ Viable (p ++ [t])

theorem run_of_viable {ts : List Token} (viable : Viable ts) :
    ∃ ds s, idle.run ts = (ds, .ok s) := (viable_iff ts).mp viable

/-- Tokens that are not viable break somewhere. -/
theorem exists_breaks {ts : List Token} (broken : ¬ Viable ts) : ∃ p t, Breaks ts p t := by
  induction ts using List.reverseRecOn with
  | nil => exact absurd ((viable_iff []).mpr ⟨[], idle, rfl⟩) broken
  | append_singleton ts t ih =>
    by_cases viable : Viable ts
    · exact ⟨ts, t, List.prefix_refl _, viable, broken⟩
    · obtain ⟨p, u, breaks⟩ := ih viable
      exact ⟨p, u, breaks.within.trans (List.prefix_append ts [t]), breaks.viable, breaks.broken⟩

/-- Where tokens break, the reading ends, with what was read before and a fault that names the
token. -/
theorem Breaks.forms {ts p : List Token} {t : Token} (breaks : Breaks ts p t)
    (emitted : ∀ u ∈ ts, u.Emitted) :
    ∃ f, Refusal p t f ∧ ∀ lexFault us,
      idle.forms lexFault (p ++ t :: us) = ⟨(idle.forms none p).forms, some f⟩ := by
  obtain ⟨ds, s, ran⟩ := run_of_viable breaks.viable
  have known : ∀ u ∈ p ++ [t], u.Emitted := fun u hu => emitted u (breaks.within.subset hu)
  have awaits := awaitsQuoted_iff (fun u hu => known u (List.mem_append_left _ hu)) ran
  have before : (idle.forms none p).forms = ds := by rw [forms_eq_run, ran]
  have refused : ∃ f, s.move t = .spoil f ∨ s.move t = .refuse f := by
    cases move : s.move t with
    | spoil f => exact ⟨f, Or.inl rfl⟩
    | refuse f => exact ⟨f, Or.inr rfl⟩
    | next s' =>
      refine absurd ((viable_iff _).mpr ⟨ds ++ [], s', ?_⟩) breaks.broken
      simp [run_append, ran, State.run, move]
    | finish d =>
      refine absurd ((viable_iff _).mpr ⟨ds ++ [d], idle, ?_⟩) breaks.broken
      simp [run_append, ran, State.run, move]
  obtain ⟨f, refused⟩ := refused
  refine ⟨f, ?_, ?_⟩
  · rcases move_refuses (known t (by simp)) refused with
      ⟨quoted, rfl, rfl⟩ | ⟨string, failed, rfl⟩ | ⟨other, rfl⟩
    · exact .emptyQuote (awaits.mp quoted) rfl
    · exact .unparsable string failed
    · exact .invalid (by rwa [← awaits])
  · intro lexFault us
    have after : s.run (t :: us) = ([], .error f) := by
      rw [State.run]
      rcases refused with move | move <;> rw [move]
    rw [forms_eq_run, run_append, ran]
    simp only [after, List.append_nil, before]

/-- A stream that lexes on demand is read like the tokens and the end that the lexer comes to. -/
theorem parseAll_ofText (state : State) (s : Text) :
    (parseAll state (TokenStream.ofText s)).1 = state.forms (lex s).fault? (lex s).tokens := by
  induction s using lex.induct generalizing state with
  | case1 s done =>
    have peeked : TokenSource.peek (TokenStream.ofText s) =
        (.ok none, (⟨.tokens [], []⟩ : TokenStream)) := by
      simp [TokenSource.peek, TokenStream.ofText, TokenStream.peek, Supply.next, done]
    rw [parseAll, lex_of_done done]
    split <;> simp_all [State.forms, Lexed.fault?]
  | case2 s opened =>
    have peeked : TokenSource.peek (TokenStream.ofText s) =
        (.error openStringFault, (⟨.tokens [], []⟩ : TokenStream)) := by
      simp [TokenSource.peek, TokenStream.ofText, TokenStream.peek, Supply.next, opened]
    rw [parseAll, lex_of_openString opened]
    split <;> simp_all [State.forms, Lexed.fault?]
  | case3 s t rest taken ih =>
    have peeked : TokenSource.peek (TokenStream.ofText s) =
        (.ok (some t), (⟨.text rest, [t]⟩ : TokenStream)) := by
      simp [TokenSource.peek, TokenStream.ofText, TokenStream.peek, Supply.next, taken]
    have advanced : (TokenSource.advance (⟨.text rest, [t]⟩ : TokenStream)).2 =
        TokenStream.ofText rest := rfl
    rw [parseAll_of_token peeked, lex_of_step taken, advanced]
    change _ = state.forms (lex rest).fault? (t :: (lex rest).tokens)
    rw [forms_cons]
    cases state.move t with
    | next s' => exact ih s'
    | finish d => exact congrArg (Reading.push d) (ih idle)
    | spoil f => rfl
    | refuse f => rfl

end Reader

open Reader

theorem read_of_fault {s : Text} {forms : List Datum} {f : Fault}
    (h : readForms s = ⟨forms, some f⟩) : read s = .error f := by
  rw [read, h]

/-- The tokens of a text that is read without the lexer's fault run out in a state that lacks
something. -/
theorem read_of_unfinished {s : Text} (closed : (lex s).openString = false)
    (viable : Viable (lex s).tokens) (unfinished : ¬ Accepts (lex s).tokens) :
    read s = .error (.unreadable
      (if (lex s).tokens.getLast? = some .mark then .emptyQuote else .unmatchedToken ['('])) := by
  obtain ⟨ds, state, ran⟩ := run_of_viable viable
  have awaits := awaitsQuoted_iff (fun _ hu => emitted_of_mem_lex hu) ran
  have lacking : state.atEnd ≠ none := fun finished =>
    unfinished ((accepts_iff _).mpr ⟨ds, state, ran, finished⟩)
  have reading : readForms s = ⟨ds, state.atEnd⟩ := by
    rw [readForms, forms_eq_run, ran, Lexed.fault?, closed]
    rfl
  have fault : state.atEnd = some (.unreadable
      (if (lex s).tokens.getLast? = some .mark then .emptyQuote else .unmatchedToken ['('])) := by
    unfold State.atEnd at lacking ⊢
    split
    · exact absurd rfl lacking
    next stack => rw [if_pos (awaits.mp ⟨stack, rfl⟩)]
    next other =>
      rw [if_neg]
      intro last
      obtain ⟨stack, rfl⟩ := awaits.mpr last
      exact other stack rfl
  exact read_of_fault (by rw [reading, fault])

/-- An open string is the fault of a text exactly if the tokens before it are viable. -/
theorem read_of_openString {s : Text} (opened : (lex s).openString = true) :
    read s = .error openStringFault ↔ Viable (lex s).tokens := by
  constructor
  · intro failed
    by_contra broken
    obtain ⟨p, t, breaks⟩ := exists_breaks broken
    obtain ⟨us, tokens⟩ := breaks.within
    obtain ⟨f, refusal, ends⟩ := breaks.forms fun _ hu => emitted_of_mem_lex hu
    have reading := ends (lex s).fault? us
    rw [List.append_assoc] at tokens
    rw [show p ++ t :: us = (lex s).tokens from tokens] at reading
    rw [read_of_fault reading] at failed
    cases refusal <;> cases failed
  · intro viable
    obtain ⟨ds, state, ran⟩ := run_of_viable viable
    have reading : readForms s = ⟨ds, some openStringFault⟩ := by
      rw [readForms, forms_eq_run, ran, Lexed.fault?, opened]
      rfl
    exact read_of_fault reading

/-- What is read of a text with a break, now and with more text behind it. -/
theorem readForms_of_breaks {s : Text} {p : List Token} {t : Token}
    (breaks : Breaks (lex s).tokens p t) :
    ∃ f, Refusal p t f ∧ readForms s = ⟨(idle.forms none p).forms, some f⟩ ∧
      ∃ u v, s = u ++ v ∧ t.text <:+ u ∧ lex u = ⟨p ++ [t], false⟩ ∧
        ∀ b, t.ClosedBy (v ++ b) → readForms (s ++ b) = readForms s := by
  obtain ⟨us, tokens⟩ := breaks.within
  obtain ⟨f, refusal, ends⟩ := breaks.forms fun _ hu => emitted_of_mem_lex hu
  rw [List.append_assoc, List.singleton_append] at tokens
  have reading : readForms s = ⟨(idle.forms none p).forms, some f⟩ := by
    rw [readForms, ← tokens]
    exact ends _ us
  obtain ⟨u, v, rfl, inside, instead⟩ := lex_split tokens.symm
  have alone := instead [] (closedBy_nil t)
  rw [List.append_nil, lex_nil, Lexed.prepend, List.append_nil] at alone
  refine ⟨f, refusal, reading, u, v, rfl, inside, alone, ?_⟩
  intro b closed
  have longer := instead (v ++ b) closed
  rw [reading, List.append_assoc, readForms, longer, Lexed.prepend, List.append_assoc]
  exact ends _ _

/-- Reading takes tokens on demand. If a text lexes to its end and its tokens are viable and no
program, then the fault is an empty quote behind a quote and an open list otherwise. If a string is
left open, that is the fault exactly if the tokens before it are viable. Tokens that are not viable
break at a token that the fault names; that fault and the forms before it are the same with any text
behind that token, if the token is no atom, or if it is closed off by a blank, a parenthesis or the
end of the text. -/
theorem read_faults (s : Text) :
    let ts := (lex s).tokens
    (parseAll idle (TokenStream.ofText s)).1 = readForms s ∧
    ((lex s).openString = false → Viable ts → ¬ Accepts ts →
      read s = .error (.unreadable
        (if ts.getLast? = some .mark then .emptyQuote else .unmatchedToken ['(']))) ∧
    ((lex s).openString = true → (read s = .error openStringFault ↔ Viable ts)) ∧
    (¬ Viable ts → ∃ p t, Breaks ts p t) ∧
    ∀ p t, Breaks ts p t → ∃ f, Refusal p t f ∧ read s = .error f ∧
      readForms s = ⟨(idle.forms none p).forms, some f⟩ ∧
      ∃ u v, s = u ++ v ∧ t.text <:+ u ∧ lex u = ⟨p ++ [t], false⟩ ∧
        ∀ b, t.ClosedBy (v ++ b) → read (s ++ b) = .error f ∧ readForms (s ++ b) = readForms s := by
  refine ⟨parseAll_ofText idle s, read_of_unfinished, read_of_openString, exists_breaks, ?_⟩
  intro p t breaks
  obtain ⟨f, refusal, reading, u, v, split, inside, alone, instead⟩ := readForms_of_breaks breaks
  refine ⟨f, refusal, read_of_fault reading, reading, u, v, split, inside, alone, ?_⟩
  intro b closed
  have longer := instead b closed
  exact ⟨read_of_fault (longer.trans reading), longer⟩

theorem lex_pointed : lex ['(', '.'] = ⟨[.opening, .point], false⟩ := by
  cbv

theorem breaks_pointed : Breaks [.opening, .point] [.opening] .point where
  within := List.prefix_refl _
  viable := (viable_iff _).mpr ⟨[], _, rfl⟩
  broken := by
    rw [List.singleton_append, viable_iff]
    rintro ⟨ds, s, ran⟩
    cases ran

theorem not_accepts_mark : ¬ Accepts [.mark] := by
  rw [accepts_iff]
  rintro ⟨ds, state, ran, finished⟩
  cases ran
  cases finished

/-- A lone quote, a string left open in a list, and a list that begins with a point, with a
parenthesis and an open string behind it. -/
theorem read_faults_sample :
    ((lex ['\'']).openString = false ∧ Viable (lex ['\'']).tokens ∧ ¬ Accepts (lex ['\'']).tokens ∧
      read ['\''] = .error (.unreadable .emptyQuote)) ∧
    ((lex ['(', '"']).openString = true ∧ Viable (lex ['(', '"']).tokens ∧
      read ['(', '"'] = .error openStringFault) ∧
    (Breaks (lex ['(', '.']).tokens [.opening] .point ∧ ∃ f, Refusal [.opening] .point f ∧
      read ['(', '.'] = .error f ∧ read (['(', '.'] ++ [')', '"']) = .error f) := by
  have lexedMark : lex ['\''] = ⟨[.mark], false⟩ := by cbv
  have lexedOpen : lex ['(', '"'] = ⟨[.opening], true⟩ := by cbv
  have viableMark : Viable [.mark] := (viable_iff _).mpr ⟨[], _, rfl⟩
  have viableOpen : Viable [.opening] := (viable_iff _).mpr ⟨[], _, rfl⟩
  obtain ⟨_, unfinished, _⟩ := read_faults ['\'']
  obtain ⟨_, _, opened, _⟩ := read_faults ['(', '"']
  obtain ⟨_, _, _, _, broken⟩ := read_faults ['(', '.']
  rw [lexedMark] at unfinished ⊢
  rw [lexedOpen] at opened ⊢
  rw [lex_pointed] at broken ⊢
  refine ⟨⟨rfl, viableMark, not_accepts_mark, unfinished rfl viableMark not_accepts_mark⟩,
    ⟨rfl, viableOpen, (opened rfl).mpr viableOpen⟩, breaks_pointed, ?_⟩
  obtain ⟨f, refusal, failed, _, u, v, split, inside, _, instead⟩ := broken _ _ breaks_pointed
  have nothing : v = [] := by
    obtain ⟨w, rfl⟩ := inside
    rcases w with _ | ⟨a, _ | ⟨b, w⟩⟩ <;> simp_all [Token.point]
  subst nothing
  have closed : Token.point.ClosedBy ([] ++ [')', '"']) :=
    fun _ => ⟨Or.inr (Or.inr rfl), by rintro ⟨⟩⟩
  exact ⟨f, refusal, failed, (instead _ closed).1⟩

/-- An atom that leaves nothing viable goes on with what follows it, and may be good then. -/
theorem refused_atom_goes_on :
    ¬ Viable (lex ['(', '.']).tokens ∧
      read ['(', '.'] = .error (.unreadable (.invalidToken ['.'])) ∧
      ∃ v, read (['(', '.'] ++ ['5', ')']) = .ok [.ofList [.number v]] := by
  refine ⟨?_, ?_, ?_⟩
  · rw [lex_pointed]
    exact breaks_pointed.broken
  · rw [read, readForms, lex_pointed]
    rfl
  · have lexed : lex (['(', '.'] ++ ['5', ')']) =
        ⟨[.opening, ⟨.atom, ['.', '5']⟩, .closing], false⟩ := by cbv
    refine ⟨(Numeral.decimal false 5 (-1)).toSingle, ?_⟩
    rw [read, readForms, lexed]
    rfl

end FexprLisp
