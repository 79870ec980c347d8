import FexprLisp.Proofs.Lexing
import FexprLisp.TokenStream

/-!
# The grammar of programs

    program = datum*
    datum   = ATOM | STRING | quote datum | '(' element* ')' | '(' element+ '.' tail ')'
    element = a datum other than the atom '.'
    tail    = ATOM other than '.' | STRING | a list, dotted or not

An atom or a string counts only when it stands for a datum. The reader accepts exactly the programs
of this grammar, every program has one derivation, and the forms read are the data that the
derivation denotes.
-/

namespace FexprLisp

/-- A derivation. Quote marks, parentheses and points are always the same token and not kept. -/
inductive Tree where
  | leaf (t : Token) (d : Datum)
  | quotation (inner : Tree)
  | list (elements : List Tree)
  | dotted (elements : List Tree) (tail : Tree)

namespace Tree

mutual
/-- The tokens that a tree derives. -/
def tokens : Tree → List Token
  | leaf t _ => [t]
  | quotation d => .mark :: tokens d
  | list es => .opening :: (tokensAll es ++ [.closing])
  | dotted es d => .opening :: (tokensAll es ++ .point :: (tokens d ++ [.closing]))

def tokensAll : List Tree → List Token
  | [] => []
  | e :: es => tokens e ++ tokensAll es
end

mutual
/-- The datum that a tree denotes. -/
def datum : Tree → Datum
  | leaf _ d => d
  | quotation d => .quoted (datum d)
  | list es => .ofList (data es)
  | dotted es d => .chain (data es) (datum d)

def data : List Tree → List Datum
  | [] => []
  | e :: es => datum e :: data es
end

/-- The first token of a tree. -/
def first : Tree → Token
  | leaf t _ => t
  | quotation _ => .mark
  | list _ => .opening
  | dotted _ _ => .opening

theorem tokensAll_eq_flatMap (es : List Tree) : tokensAll es = es.flatMap tokens := by
  induction es with
  | nil => rfl
  | cons e es ih => rw [tokensAll, ih, List.flatMap_cons]

theorem data_eq_map (es : List Tree) : data es = es.map datum := by
  induction es with
  | nil => rfl
  | cons e es ih => rw [data, ih, List.map_cons]

theorem tokens_list_append (es : List Tree) (rest : List Token) :
    (list es).tokens ++ rest = .opening :: (tokensAll es ++ .closing :: rest) := by
  simp [tokens]

theorem tokens_dotted_append (es : List Tree) (d : Tree) (rest : List Token) :
    (dotted es d).tokens ++ rest =
      .opening :: (tokensAll es ++ .point :: (d.tokens ++ .closing :: rest)) := by
  simp [tokens]

theorem tokens_eq_cons (d : Tree) : d.tokens = d.first :: d.tokens.tail := by
  cases d <;> simp [tokens, first]

end Tree

inductive Nonterminal where
  | datum | element | tail

/-- The rules of the grammar. Atoms and strings are tokens as a lexer makes them. -/
inductive Derives : Nonterminal → Tree → Prop
  | leaf {t : Token} {d : Datum} : t.Emitted → t.kind = .atom ∨ t.kind = .string →
      parseAtom t.text = .ok d → Derives .datum (.leaf t d)
  | quotation {d : Tree} : Derives .datum d → Derives .datum (.quotation d)
  | list {es : List Tree} : (∀ e ∈ es, Derives .element e) → Derives .datum (.list es)
  | dotted {es : List Tree} {d : Tree} : es ≠ [] → (∀ e ∈ es, Derives .element e) →
      Derives .tail d → Derives .datum (.dotted es d)
  | element {d : Tree} : Derives .datum d → (∀ v, d ≠ .leaf .point v) → Derives .element d
  | tailLeaf {t : Token} {d : Datum} : Derives .datum (.leaf t d) → t ≠ .point →
      Derives .tail (.leaf t d)
  | tailList {es : List Tree} : Derives .datum (.list es) → Derives .tail (.list es)
  | tailDotted {es : List Tree} {d : Tree} : Derives .datum (.dotted es d) →
      Derives .tail (.dotted es d)

/-- A sequence of data that derives a sequence of tokens. -/
structure Program (program : List Tree) (ts : List Token) : Prop where
  derives : ∀ d ∈ program, Derives .datum d
  tokens : program.flatMap Tree.tokens = ts

namespace Derives

theorem datum_of_element {d : Tree} (h : Derives .element d) : Derives .datum d := by
  cases h with
  | element h _ => exact h

theorem datum_of_tail {d : Tree} (h : Derives .tail d) : Derives .datum d := by
  cases h with
  | tailLeaf h _ => exact h
  | tailList h => exact h
  | tailDotted h => exact h

/-- No datum begins with a closing parenthesis. -/
theorem first_kind {d : Tree} (h : Derives .datum d) : d.first.kind ≠ .rparen := by
  cases h with
  | leaf _ kind _ =>
    intro h
    rw [Tree.first] at h
    rw [h] at kind
    simp at kind
  | quotation _ => simp [Tree.first, Token.mark]
  | list _ => simp [Tree.first, Token.opening]
  | dotted _ _ _ => simp [Tree.first, Token.opening]

/-- An element begins neither with a closing parenthesis nor with a point. -/
theorem first_of_element {d : Tree} (h : Derives .element d) :
    d.first.kind ≠ .rparen ∧ d.first ≠ .point := by
  refine ⟨h.datum_of_element.first_kind, ?_⟩
  cases h with
  | element _ other =>
    cases d with
    | leaf t v => exact fun h => other v (congrArg (Tree.leaf · v) h)
    | quotation _ => simp [Tree.first, Token.mark, Token.point]
    | list _ => simp [Tree.first, Token.opening, Token.point]
    | dotted _ _ => simp [Tree.first, Token.opening, Token.point]

/-- A tail begins with an opening parenthesis or is a token that is no point. -/
theorem first_of_tail {d : Tree} (h : Derives .tail d) :
    d.first.kind ≠ .quote ∧ d.first.text ≠ ['.'] := by
  cases h with
  | tailLeaf h other =>
    cases h with
    | leaf emitted kind _ =>
      cases emitted with
      | string _ => simp [Tree.first]
      | atom _ => simpa [Tree.first, Token.point] using other
      | lone => simp [Tree.first, Token.lone]
      | mark => simp [Token.mark] at kind
      | opening => simp [Token.opening] at kind
      | closing => simp [Token.closing] at kind
  | tailList _ => simp [Tree.first, Token.opening]
  | tailDotted _ => simp [Tree.first, Token.opening]

end Derives

namespace Reader

/-- How a reading goes on after a move. -/
def Move.proceed (lexFault : Option Fault) (ts : List Token) : Move → Reading
  | .next s => s.forms lexFault ts
  | .finish d => (idle.forms lexFault ts).push d
  | .spoil f => ⟨[], some f⟩
  | .refuse f => ⟨[], some f⟩

theorem forms_cons (s : State) (lexFault : Option Fault) (t : Token) (ts : List Token) :
    s.forms lexFault (t :: ts) = (s.move t).proceed lexFault ts := by
  rw [State.forms]
  cases s.move t <;> rfl

theorem forms_nil_of_atEnd {s : State} {f : Fault} (h : s.atEnd = some f)
    (lexFault : Option Fault) : (s.forms lexFault []).fault ≠ none := by
  rw [State.forms, h]
  cases lexFault <;> simp

theorem isPoint_iff (t : Token) : isPoint t = true ↔ t = .point := by
  obtain ⟨kind, text⟩ := t
  simp [isPoint, Token.point]

/-- The point of a list is read only behind an element, and starts the tail. -/
theorem move_point (reversed : List Datum) (stack : List Pending) (some : reversed ≠ []) :
    (State.waiting (.list reversed :: stack)).move .point =
      .next (.waiting (.tail reversed :: stack)) := by
  cases reversed with
  | nil => exact absurd rfl some
  | cons => rfl

theorem move_element {t : Token} (notClosing : t.kind ≠ .rparen) (notPoint : t ≠ .point)
    (reversed : List Datum) (stack : List Pending) :
    (State.waiting (.list reversed :: stack)).move t = begin (.list reversed :: stack) t := by
  rw [State.move, if_neg notClosing, if_neg (mt (isPoint_iff t).mp notPoint)]

theorem move_inner {t : Token} (notClosing : t.kind ≠ .rparen) (stack : List Pending) :
    (State.waiting (.quotation :: stack)).move t = begin (.quotation :: stack) t := by
  rw [State.move, if_neg notClosing]

theorem move_tail {t : Token} (notClosing : t.kind ≠ .rparen) (notQuote : t.kind ≠ .quote)
    (notPoint : t.text ≠ ['.']) (reversed : List Datum) (stack : List Pending) :
    (State.waiting (.tail reversed :: stack)).move t = begin (.tail reversed :: stack) t := by
  rw [State.move, if_neg]
  rintro (h | h | h)
  · exact notClosing h
  · exact notQuote h
  · exact notPoint h

/-- Elements are collected in reverse. -/
theorem forms_elements {es : List Tree} (elements : ∀ e ∈ es, Derives .element e)
    (each : ∀ e ∈ es, ∀ stack lexFault rest, (begin stack e.first).proceed lexFault
      (e.tokens.tail ++ rest) = (settle e.datum stack).proceed lexFault rest)
    (reversed : List Datum) (stack : List Pending) (lexFault : Option Fault) (rest : List Token) :
    (State.waiting (.list reversed :: stack)).forms lexFault (Tree.tokensAll es ++ rest) =
      (State.waiting (.list ((Tree.data es).reverse ++ reversed) :: stack)).forms
        lexFault rest := by
  induction es generalizing reversed with
  | nil => rfl
  | cons e es ih =>
    obtain ⟨notClosing, notPoint⟩ := (elements e List.mem_cons_self).first_of_element
    rw [Tree.tokensAll, e.tokens_eq_cons, List.cons_append, List.cons_append, forms_cons,
      move_element notClosing notPoint, List.append_assoc, each e List.mem_cons_self]
    have rest := ih (fun e he => elements e (List.mem_cons_of_mem _ he))
      (fun e he => each e (List.mem_cons_of_mem _ he)) (e.datum :: reversed)
    simpa [settle, Move.proceed, Tree.data] using rest

/-- Reading the tokens of a datum hands its denotation to the form around it. -/
theorem proceed_begin {n : Nonterminal} {d : Tree} (derives : Derives n d) :
    ∀ stack lexFault rest, (begin stack d.first).proceed lexFault (d.tokens.tail ++ rest) =
      (settle d.datum stack).proceed lexFault rest := by
  induction derives with
  | @leaf t v _ kind parsed =>
    intro stack lexFault rest
    rcases kind with kind | kind <;>
      simp [Tree.first, Tree.tokens, Tree.datum, begin, kind, parsed]
  | @quotation d h ih =>
    intro stack lexFault rest
    have inner := ih (.quotation :: stack) lexFault rest
    rw [← move_inner h.first_kind, ← forms_cons, ← List.cons_append, ← d.tokens_eq_cons] at inner
    exact inner
  | @list es elements ih =>
    intro stack lexFault rest
    have read := forms_elements elements ih [] stack lexFault (.closing :: rest)
    rw [List.append_nil, forms_cons] at read
    simpa [Tree.first, Tree.tokens, Tree.datum, begin, Token.opening, Token.closing, Move.proceed,
      State.move] using read
  | @dotted es d some elements h ihs ih =>
    intro stack lexFault rest
    have read := forms_elements elements ihs [] stack lexFault
      (.point :: (d.tokens ++ .closing :: rest))
    have nonempty : (Tree.data es).reverse ≠ [] := by
      cases es with
      | nil => exact absurd rfl some
      | cons e es => simp [Tree.data]
    have tail := ih (.tail (Tree.data es).reverse :: stack) lexFault (.closing :: rest)
    have first := h.first_of_tail
    rw [← move_tail h.datum_of_tail.first_kind first.1 first.2, ← forms_cons, ← List.cons_append,
      ← d.tokens_eq_cons] at tail
    rw [List.append_nil, forms_cons, move_point _ _ nonempty, Move.proceed, tail] at read
    simpa [Tree.first, Tree.tokens, Tree.datum, begin, Token.opening, Token.closing, settle,
      Move.proceed, State.move, forms_cons] using read
  | element _ _ ih => exact ih
  | tailLeaf _ _ ih => exact ih
  | tailList _ ih => exact ih
  | tailDotted _ ih => exact ih

/-- A reading that ends without a fault while a form is begun has not run out of tokens. -/
theorem tokens_of_begun {s : State} (begun : s.atEnd ≠ none) {lexFault : Option Fault}
    {ts : List Token} (good : (s.forms lexFault ts).fault = none) :
    ∃ t rest, ts = t :: rest ∧ ((s.move t).proceed lexFault rest).fault = none := by
  cases ts with
  | nil =>
    obtain ⟨f, hf⟩ := Option.ne_none_iff_exists'.mp begun
    exact absurd good (forms_nil_of_atEnd hf lexFault)
  | cons t rest => exact ⟨t, rest, rfl, by rw [← forms_cons]; exact good⟩

/-- What a good reading finds where a datum has to begin, for fewer than `n` more tokens. -/
def FindsDatum (n : Nat) : Prop :=
  ∀ stack lexFault t ts, ts.length < n → (∀ u ∈ t :: ts, u.Emitted) →
    ((begin stack t).proceed lexFault ts).fault = none →
    ∃ d rest, t :: ts = d.tokens ++ rest ∧ Derives .datum d

/-- What follows the elements of a list: the parenthesis, or a point, a tail and the parenthesis. -/
inductive Ending (begun : Prop) : List Token → Prop
  | closed (rest : List Token) : Ending begun (.closing :: rest)
  | dotted {d : Tree} (rest : List Token) : begun → Derives .tail d →
      Ending begun (.point :: (d.tokens ++ .closing :: rest))

theorem closing_of_kind {t : Token} (emitted : t.Emitted) (kind : t.kind = .rparen) :
    t = .closing := by
  cases emitted <;> first | rfl | cases kind

/-- A good reading after a point finds a tail and the closing parenthesis. -/
theorem tail_found {n : Nat} (finds : FindsDatum n) {reversed : List Datum} {stack : List Pending}
    {lexFault : Option Fault} {ts : List Token} (short : ts.length ≤ n)
    (emitted : ∀ u ∈ ts, u.Emitted)
    (good : ((State.waiting (.tail reversed :: stack)).forms lexFault ts).fault = none) :
    ∃ d rest, ts = d.tokens ++ .closing :: rest ∧ Derives .tail d := by
  obtain ⟨t, ts, rfl, moved⟩ := tokens_of_begun (by simp [State.atEnd]) good
  have allowed : ¬ (t.kind = .rparen ∨ t.kind = .quote ∨ t.text = ['.']) := by
    intro h
    simp [State.move, h, invalid, Move.proceed] at moved
  have notClosing : t.kind ≠ .rparen := fun h => allowed (Or.inl h)
  have notQuote : t.kind ≠ .quote := fun h => allowed (Or.inr (Or.inl h))
  have notPoint : t.text ≠ ['.'] := fun h => allowed (Or.inr (Or.inr h))
  rw [move_tail notClosing notQuote notPoint] at moved
  obtain ⟨d, rest, split, derives⟩ := finds _ lexFault t ts short emitted moved
  have first : t = d.first := by
    rw [d.tokens_eq_cons] at split
    exact (List.cons.inj split).1
  have tail : Derives .tail d := by
    cases derives with
    | leaf he hk hp =>
      exact .tailLeaf (.leaf he hk hp) fun h => notPoint (by rw [first, Tree.first, h]; rfl)
    | quotation _ => exact absurd (by rw [first]; rfl) notQuote
    | list h => exact .tailList (.list h)
    | dotted some h ht => exact .tailDotted (.dotted some h ht)
  -- The tail being read, the reading stands before the parenthesis.
  have after := proceed_begin derives (.tail reversed :: stack) lexFault rest
  rw [d.tokens_eq_cons, List.cons_append] at split
  obtain ⟨ht, hts⟩ := List.cons.inj split
  rw [ht, hts, after, settle, Move.proceed] at moved
  obtain ⟨t', rest', rfl, closed⟩ := tokens_of_begun (by simp [State.atEnd]) moved
  have closes : t'.kind = .rparen := by
    refine Decidable.byContradiction fun h => ?_
    simp [State.move, h, invalid, Move.proceed] at closed
  have last : t' = .closing := by
    apply closing_of_kind _ closes
    apply emitted
    rw [hts]
    simp
  exact ⟨d, rest', by rw [ht, hts, last, ← List.cons_append, ← d.tokens_eq_cons], tail⟩

/-- A good reading inside a list finds elements and an ending. -/
theorem elements_found {n : Nat} (finds : FindsDatum n) {reversed : List Datum}
    {stack : List Pending} {lexFault : Option Fault} {ts : List Token} (short : ts.length ≤ n)
    (emitted : ∀ u ∈ ts, u.Emitted)
    (good : ((State.waiting (.list reversed :: stack)).forms lexFault ts).fault = none) :
    ∃ es rest, (∀ e ∈ es, Derives .element e) ∧ ts = Tree.tokensAll es ++ rest ∧
      Ending (reversed ≠ [] ∨ es ≠ []) rest := by
  induction hlen : ts.length using Nat.strongRecOn generalizing ts reversed with
  | ind len ih =>
    obtain ⟨t, ts, rfl, moved⟩ := tokens_of_begun (by simp [State.atEnd]) good
    by_cases closes : t.kind = .rparen
    · rw [closing_of_kind (emitted t List.mem_cons_self) closes]
      exact ⟨[], _, by simp, rfl, .closed ts⟩
    by_cases isPoint : t = .point
    · subst isPoint
      have some : reversed ≠ [] := by
        rintro rfl
        simp [State.move, Token.point, Reader.isPoint, invalid, Move.proceed] at moved
      rw [move_point _ _ some, Move.proceed] at moved
      obtain ⟨d, rest, split, tail⟩ := tail_found finds (by simp at short; omega)
        (fun u hu => emitted u (List.mem_cons_of_mem _ hu)) moved
      rw [split]
      exact ⟨[], _, by simp, rfl, .dotted rest (Or.inl some) tail⟩
    · rw [move_element closes isPoint] at moved
      obtain ⟨d, rest, split, derives⟩ := finds _ lexFault t ts short emitted moved
      have after := proceed_begin derives (.list reversed :: stack) lexFault rest
      have count := congrArg List.length split
      have members : ∀ u ∈ rest, u.Emitted := by
        intro u hu
        apply emitted
        rw [split]
        exact List.mem_append_right _ hu
      rw [d.tokens_eq_cons, List.cons_append] at split
      obtain ⟨ht, hts⟩ := List.cons.inj split
      rw [d.tokens_eq_cons] at count
      simp only [List.length_cons, List.cons_append, List.length_append] at count hlen short
      rw [ht, hts, after, settle, Move.proceed] at moved
      obtain ⟨es, rest', elements, hrest, ending⟩ :=
        ih rest.length (by omega) (by omega) members moved rfl
      have element : Derives .element d := by
        refine .element derives fun v h => isPoint ?_
        rw [ht, h]
        rfl
      refine ⟨d :: es, rest', ?_, ?_, ?_⟩
      · intro e he
        rcases List.mem_cons.mp he with rfl | he
        · exact element
        · exact elements e he
      · rw [Tree.tokensAll, List.append_assoc, ← hrest, ht, hts, ← List.cons_append,
          ← d.tokens_eq_cons]
      · cases ending with
        | closed rest => exact .closed rest
        | dotted rest _ tail => exact .dotted rest (Or.inr (by simp)) tail

/-- A good reading finds a datum wherever one has to begin. -/
theorem findsDatum (n : Nat) : FindsDatum n := by
  induction n with
  | zero => intro _ _ _ _ h; omega
  | succ n ih =>
    intro stack lexFault t ts short emitted good
    have rest : ∀ u ∈ ts, u.Emitted := fun u hu => emitted u (List.mem_cons_of_mem _ hu)
    have leaf : t.kind = .atom ∨ t.kind = .string → ∃ d rest, t :: ts = d.tokens ++ rest ∧
        Derives .datum d := by
      intro kind
      cases parsed : parseAtom t.text with
      | ok v => exact ⟨.leaf t v, ts, rfl, .leaf (emitted t List.mem_cons_self) kind parsed⟩
      | error f => rcases kind with kind | kind <;> simp [begin, kind, parsed, Move.proceed] at good
    cases emitted t List.mem_cons_self with
    | string _ => exact leaf (Or.inr rfl)
    | atom _ => exact leaf (Or.inl rfl)
    | lone => exact leaf (Or.inl rfl)
    | closing => simp [begin, Token.closing, invalid, Move.proceed] at good
    | mark =>
      obtain ⟨t', ts', rfl, moved⟩ := tokens_of_begun (by simp [State.atEnd]) good
      have notClosing : t'.kind ≠ .rparen := by
        intro h
        simp [State.move, h, Move.proceed] at moved
      rw [move_inner notClosing] at moved
      obtain ⟨d, rest', split, derives⟩ := ih _ _ t' ts' (by simpa using short) rest moved
      exact ⟨.quotation d, rest', by rw [split]; rfl, .quotation derives⟩
    | opening =>
      obtain ⟨es, rest', elements, split, ending⟩ := elements_found ih (by omega) rest good
      cases ending with
      | closed rest' =>
        exact ⟨.list es, rest', by simp [Tree.tokens, split], .list elements⟩
      | @dotted d rest' some tail =>
        exact ⟨.dotted es d, rest', by simp [Tree.tokens, split],
          .dotted (by simpa using some) elements tail⟩

/-- The forms of a program are what its derivation denotes. -/
theorem forms_program {program : List Tree} {ts : List Token} (derived : Program program ts)
    (lexFault : Option Fault) :
    idle.forms lexFault ts = ⟨program.map Tree.datum, lexFault⟩ := by
  induction program generalizing ts with
  | nil =>
    rw [← derived.tokens]
    cases lexFault <;> rfl
  | cons d program ih =>
    have rest := ih ⟨fun d hd => derived.derives d (List.mem_cons_of_mem _ hd), rfl⟩
    have read := proceed_begin (derived.derives d List.mem_cons_self) [] lexFault
      (program.flatMap Tree.tokens)
    rw [← derived.tokens, List.flatMap_cons, d.tokens_eq_cons, List.cons_append, forms_cons]
    refine read.trans ?_
    rw [settle, Move.proceed, rest]
    rfl

/-- Tokens that are read to their end without a fault make up a program. -/
theorem program_of_forms {lexFault : Option Fault} {ts : List Token}
    (emitted : ∀ u ∈ ts, u.Emitted) (good : (idle.forms lexFault ts).fault = none) :
    ∃ program, Program program ts := by
  induction hlen : ts.length using Nat.strongRecOn generalizing ts with
  | ind len ih =>
    cases ts with
    | nil => exact ⟨[], by simp, rfl⟩
    | cons t ts =>
      rw [forms_cons] at good
      obtain ⟨d, rest, split, derives⟩ :=
        findsDatum (ts.length + 1) [] lexFault t ts (Nat.lt_succ_self _) emitted good
      have read := proceed_begin derives [] lexFault rest
      have count := congrArg List.length split
      have members : ∀ u ∈ rest, u.Emitted := by
        intro u hu
        apply emitted
        rw [split]
        exact List.mem_append_right _ hu
      rw [d.tokens_eq_cons] at count
      simp only [List.length_cons, List.cons_append, List.length_append] at count hlen
      have whole := split
      rw [d.tokens_eq_cons, List.cons_append] at split
      obtain ⟨ht, hts⟩ := List.cons.inj split
      have after : (idle.forms lexFault rest).fault = none := by
        have same : (idle.move t).proceed lexFault ts =
            (settle d.datum []).proceed lexFault rest := by
          rw [ht, hts]
          exact read
        rw [same] at good
        exact good
      obtain ⟨program, derived⟩ := ih rest.length (by omega) members after rfl
      refine ⟨d :: program, ?_, ?_⟩
      · intro e he
        rcases List.mem_cons.mp he with rfl | he
        · exact derives
        · exact derived.derives e he
      · rw [List.flatMap_cons, derived.tokens, whole]

theorem parseAll_of_token {σ : Type} [TokenSource σ] {source source' : σ} {t : Token}
    (peeked : TokenSource.peek source = (.ok (some t), source')) (s : State) :
    parseAll s source = match s.move t with
      | .next s' => parseAll s' (TokenSource.advance source').2
      | .finish d =>
        let (r, rest) := parseAll idle (TokenSource.advance source').2
        (r.push d, rest)
      | .spoil f => (⟨[], some f⟩, (TokenSource.advance source').2)
      | .refuse f => (⟨[], some f⟩, source') := by
  rw [parseAll]
  split
  · simp_all
  · simp_all
  next t' s' h =>
    rw [peeked] at h
    cases h
    rfl

/-- A stream over tokens made beforehand is read like the tokens. -/
theorem parseAll_ofTokens (s : State) (ts : List Token) :
    (parseAll s (TokenStream.ofTokens ts)).1 = s.forms none ts := by
  induction ts generalizing s with
  | nil =>
    rw [parseAll]
    simp [TokenSource.peek, TokenStream.ofTokens, TokenStream.peek, Supply.next, State.forms]
  | cons t ts ih =>
    have peeked : TokenSource.peek (TokenStream.ofTokens (t :: ts)) =
        (.ok (some t), (⟨.tokens ts, [t]⟩ : TokenStream)) := rfl
    have advanced : (TokenSource.advance (⟨.tokens ts, [t]⟩ : TokenStream)).2 =
        TokenStream.ofTokens ts := rfl
    rw [parseAll_of_token peeked, forms_cons, advanced]
    cases s.move t with
    | next s' => exact ih s'
    | finish d => exact congrArg (Reading.push d) (ih idle)
    | spoil f => rfl
    | refuse f => rfl

end Reader

namespace Derives

theorem elements_unique {es : List Tree} (elements : ∀ e ∈ es, Derives .element e)
    (each : ∀ e ∈ es, ∀ d rest rest', Derives .datum d → e.tokens ++ rest = d.tokens ++ rest' →
      e = d ∧ rest = rest')
    {es' : List Tree} (elements' : ∀ e ∈ es', Derives .element e) {t t' : Token}
    (ends : t.kind = .rparen ∨ t = .point) (ends' : t'.kind = .rparen ∨ t' = .point)
    {rest rest' : List Token}
    (same : Tree.tokensAll es ++ t :: rest = Tree.tokensAll es' ++ t' :: rest') :
    es = es' ∧ t = t' ∧ rest = rest' := by
  -- An element begins with neither of the two tokens that can end the elements.
  have apart : ∀ {e : Tree} {t : Token} {us vs ws : List Token}, Derives .element e →
      t.kind = .rparen ∨ t = .point → t :: us ≠ (e.tokens ++ vs) ++ ws := by
    intro e t us vs ws h ends same
    rw [e.tokens_eq_cons] at same
    have ht : t = e.first := (List.cons.inj same).1
    obtain ⟨notClosing, notPoint⟩ := h.first_of_element
    rw [← ht] at notClosing notPoint
    exact ends.elim notClosing notPoint
  induction es generalizing es' with
  | nil =>
    cases es' with
    | nil => exact ⟨rfl, List.cons.inj same⟩
    | cons e' es' => exact absurd same (apart (elements' e' List.mem_cons_self) ends)
  | cons e es ih =>
    cases es' with
    | nil => exact absurd same.symm (apart (elements e List.mem_cons_self) ends')
    | cons e' es' =>
      rw [Tree.tokensAll, Tree.tokensAll, List.append_assoc, List.append_assoc] at same
      obtain ⟨rfl, rest⟩ := each e List.mem_cons_self e' _ _
        (elements' e' List.mem_cons_self).datum_of_element same
      obtain ⟨rfl, tokens⟩ := ih (fun e he => elements e (List.mem_cons_of_mem _ he))
        (fun e he => each e (List.mem_cons_of_mem _ he))
        (fun e he => elements' e (List.mem_cons_of_mem _ he)) rest
      exact ⟨rfl, tokens⟩

/-- Where a datum begins, no other datum begins. -/
theorem unique {n : Nonterminal} {d : Tree} (h : Derives n d) :
    ∀ d' rest rest', Derives .datum d' → d.tokens ++ rest = d'.tokens ++ rest' →
      d = d' ∧ rest = rest' := by
  induction h with
  | @leaf t v _ kind parsed =>
    intro d' rest rest' h' same
    have notOpening : t ≠ .opening := by rintro rfl; simp [Token.opening] at kind
    have notMark : t ≠ .mark := by rintro rfl; simp [Token.mark] at kind
    cases h' with
    | @leaf t' v' _ _ parsed' =>
      obtain ⟨rfl, hrest⟩ := List.cons.inj same
      obtain rfl := Except.ok.inj (parsed.symm.trans parsed')
      exact ⟨rfl, hrest⟩
    | quotation _ => exact absurd (List.cons.inj same).1 notMark
    | list _ => exact absurd (List.cons.inj same).1 notOpening
    | dotted _ _ _ => exact absurd (List.cons.inj same).1 notOpening
  | @quotation d _ ih =>
    intro d' rest rest' h' same
    cases h' with
    | leaf _ kind _ =>
      rw [← (List.cons.inj same).1] at kind
      simp [Token.mark] at kind
    | @quotation d' h' =>
      obtain ⟨rfl, hrest⟩ := ih d' rest rest' h' (List.cons.inj same).2
      exact ⟨rfl, hrest⟩
    | list _ => exact absurd (List.cons.inj same).1 (by decide)
    | dotted _ _ _ => exact absurd (List.cons.inj same).1 (by decide)
  | @list es elements ih =>
    intro d' rest rest' h' same
    rw [Tree.tokens_list_append] at same
    cases h' with
    | leaf _ kind _ =>
      rw [← (List.cons.inj same).1] at kind
      simp [Token.opening] at kind
    | quotation _ => exact absurd (List.cons.inj same).1 (by decide)
    | list elements' =>
      rw [Tree.tokens_list_append] at same
      obtain ⟨rfl, _, hrest⟩ := elements_unique elements ih elements' (Or.inl rfl) (Or.inl rfl)
        (List.cons.inj same).2
      exact ⟨rfl, hrest⟩
    | dotted _ elements' _ =>
      rw [Tree.tokens_dotted_append] at same
      obtain ⟨_, ht, _⟩ := elements_unique elements ih elements' (Or.inl rfl) (Or.inr rfl)
        (List.cons.inj same).2
      exact absurd ht (by decide)
  | @dotted es d some elements tail ihs ih =>
    intro d' rest rest' h' same
    rw [Tree.tokens_dotted_append] at same
    cases h' with
    | leaf _ kind _ =>
      rw [← (List.cons.inj same).1] at kind
      simp [Token.opening] at kind
    | quotation _ => exact absurd (List.cons.inj same).1 (by decide)
    | list elements' =>
      rw [Tree.tokens_list_append] at same
      obtain ⟨_, ht, _⟩ := elements_unique elements ihs elements' (Or.inr rfl) (Or.inl rfl)
        (List.cons.inj same).2
      exact absurd ht (by decide)
    | dotted _ elements' tail' =>
      rw [Tree.tokens_dotted_append] at same
      obtain ⟨rfl, _, after⟩ := elements_unique elements ihs elements' (Or.inr rfl) (Or.inr rfl)
        (List.cons.inj same).2
      obtain ⟨rfl, hrest⟩ := ih _ _ _ tail'.datum_of_tail after
      exact ⟨rfl, (List.cons.inj hrest).2⟩
  | element _ _ ih => exact ih
  | tailLeaf _ _ ih => exact ih
  | tailList _ ih => exact ih
  | tailDotted _ ih => exact ih

end Derives

/-- A sequence of tokens has one derivation at most. -/
theorem Program.unique {p q : List Tree} {ts : List Token} (hp : Program p ts)
    (hq : Program q ts) : p = q := by
  induction p generalizing q ts with
  | nil =>
    cases q with
    | nil => rfl
    | cons d q =>
      have empty := hq.tokens.trans hp.tokens.symm
      rw [List.flatMap_cons, d.tokens_eq_cons] at empty
      cases empty
  | cons d p ih =>
    cases q with
    | nil =>
      have empty := hp.tokens.trans hq.tokens.symm
      rw [List.flatMap_cons, d.tokens_eq_cons] at empty
      cases empty
    | cons d' q =>
      have same := hp.tokens.trans hq.tokens.symm
      rw [List.flatMap_cons, List.flatMap_cons] at same
      obtain ⟨rfl, rest⟩ := (hp.derives d List.mem_cons_self).unique d' _ _
        (hq.derives d' List.mem_cons_self) same
      have tail := ih ⟨fun e he => hp.derives e (List.mem_cons_of_mem _ he), rest⟩
        ⟨fun e he => hq.derives e (List.mem_cons_of_mem _ he), rfl⟩
      rw [tail]

/-- The tokens of a text are accepted exactly if the grammar derives them. The derivation is then
the only one, and the forms are the data it denotes. -/
theorem parseAll_accepts_grammar (s : Text) :
    let ts := (lex s).tokens
    let reading := (Reader.parseAll Reader.idle (TokenStream.ofTokens ts)).1
    (reading.fault = none ↔ ∃ program, Program program ts) ∧
      ∀ program, Program program ts →
        reading = ⟨program.map Tree.datum, none⟩ ∧ ∀ other, Program other ts → other = program := by
  intro ts reading
  have same : reading = Reader.idle.forms none ts := Reader.parseAll_ofTokens Reader.idle ts
  rw [same]
  refine ⟨⟨?_, ?_⟩, ?_⟩
  · exact Reader.program_of_forms fun u hu => emitted_of_mem_lex hu
  · rintro ⟨program, derived⟩
    rw [Reader.forms_program derived none]
  · intro program derived
    exact ⟨Reader.forms_program derived none, fun other h => h.unique derived⟩

end FexprLisp
