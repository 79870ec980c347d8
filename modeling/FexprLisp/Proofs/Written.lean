import FexprLisp.Proofs.Atoms
import FexprLisp.Proofs.Grammar

/-!
# Data that can be written and read

`Writable` are the data whose printed form reads as themselves whatever follows. They hold no
function, no symbol that would be split or read otherwise, no bare point inside a list and no
quotation at the end of a chain. The backslash that ends a text is the one symbol that can be
written only at the very end, under quotes at most: `Final`.

The printed form of such a datum lexes to the tokens of a derivation that denotes the datum.
-/

namespace FexprLisp

namespace Datum

/-- The numbers among the parts of a datum. -/
def numbers : Datum → List Single
  | number v => [v]
  | quoted d => numbers d
  | pair h t => numbers h ++ numbers t
  | _ => []

/-- The symbol that is a point inside a list. -/
def point : Datum := symbol ['.']

/-- The symbol of the backslash that ends a text. -/
def lone : Datum := symbol ['\\']

inductive Writable : Datum → Prop
  | nil : Writable nil
  | number {v : Single} : ReadsBack v → Writable (number v)
  | char (c : Char) : Writable (char c)
  | symbol {name : Text} : Token.AtomText name → parseAtom name = .ok (symbol name) →
      Writable (symbol name)
  | quoted {d : Datum} : Writable d → Writable (quoted d)
  | pair {h t : Datum} : Writable h → h ≠ point → Writable t → t ≠ point → (∀ d, t ≠ quoted d) →
      Writable (pair h t)

/-- What can stand at the end of a text. -/
inductive Final : Datum → Prop
  | writable {d : Datum} : Writable d → Final d
  | lone : Final lone
  | quoted {d : Datum} : Final d → Final (quoted d)

end Datum

namespace Tree

/-- A list of some elements, dotted if there is a tail. -/
def closeList (es : List Tree) : Option Tree → Tree
  | none => list es
  | some d => dotted es d

/-- The tokens behind the elements of a list. -/
def ending : Option Tree → List Token
  | none => [.closing]
  | some d => .point :: (d.tokens ++ [.closing])

theorem tokens_closeList (es : List Tree) (tail : Option Tree) :
    (closeList es tail).tokens = .opening :: (tokensAll es ++ ending tail) := by
  cases tail <;> rfl

theorem datum_closeList (es : List Tree) (tail : Option Tree) :
    (closeList es tail).datum = .chain (data es) (tail.elim .nil datum) := by
  cases tail <;> rfl

end Tree

namespace Datum

mutual
/-- The derivation of the printed form. -/
def tree : Datum → Tree
  | nil => .list []
  | quoted d => .quotation (tree d)
  | pair h t =>
    match text? (pair h t) with
    | some cs => .leaf ⟨.string, stringLiteral cs⟩ (pair h t)
    | none => .closeList (tree h :: trees t) (tailTree t)
  | d => .leaf ⟨.atom, printedAtom d⟩ d

/-- The derivations of the elements of a chain. -/
def trees : Datum → List Tree
  | pair h t => tree h :: trees t
  | _ => []

/-- The derivation of what a chain ends in. -/
def tailTree : Datum → Option Tree
  | nil => none
  | quoted d => some (.quotation (tree d))
  | pair _ t => tailTree t
  | d => some (.leaf ⟨.atom, printedAtom d⟩ d)
end

theorem tree_pair_of_string {h t : Datum} {cs : Text} (text : text? (pair h t) = some cs) :
    tree (pair h t) = .leaf ⟨.string, stringLiteral cs⟩ (pair h t) := by
  simp only [tree, text]

theorem tree_pair_of_list {h t : Datum} (text : text? (pair h t) = none) :
    tree (pair h t) = .closeList (tree h :: trees t) (tailTree t) := by
  simp only [tree, text]

theorem datum_tree (d : Datum) :
    (tree d).datum = d ∧ chain (Tree.data (trees d)) ((tailTree d).elim nil Tree.datum) = d := by
  induction d with
  | nil => exact ⟨rfl, rfl⟩
  | quoted d ih =>
    have whole : quoted (tree d).datum = quoted d := congrArg quoted ih.1
    exact ⟨whole, whole⟩
  | pair h t ihh iht =>
    have whole : chain ((tree h).datum :: Tree.data (trees t)) ((tailTree t).elim nil Tree.datum) =
        pair h t := by
      rw [ihh.1]
      exact congrArg (pair h) iht.2
    refine ⟨?_, whole⟩
    cases text : text? (pair h t) with
    | some cs => rw [tree_pair_of_string text, Tree.datum]
    | none => rw [tree_pair_of_list text, Tree.datum_closeList]; exact whole
  | _ => exact ⟨rfl, rfl⟩

theorem ofText_of_text? {d : Datum} {cs : Text} (text : d.text? = some cs) : d = ofText cs := by
  induction d generalizing cs with
  | nil => cases text; rfl
  | pair h t _ iht =>
    cases h with
    | char c =>
      obtain ⟨cs', ht, rfl⟩ := Option.map_eq_some_iff.mp text
      rw [iht ht]
      rfl
    | _ => cases text
  | _ => cases text

/-- What follows an element of a list ends an atom. -/
theorem endsAtom_printedTail (t : Datum) (rest : Text) :
    Token.EndsAtom (printedTail t ++ rest) := by
  cases t with
  | nil => exact Or.inr (Or.inr rfl)
  | _ => exact Or.inl (by decide)

theorem lex_point (rest : Text) : lex ('.' :: ' ' :: rest) = (lex rest).prepend [.point] := by
  have atom : Token.AtomText ['.'] := ⟨rfl, by simp, by simp; decide, by simp⟩
  have ends : Token.EndsAtom (' ' :: rest) := Or.inl isBlank_space
  have read := lex_atom atom ends
  rw [lex_blank rest isBlank_space] at read
  exact read

/-- An atom at the end of a chain. -/
theorem lex_atomTail {t : Text} (atom : Token.AtomText t) (d : Datum) (rest : Text) :
    lex (' ' :: '.' :: ' ' :: (t ++ ')' :: rest)) =
      (lex rest).prepend (Tree.ending (some (.leaf ⟨.atom, t⟩ d))) := by
  have ends : Token.EndsAtom (')' :: rest) := Or.inr (Or.inr rfl)
  rw [lex_blank _ isBlank_space, lex_point, lex_atom atom ends, lex_closing]
  simp [Lexed.prepend_prepend, Tree.ending, Tree.tokens, Token.closing]

/-- Data that hold no other and are written as one atom. -/
def isSingle : Datum → Bool
  | nil | quoted _ | pair _ _ => false
  | _ => true

/-- The token of a datum that is written as one atom. -/
structure IsAtom (d : Datum) : Prop where
  text : printed d = printedAtom d
  textTail : printedTail d = " . ".toList ++ printedAtom d ++ [')']
  leaf : tree d = .leaf ⟨.atom, printedAtom d⟩ d
  noElements : trees d = []
  ending : tailTree d = some (.leaf ⟨.atom, printedAtom d⟩ d)

/-- How the printed form of a datum is cut into tokens, alone and as the rest of a list. -/
structure Lexes (d : Datum) : Prop where
  alone (rest : Text) : Token.EndsAtom rest →
    lex (printed d ++ rest) = (lex rest).prepend (tree d).tokens
  tail (rest : Text) : lex (printedTail d ++ rest) =
    (lex rest).prepend (Tree.tokensAll (trees d) ++ Tree.ending (tailTree d))

theorem isAtom (d : Datum) (single : d.isSingle = true) : IsAtom d := by
  cases d with
  | nil | quoted e | pair h t => cases single
  | _ =>
    exact ⟨by simp only [printed], by simp only [printedTail], by simp only [tree],
      by simp only [trees], by simp only [tailTree]⟩

theorem IsAtom.lexes {d : Datum} (shape : IsAtom d) (atom : Token.AtomText (printedAtom d)) :
    Lexes d := by
  constructor
  · intro rest ends
    rw [shape.text, shape.leaf]
    exact lex_atom atom ends
  · intro rest
    have whole := lex_atomTail atom d rest
    rw [shape.textTail, shape.noElements, shape.ending]
    simpa [Tree.tokensAll] using whole

theorem lexes_of_writable {d : Datum} (writable : Writable d) : Lexes d := by
  induction writable with
  | nil =>
    constructor
    · intro rest _
      exact (lex_opening (')' :: rest)).trans (by rw [lex_closing]; rfl)
    · intro rest
      exact lex_closing rest
  | @number v reads =>
    exact (isAtom (number v) rfl).lexes (atomText_number reads)
  | char c =>
    exact (isAtom (char c) rfl).lexes (atomText_char c)
  | @symbol name atom _ =>
    exact (isAtom (symbol name) rfl).lexes atom
  | @quoted d _ ih =>
    constructor
    · intro rest ends
      rw [printed, List.cons_append, lex_mark, ih.alone rest ends, Lexed.prepend_prepend]
      rfl
    · intro rest
      have ends : Token.EndsAtom (')' :: rest) := Or.inr (Or.inr rfl)
      have shape : printedTail (quoted d) ++ rest =
          ' ' :: '.' :: ' ' :: '\'' :: (printed d ++ ')' :: rest) := by
        simp [printedTail]
      rw [shape, lex_blank _ isBlank_space, lex_point, lex_mark, ih.alone _ ends, lex_closing]
      simp [Lexed.prepend_prepend, trees, tailTree, Tree.tokensAll, Tree.ending, Tree.tokens]
  | @pair h t _ _ _ _ _ ihh iht =>
    -- The elements and the end of the chain, whichever way the chain is written.
    have inner : ∀ rest, lex (printed h ++ (printedTail t ++ rest)) = (lex rest).prepend
        ((tree h).tokens ++ (Tree.tokensAll (trees t) ++ Tree.ending (tailTree t))) := by
      intro rest
      rw [ihh.alone _ (endsAtom_printedTail t rest), iht.tail rest, Lexed.prepend_prepend]
    constructor
    · intro rest _
      cases text : text? (pair h t) with
      | some cs =>
        rw [tree_pair_of_string text, printed, text]
        exact lex_stringLiteral cs rest
      | none =>
        rw [tree_pair_of_list text, Tree.tokens_closeList, printed, text]
        simp only [List.cons_append, List.append_assoc]
        rw [lex_opening, inner, Lexed.prepend_prepend]
        simp [Tree.tokensAll]
    · intro rest
      simp only [printedTail, List.cons_append, List.append_assoc]
      rw [lex_blank _ isBlank_space, inner]
      simp [trees, tailTree, Tree.tokensAll]

/-- What a writable datum derives, alone and as the rest of a list. -/
structure Derived (d : Datum) : Prop where
  datum : Derives .datum (tree d)
  element : d ≠ point → Derives .element (tree d)
  elements : ∀ e ∈ trees d, Derives .element e
  tail : d ≠ point → (∀ e, d ≠ quoted e) → ∀ t ∈ tailTree d, Derives .tail t

theorem IsAtom.derived {d : Datum} (shape : IsAtom d) (atom : Token.AtomText (printedAtom d))
    (reads : parseAtom (printedAtom d) = .ok d) : Derived d := by
  have leaf : Derives .datum (.leaf ⟨.atom, printedAtom d⟩ d) :=
    .leaf (.atom atom) (Or.inl rfl) reads
  -- Only the point is read from the text of the point.
  have other : d ≠ point → printedAtom d ≠ ['.'] := by
    intro notPoint same
    rw [same] at reads
    exact notPoint (Except.ok.inj reads).symm
  constructor
  · rw [shape.leaf]
    exact leaf
  · intro notPoint
    rw [shape.leaf]
    refine .element leaf ?_
    intro v h
    exact other notPoint (congrArg Token.text (Tree.leaf.inj h).1)
  · rw [shape.noElements]
    exact fun e he => absurd he List.not_mem_nil
  · intro notPoint _ t ht
    rw [shape.ending] at ht
    cases ht
    exact .tailLeaf leaf fun h => other notPoint (congrArg Token.text h)

theorem derived_of_writable {d : Datum} (writable : Writable d) : Derived d := by
  induction writable with
  | nil =>
    have empty : ∀ e ∈ ([] : List Tree), Derives .element e :=
      fun e he => absurd he List.not_mem_nil
    have whole : Derives .datum (tree nil) := .list empty
    exact ⟨whole, fun _ => .element whole (by simp [tree]), empty, fun _ _ t ht => by cases ht⟩
  | @number v reads =>
    exact (isAtom (number v) rfl).derived (atomText_number reads) (parseAtom_number reads)
  | char c =>
    exact (isAtom (char c) rfl).derived (atomText_char c) (parseAtom_char c)
  | @symbol name atom reads =>
    exact (isAtom (symbol name) rfl).derived atom reads
  | @quoted d _ ih =>
    have whole : Derives .datum (tree (quoted d)) := .quotation ih.datum
    exact ⟨whole, fun _ => .element whole (by simp [tree]),
      fun e he => absurd he List.not_mem_nil, fun _ other => absurd rfl (other d)⟩
  | @pair h t _ headNotPoint _ tailNotPoint tailNotQuoted ihh iht =>
    have elements : ∀ e ∈ tree h :: trees t, Derives .element e := by
      intro e he
      rcases List.mem_cons.mp he with rfl | he
      · exact ihh.element headNotPoint
      · exact iht.elements e he
    have ending := iht.tail tailNotPoint tailNotQuoted
    have whole : Derives .datum (tree (pair h t)) := by
      cases text : text? (pair h t) with
      | some cs =>
        rw [tree_pair_of_string text, ofText_of_text? text]
        exact .leaf (emitted_stringLiteral cs) (Or.inr rfl) (parseAtom_stringLiteral cs)
      | none =>
        rw [tree_pair_of_list text]
        cases last : tailTree t with
        | none => exact .list elements
        | some d => exact .dotted (List.cons_ne_nil _ _) elements (ending d last)
    refine ⟨whole, fun _ => .element whole ?_, elements, fun _ _ => ending⟩
    intro v
    cases text : text? (pair h t) with
    | some cs => rw [tree_pair_of_string text]; simp [Token.point]
    | none => rw [tree_pair_of_list text]; cases tailTree t <;> simp [Tree.closeList]

/-- What can stand at the end of a text is the last thing that is read from it. -/
theorem Final.lexes {d : Datum} (final : Final d) : lex (printed d) = ⟨(tree d).tokens, false⟩ := by
  induction final with
  | @writable d writable =>
    have whole := (lexes_of_writable writable).alone [] trivial
    rw [List.append_nil, lex_nil] at whole
    simpa [Lexed.prepend] using whole
  | lone => exact lex_lone
  | quoted _ ih =>
    rw [printed, lex_mark, ih]
    rfl

theorem Final.derives {d : Datum} (final : Final d) : Derives .datum (tree d) := by
  induction final with
  | @writable d writable => exact (derived_of_writable writable).datum
  | lone => exact .leaf .lone (Or.inl rfl) rfl
  | quoted _ ih => exact .quotation ih

end Datum

end FexprLisp
