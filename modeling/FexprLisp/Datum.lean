import FexprLisp.Builtin
import FexprLisp.Number.Binary

/-!
# Data

One type holds programs and values alike. A list is a chain of pairs; it is proper when the chain
ends in `nil`. A string is a proper list of characters, so the empty string is `nil`.

An interpreted function keeps its parameter names and its body, and no environment. A payload is a
value of the host program that the language only passes around.
-/

namespace FexprLisp

inductive Datum where
  | nil
  | truth
  | number (v : Single)
  | char (c : Char)
  | symbol (name : Text)
  | quoted (inner : Datum)
  | pair (head tail : Datum)
  | func (params : List Text) (body : List Datum)
  | native (f : Native)
  | payload (label : Text)

namespace Datum

instance : Inhabited Datum := ⟨nil⟩

/-- A chain of pairs over `items` that ends in `tail`. -/
def chain (items : List Datum) (tail : Datum) : Datum := items.foldr pair tail

def ofList (items : List Datum) : Datum := chain items nil

def ofText (t : Text) : Datum := ofList (t.map char)

def ofBool (b : Bool) : Datum := if b then truth else nil

/-- The heads along a chain. -/
def elements : Datum → List Datum
  | pair h t => h :: elements t
  | _ => []

/-- What a chain ends in; any other datum is its own terminator. -/
def terminator : Datum → Datum
  | pair _ t => terminator t
  | d => d

/-- Only `nil` is false. -/
def isTrue : Datum → Bool
  | nil => false
  | _ => true

def isProper (d : Datum) : Bool := !d.terminator.isTrue

/-- The characters of a proper list that holds nothing else. -/
def text? : Datum → Option Text
  | nil => some []
  | pair (char c) t => (text? t).map (c :: ·)
  | _ => none

/-- A string is printed as one when it is not empty. -/
def isString : Datum → Bool
  | nil => false
  | d => d.text?.isSome

/-- Induction along pairs and quotations; the forms of a function body are left alone. -/
@[induction_eliminator, elab_as_elim]
theorem induction {motive : Datum → Prop} (nil : motive nil) (truth : motive truth)
    (number : ∀ v, motive (number v)) (char : ∀ c, motive (char c))
    (symbol : ∀ name, motive (symbol name))
    (quoted : ∀ inner, motive inner → motive (quoted inner))
    (pair : ∀ head tail, motive head → motive tail → motive (pair head tail))
    (func : ∀ params body, motive (func params body)) (native : ∀ f, motive (native f))
    (payload : ∀ label, motive (payload label)) : ∀ d, motive d
  | .nil => nil
  | .truth => truth
  | .number v => number v
  | .char c => char c
  | .symbol name => symbol name
  | .quoted d =>
    quoted d (induction nil truth number char symbol quoted pair func native payload d)
  | .pair h t =>
    pair h t (induction nil truth number char symbol quoted pair func native payload h)
      (induction nil truth number char symbol quoted pair func native payload t)
  | .func params body => func params body
  | .native f => native f
  | .payload label => payload label

@[simp] theorem elements_chain (items : List Datum) (tail : Datum) :
    (chain items tail).elements = items ++ tail.elements := by
  induction items with
  | nil => rfl
  | cons d ds ih => simp_all [chain, elements]

@[simp] theorem terminator_chain (items : List Datum) (tail : Datum) :
    (chain items tail).terminator = tail.terminator := by
  induction items with
  | nil => rfl
  | cons d ds ih => simp_all [chain, terminator]

theorem chain_elements (d : Datum) : chain d.elements d.terminator = d := by
  induction d with
  | pair h t _ ih => simpa [chain, elements, terminator] using ih
  | _ => rfl

theorem text?_ofText (t : Text) : (ofText t).text? = some t := by
  induction t with
  | nil => rfl
  | cons c r ih => simp_all [ofText, ofList, chain, text?]

end Datum

end FexprLisp
