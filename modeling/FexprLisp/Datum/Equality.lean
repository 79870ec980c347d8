import FexprLisp.Datum

/-!
Equality as the language sees it, and hashing. Data are compared part by part; numbers by value, so
the zeros are equal and not-a-number equals nothing; payloads by identity; functions never.

`Alike` is the same relation given by rules, one for each variant that can be equal at all.
-/

namespace FexprLisp

namespace Datum

def equal : Datum → Datum → Bool
  | nil, nil => true
  | truth, truth => true
  | number v, number w => v.same w
  | char c, char c' => c = c'
  | symbol n, symbol n' => n = n'
  | quoted d, quoted d' => equal d d'
  | pair h t, pair h' t' => equal h h' && equal t t'
  | payload l, payload l' => l = l'
  | _, _ => false

def isFunction : Datum → Bool
  | func _ _ | native _ => true
  | _ => false

/-- Equality by a walk along two chains at once: the heads must not differ, and what is left when one
of them ends must be equal. Heads and ends are compared by the same walk, down to the leaves. That
heads differ has a rule of its own where the first of them is a function. -/
def equalAlong : Datum → Datum → Bool
  | pair h t, pair h' t' => if h.isFunction || !equalAlong h h' then false else equalAlong t t'
  | pair _ _, _ => false
  | quoted d, quoted d' => equalAlong d d'
  | leaf, e => equal leaf e

/-- Inequality. A function differs from everything, itself included. -/
def differs (a b : Datum) : Bool := a.isFunction || !equalAlong a b

theorem equalAlong_pair (h t h' t' : Datum) :
    equalAlong (pair h t) (pair h' t') = if differs h h' then false else equalAlong t t' :=
  rfl

inductive Alike : Datum → Datum → Prop
  | nil : Alike nil nil
  | truth : Alike truth truth
  | number {v w : Single} : v.same w = true → Alike (number v) (number w)
  | char (c : Char) : Alike (char c) (char c)
  | symbol (n : Text) : Alike (symbol n) (symbol n)
  | quoted {d d' : Datum} : Alike d d' → Alike (quoted d) (quoted d')
  | pair {h h' t t' : Datum} : Alike h h' → Alike t t' → Alike (pair h t) (pair h' t')
  | payload (l : Text) : Alike (payload l) (payload l)

theorem equal_iff_alike (a b : Datum) : equal a b = true ↔ Alike a b := by
  constructor
  · intro h
    induction a generalizing b with
    | nil => cases b <;> simp_all [equal]; constructor
    | truth => cases b <;> simp_all [equal]; constructor
    | number v => cases b <;> simp_all [equal]; exact .number h
    | char c => cases b <;> simp_all [equal]; constructor
    | symbol n => cases b <;> simp_all [equal]; constructor
    | quoted d ih =>
      cases b <;> simp_all [equal]
      exact .quoted (ih _ h)
    | pair h t ihh iht =>
      cases b <;> simp_all [equal]
      exact .pair (ihh _ h.1) (iht _ h.2)
    | func params body => simp [equal] at h
    | native f => simp [equal] at h
    | payload l => cases b <;> simp_all [equal]; constructor
  · intro h
    induction h <;> simp_all [equal]

/-- Pairs and quotations have no hash. -/
def isHashable : Datum → Bool
  | pair _ _ => false
  | quoted _ => false
  | _ => true

end Datum

/-- What a hash is computed from. A function hashes by its own identity. -/
inductive HashKey where
  | nil
  | truth
  | residue (n : Int)
  | nan
  | text (t : Text)
  | payload (label : Text)
  | itself
  deriving DecidableEq

namespace HashKey

/-- Numbers hash to their residue modulo the prime `2 ^ 61 - 1`. -/
def modulus : Nat := 0x1fffffffffffffff

/-- Minus one stands for a failure, and gives way to minus two. -/
def signed (neg : Bool) (n : Nat) : Int :=
  let r : Int := if neg then -n else n
  if r = -1 then -2 else r

/-- The smallest positive magnitude is `2 ^ -149`, which is `2 ^ 34` modulo the prime. -/
def unitResidue : Nat := 0x400000000

def ofNumber : Single → HashKey
  | .nan => nan
  | .real s k =>
    if k.val = Grid.single.top then residue (signed s 314159)
    else residue (signed s (Grid.single.units k * unitResidue % modulus))

def ofText (t : Text) : HashKey := if t.isEmpty then residue 0 else text t

def ofDatum : Datum → HashKey
  | .nil => nil
  | .truth => truth
  | .number v => ofNumber v
  | .char c => ofText [c]
  | .symbol n => ofText n
  | .payload l => payload l
  | _ => itself

/-- Do two data hash alike? A function does not hash like any other datum. -/
def agree (a b : Datum) : Bool :=
  let key := ofDatum a
  key = ofDatum b && key ≠ itself

end HashKey

end FexprLisp
