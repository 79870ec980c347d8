import FexprLisp.Datum.Printed

/-!
A table of names. Entries stay in the order in which the names were first bound; binding a name
again changes its value in place.
-/

namespace FexprLisp

structure Bindings where
  entries : List (Text × Datum)

namespace Bindings

def empty : Bindings := ⟨[]⟩

def find? (b : Bindings) (name : Text) : Option Datum := b.entries.lookup name

def names (b : Bindings) : List Text := b.entries.map (·.1)

def size (b : Bindings) : Nat := b.entries.length

def holds (b : Bindings) (name : Text) : Bool := (b.find? name).isSome

/-- Bind a name in a list of entries. -/
def putEntry (name : Text) (value : Datum) : List (Text × Datum) → List (Text × Datum)
  | [] => [(name, value)]
  | e :: es => if name = e.1 then (e.1, value) :: es else e :: putEntry name value es

def put (b : Bindings) (name : Text) (value : Datum) : Bindings := ⟨putEntry name value b.entries⟩

/-- Bind several names in order. -/
def putAll (b : Bindings) (entries : List (Text × Datum)) : Bindings :=
  entries.foldl (fun b e => b.put e.1 e.2) b

theorem lookup_putEntry (name other : Text) (value : Datum) (es : List (Text × Datum)) :
    (putEntry name value es).lookup other =
      if other = name then some value else es.lookup other := by
  induction es with
  | nil =>
    by_cases h : other = name
    · simp [putEntry, h]
    · simp [putEntry, List.lookup_cons, h, beq_false_of_ne h]
  | cons e es ih =>
    obtain ⟨key, old⟩ := e
    by_cases hn : name = key
    · subst hn
      by_cases h : other = name
      · simp [putEntry, h]
      · simp [putEntry, List.lookup_cons, h, beq_false_of_ne h]
    · simp only [putEntry, if_neg hn, List.lookup_cons]
      by_cases he : other = key
      · have h' : other ≠ name := fun h => hn (h ▸ he)
        simp [if_neg h', beq_iff_eq.2 he]
      · simp only [beq_false_of_ne he]
        exact ih

theorem find?_put (b : Bindings) (name other : Text) (value : Datum) :
    (b.put name value).find? other = if other = name then some value else b.find? other :=
  lookup_putEntry name other value b.entries

@[simp] theorem find?_empty (name : Text) : empty.find? name = none := rfl

end Bindings

end FexprLisp
