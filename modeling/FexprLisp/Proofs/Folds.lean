import FexprLisp.Proofs.Causes
import FexprLisp.Proofs.Fuel
import FexprLisp.Proofs.Layers

/-!
# Folds

Arithmetic takes in each argument as soon as it is evaluated, and finds the end of the list last.
That comes to the same as evaluating all arguments to numbers first and then folding the list of
them. So the arguments before the last one can be given to a call of their own.
-/

namespace FexprLisp

namespace Arguments

/-- The values of expressions that all have to be numbers, in order. -/
def numbers (ev : Evaluator) : List Datum → Run (List Single)
  | [] => pure []
  | e :: es => do
    let v ← number ev e
    let vs ← numbers ev es
    pure (v :: vs)

end Arguments

namespace Values

open Arguments

variable {ev ev' : Evaluator} {op : Operation}

/-- What arithmetic makes of the values of its arguments. -/
def settle (op : Operation) (proper : Bool) (vs : List Single) : Run Datum :=
  if !proper then Run.reject .dottedPair
  else match vs with
    | [] => Run.reject .notEnough
    | v :: vs => pure (.number (vs.foldl op.apply v))

/-- Evaluate all arguments to numbers, then look at the end of the list, then fold. -/
def plainFold (ev : Evaluator) (op : Operation) (args : Datum) : Run Datum := do
  let vs ← numbers ev args.elements
  settle op args.isProper vs

/-- The numbers that are taken in already stand before those that are still to come. -/
theorem fold_from (acc : Option Single) (args : Datum) :
    fold ev op acc args = numbers ev args.elements >>= fun vs =>
      settle op args.isProper (acc.toList ++ vs) := by
  induction args generalizing acc with
  | nil => cases acc <;> rfl
  | pair e rest _ ih =>
    rw [fold, Datum.elements, numbers, Run.bind_assoc]
    congr 1
    funext v
    rw [ih, Run.bind_assoc]
    cases acc <;> rfl
  | _ => rfl

theorem fold_eq_plainFold (args : Datum) : fold ev op none args = plainFold ev op args :=
  fold_from none args

theorem plainFold_ofList (es : List Datum) :
    plainFold ev op (.ofList es) = numbers ev es >>= settle op true := by
  rw [plainFold, elements_ofList, isProper_ofList]

theorem numbers_append (es es' : List Datum) : numbers ev (es ++ es') =
    numbers ev es >>= fun vs => numbers ev es' >>= fun ws => pure (vs ++ ws) := by
  induction es with
  | nil => exact (Run.bind_pure _).symm
  | cons e es ih =>
    rw [List.cons_append, numbers, numbers, ih, Run.bind_assoc]
    congr 1
    funext v
    simp only [Run.bind_assoc]
    rfl

/-- A fold of a list whose last expression has an evaluator of its own. -/
def lastApart (ev' ev : Evaluator) (op : Operation) (es : List Datum) (e : Datum) : Run Datum := do
  let vs ← numbers ev' es
  let v ← number ev e
  settle op true (vs ++ [v])

theorem plainFold_append (es : List Datum) (e : Datum) :
    plainFold ev op (.ofList (es ++ [e])) = lastApart ev ev op es e := by
  rw [plainFold_ofList, numbers_append, lastApart]
  simp only [Run.bind_assoc, numbers]
  rfl

/-- What is folded last is folded onto the value of what comes before it. -/
theorem number_plainFold (d : Datum) (ds : List Datum) (inner e : Datum) :
    (do
      let a ← number (fun _ => plainFold ev' op (.ofList (d :: ds))) inner
      let v ← number ev e
      settle op true [a, v]) = lastApart ev' ev op (d :: ds) e := by
  rw [number, plainFold_ofList, lastApart, numbers]
  simp only [Run.bind_assoc]
  congr 1
  funext w
  congr 1
  funext ws
  have folded (v : Single) : settle op true (w :: ws ++ [v]) =
      settle op true [ws.foldl op.apply w, v] := by simp [settle]
  change (number ev e >>= fun v => settle op true [ws.foldl op.apply w, v]) =
    number ev e >>= fun v => settle op true (w :: ws ++ [v])
  rw [funext folded]

/-- A number does not depend on the layers around the faults of its evaluation. -/
theorem alike_number {x : Run Datum} {inner : Datum} (call : ev inner = .mapFault .escaping x)
    (m : Machine) : Run.Alike Eq (number ev inner m) (number (fun _ => x) inner m) := by
  rw [number, number, call]
  refine (Run.alike_refl (N := Eq) (fun _ => rfl) _).escaping.bind (fun _ _ same => same) ?_
  rintro a k _ rfl _ _
  exact Run.alike_refl (fun _ => rfl) _

/-- A call of arithmetic on all expressions but the last, and that one next to it. -/
theorem alike_plainFold {d inner : Datum} {ds : List Datum}
    (call : ev inner = .mapFault .escaping (plainFold ev' op (.ofList (d :: ds)))) (e : Datum)
    (m : Machine) : Run.Alike Eq (plainFold ev op (.ofList [inner, e]) m)
      (lastApart ev' ev op (d :: ds) e m) := by
  have whole : plainFold ev op (.ofList [inner, e]) =
      number ev inner >>= fun a => number ev e >>= fun v => settle op true [a, v] := by
    rw [plainFold_ofList]
    simp only [numbers, Run.bind_assoc]
    rfl
  rw [whole, ← number_plainFold d ds inner e]
  refine (alike_number call m).bind (fun _ _ same => same) ?_
  rintro a k _ rfl _ _
  exact Run.alike_refl (fun _ => rfl) _

end Values

section Calls

open Arguments Values Run

variable {host : Host} {op : Operation}

/-- A call with the function of the operation itself at its head. -/
def arithmeticForm (op : Operation) (es : List Datum) : Datum :=
  .pair (.native (.builtin (.arithmetic op))) (.ofList es)

theorem eval_arithmeticForm (fuel : Nat) (es : List Datum) :
    eval host (fuel + 2) (arithmeticForm op es) =
      .mapFault .escaping (plainFold (eval host (fuel + 1)) op (.ofList es)) := by
  rw [arithmeticForm, eval_builtin, Builtin.run, fold_eq_plainFold]

theorem numbers_of_values (fuel : Nat) (vs : List Single) :
    numbers (eval host (fuel + 1)) (vs.map .number) = pure vs := by
  induction vs with
  | nil => rfl
  | cons v vs ih =>
    rw [List.map_cons, numbers, ih]
    rfl

/-- A call on numbers gives the left fold of the operation over them. -/
theorem eval_arithmeticForm_numbers (host : Host) (op : Operation) (fuel : Nat) (v : Single)
    (vs : List Single) (m : Machine) :
    eval host (fuel + 2) (arithmeticForm op ((v :: vs).map .number)) m =
      some (.ok (.number (vs.foldl op.apply v)), m) := by
  rw [eval_arithmeticForm, plainFold_ofList, numbers_of_values]
  rfl

theorem alike_nestedForm (host : Host) (op : Operation) (fuel : Nat) (d : Datum)
    (ds : List Datum) (e : Datum) (m : Machine) :
    Alike Eq (eval host (fuel + 3) (arithmeticForm op [arithmeticForm op (d :: ds), e]) m)
      (mapFault .escaping
        (lastApart (eval host (fuel + 1)) (eval host (fuel + 2)) op (d :: ds) e) m) := by
  rw [eval_arithmeticForm]
  exact (alike_plainFold (eval_arithmeticForm fuel (d :: ds)) e m).escaping.escaping_right

section Fuel

variable (blind : host.FuelBlind) {n n' k k' : Nat}
include blind

theorem below_number (less : n ≤ k) (e : Datum) :
    (number (eval host n) e).Below Eq (number (eval host k) e) :=
  Congruence.numeric (C := Likeness.fuel.congruence) (Congruence.fuel.eval blind less) rfl

theorem below_numbers (less : n ≤ k) (es : List Datum) :
    (numbers (eval host n) es).Below Eq (numbers (eval host k) es) := by
  induction es with
  | nil => exact below_same fun _ => rfl
  | cons e es ih =>
    refine (below_number blind less e).bind ?_
    rintro v _ rfl
    refine ih.bind ?_
    rintro vs _ rfl
    exact below_same fun _ => rfl

/-- More fuel, for the last expression or for those before it, changes no end of a fold. -/
theorem below_lastApart (op : Operation) (less : n ≤ k) (less' : n' ≤ k') (es : List Datum)
    (e : Datum) : (lastApart (eval host n') (eval host n) op es e).Below Eq
      (lastApart (eval host k') (eval host k) op es e) := by
  refine (below_numbers blind less' es).bind ?_
  rintro vs _ rfl
  refine (below_number blind less e).bind ?_
  rintro v _ rfl
  exact below_same fun _ => rfl

theorem arithmeticForm_nests {fuel : Nat} {d e : Datum} {ds : List Datum} {m n : Machine}
    {r : Except Stop Datum}
    (ends : eval host fuel (arithmeticForm op (d :: ds ++ [e])) m = some (r, n)) :
    ∃ s, eval host (fuel + 1) (arithmeticForm op [arithmeticForm op (d :: ds), e]) m =
      some (s, n) ∧ SameResult s r := by
  match fuel with
  -- The call and its head take a unit of fuel each.
  | 0 => cases ends
  | 1 => cases ends
  | fuel + 2 =>
    rw [eval_arithmeticForm, plainFold_append] at ends
    have more := (below_lastApart blind op (Nat.le_succ (fuel + 1))
      (Nat.le_refl (fuel + 1)) (d :: ds) e).escaping
    obtain ⟨s, apart, same⟩ := more m r n ends
    obtain rfl := same.eq
    have alike := alike_nestedForm host op fuel d ds e m
    rw [apart] at alike
    exact alike.of_second

theorem arithmeticForm_flattens {fuel : Nat} {d e : Datum} {ds : List Datum} {m n : Machine}
    {s : Except Stop Datum}
    (ends : eval host fuel (arithmeticForm op [arithmeticForm op (d :: ds), e]) m = some (s, n)) :
    ∃ r, eval host fuel (arithmeticForm op (d :: ds ++ [e])) m = some (r, n) ∧
      SameResult s r := by
  match fuel with
  | 0 => cases ends
  | 1 => cases ends
  | 2 => cases ends
  | fuel + 3 =>
    have alike := alike_nestedForm host op fuel d ds e m
    rw [ends] at alike
    obtain ⟨r, apart, same⟩ := alike.of_first
    have more := (below_lastApart blind op (Nat.le_refl (fuel + 2))
      (Nat.le_succ (fuel + 1)) (d :: ds) e).escaping
    obtain ⟨r', ends', same'⟩ := more m r n apart
    obtain rfl := same'.eq
    rw [eval_arithmeticForm, plainFold_append]
    exact ⟨r, ends', same⟩

end Fuel

end Calls

end FexprLisp
