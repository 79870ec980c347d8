import FexprLisp.Host.Stock
import FexprLisp.Proofs.Asking
import FexprLisp.Proofs.Scope

/-!
# Layers

When an evaluation fails, so does every evaluation that it is part of, and all of them stop with the
same thing, except that a fault has one layer more around it for each builtin call and each call of
the host in between. Calls of interpreted functions add none. Every fault goes back in this way to
an evaluation that raises it. Functions of the host are supposed to complain about arguments at
most, and otherwise to let through what they meet.
-/

namespace FexprLisp

open Fault

/-- A function that raises nothing of its own but complaints about its arguments and what looking
up, binding and reading raise, and that stops with whatever an evaluation that it asks for stops
with. -/
structure HostFunction.LetsThrough (run : HostFunction) : Prop where
  faults {ev : Evaluator} {args : Datum} {m m' : Machine} {f : Fault} : ev.Reports →
    run ev args m = some (.error (.fault f), m') → (∃ a, f = .invalidArguments a) ∨ Core f ∨
      ∃ d n n', Asks (run · args) ev m d n ∧ ev d n = some (.error (.fault f), n')
  stops {ev : Evaluator} {args : Datum} {m : Machine} {d : Datum} {n n' : Machine} {s : Stop} :
    Asks (run · args) ev m d n → ev d n = some (.error s, n') →
      ∃ m', run ev args m = some (.error s, m')

def Host.LetsThrough (host : Host) : Prop :=
  ∀ name run, host name = some run → HostFunction.LetsThrough run

/-- A function that keeps the congruences in question lets through what it should. -/
theorem HostFunction.LetsThrough.of_respects {run : HostFunction}
    (faults : ∀ (P : Fault → Prop) (invalid : ∀ a, P (.invalidArguments a))
      (core : ∀ f, Core f → P f), (Promise.faults_kept invalid core).congruence.Respects run)
    (parts : ∀ L, (Congruence.parting L).Respects run) : run.LetsThrough := by
  have raises (args : Datum) : RaisesOrForwards (run · args) :=
    raisesOrForwards_of_fulfils fun P invalid core ev evals =>
      faults P invalid core ev ev evals args args rfl
  have alike (args : Datum) : PartsWithEvaluator (run · args) :=
    fun L ev ev' evals => parts L ev ev' evals args args rfl
  exact ⟨fun reports failed => asks_of_fault (alike _) (raises _) reports failed,
    fun asks stopped => asks.stops (alike _) stopped⟩

theorem Builtin.letsThrough (b : Builtin) (fuel : Nat) :
    HostFunction.LetsThrough fun ev => b.run ev fuel :=
  .of_respects (fun _ invalid core _ _ evals _ _ same =>
      Congruence.builtin trivial (fun _ => (Promise.faults_kept invalid core).readsOutside) evals
        rfl same)
    fun L _ _ evals _ _ same =>
      Congruence.builtin trivial (fun _ => (Likeness.parting L).readsOutside) evals rfl same

section Stock

open Arguments

variable {C : Congruence}

theorem Congruence.ofList {ds ds' : List Datum} (same : List.Forall₂ C.Data ds ds') :
    C.Data (.ofList ds) (.ofList ds') := by
  induction same with
  | nil => exact C.nil
  | cons head _ ih => exact C.toMatching.pair head ih

/-- The functions that every embedding can use keep every congruence. -/
theorem Congruence.hosted_stock : C.Hosted Host.stock := by
  intro name run found ev ev' evals args args' same
  have known : run ∈ Host.stockFunctions.map (·.2) := by
    obtain ⟨before, after, split, _⟩ := List.lookup_eq_some_iff.mp found
    rw [split]
    simp
  simp only [Host.stockFunctions, List.map_cons, List.map_nil, List.mem_cons, List.not_mem_nil,
    or_false] at known
  rcases known with rfl | rfl | rfl | rfl | rfl | rfl
  · exact C.pure same
  · exact C.bind (one same) fun e e' he => evals e e' he
  · exact fold evals .add _ same
  · refine C.bind (checked (C.split same 0 none)) fun items items' hitems => ?_
    exact C.bind (values evals hitems) fun vs vs' hvs => C.pure (ofList hvs)
  · exact reject _
  · exact C.pure C.nil

theorem Host.stock_letsThrough : Host.stock.LetsThrough := fun name run found =>
  .of_respects (fun _ _ _ => Congruence.hosted_stock name run found)
    fun _ => Congruence.hosted_stock name run found

end Stock

theorem Eval.callee_letsThrough {host : Host} (lets : host.LetsThrough) {fuel : Nat} {f : Native}
    {run : HostFunction} (found : Eval.callee host fuel f = some run) : run.LetsThrough := by
  cases f with
  | builtin b =>
    cases found
    exact b.letsThrough fuel
  | host name | nameless name => exact lets name run found

/-- What leaves a call of a function that lets faults through. -/
theorem layered_escaping {f : Fault} (inner : (∃ a, f = .invalidArguments a) ∨ Core f ∨ Layered f) :
    Layered f.escaping := by
  rcases inner with ⟨a, rfl⟩ | core | layered
  · exact layered_badArguments a
  · rw [core.escaping]
    exact core.wrap
  · rw [layered.escaping]
    exact layered.wrap

theorem layered_raised {kind : FaultKind} {cause : Fault} (raised : Raised kind cause)
    (other : kind ≠ .reading) : Layered (.reported kind cause) :=
  .layers 0 raised fun reading => absurd reading other

section Normal

variable {host : Host} {ev : Evaluator} (evals : ∀ d, (ev d).FaultsIn Layered)

include evals

theorem reports_of_layered : ev.Reports := by
  intro d m f m' failed
  obtain ⟨kind, cause, rfl, _⟩ := ((evals d).fault failed).reported
  exact ⟨kind, cause, rfl⟩

theorem applyNative_layered (lets : host.LetsThrough) (fuel : Nat) (f : Native) (args : Datum) :
    (Eval.applyNative host ev fuel f args).FaultsIn Layered := by
  cases found : Eval.callee host fuel f with
  | none =>
    rw [Eval.applyNative_of_no_callee args found]
    exact Run.faultsIn_fail (layered_nonFunction _)
  | some run =>
    rw [Eval.applyNative_of_callee args found]
    refine Run.faultsIn_of fun m g m' failed => ?_
    obtain ⟨f, inner, rfl⟩ := Run.mapFault_eq_fault failed
    have reports := reports_of_layered evals
    rcases (Eval.callee_letsThrough lets found).faults reports inner with
      own | core | ⟨d, n, n', _, within⟩
    · exact layered_escaping (Or.inl own)
    · exact layered_escaping (Or.inr (Or.inl core))
    · exact layered_escaping (Or.inr (Or.inr ((evals d).fault within)))

end Normal

theorem eval_layered {host : Host} (lets : host.LetsThrough) (fuel : Nat) (d : Datum) :
    (eval host fuel d).FaultsIn Layered := by
  induction fuel generalizing d with
  | zero => exact Run.fulfils_outOfFuel
  | succ fuel ih => exact step_faultsIn ih layered_raised (applyNative_layered ih lets fuel) d

/-- The evaluation of an expression on a machine, with so much fuel. -/
structure Evaluation where
  fuel : Nat
  expression : Datum
  machine : Machine

namespace Evaluation

def end? (host : Host) (e : Evaluation) : Option (Except Stop Datum × Machine) :=
  eval host e.fuel e.expression e.machine

/-- The evaluations that an evaluation asks for itself, with the number of native functions in
between, which is none or one. -/
inductive Part (host : Host) : Evaluation → Nat → Evaluation → Prop
  | head {fuel : Nat} {head args : Datum} {m : Machine} :
      Part host ⟨fuel, head, m⟩ 0 ⟨fuel + 1, .pair head args, m⟩
  | native {fuel : Nat} {head args d : Datum} {f : Native} {run : HostFunction} {m m₁ n : Machine} :
      eval host fuel head m = some (.ok (.native f), m₁) → Eval.callee host fuel f = some run →
      Asks (run · args) (eval host fuel) m₁ d n →
      Part host ⟨fuel, d, n⟩ 1 ⟨fuel + 1, .pair head args, m⟩
  | function {fuel : Nat} {head args d : Datum} {params : List Text} {forms : List Datum}
      {m m₁ n : Machine} : eval host fuel head m = some (.ok (.func params forms), m₁) →
      Asks (Eval.applyFunction · params forms args) (eval host fuel) m₁ d n →
      Part host ⟨fuel, d, n⟩ 0 ⟨fuel + 1, .pair head args, m⟩

/-- The evaluations that an evaluation is within, with the number of native functions in between. -/
inductive Around (host : Host) (inner : Evaluation) : Nat → Evaluation → Prop
  | itself : Around host inner 0 inner
  | part {e outer : Evaluation} {j k : Nat} : Part host e j outer → Around host inner k e →
      Around host inner (j + k) outer

/-- What an evaluation raises itself. A native function that raises a report puts a layer around
it. -/
inductive Raises (host : Host) : Evaluation → Fault → Prop
  | reported {e : Evaluation} {kind : FaultKind} {cause : Fault} : Raised kind cause →
      kind ≠ .reading → Raises host e (.reported kind cause)
  | native {fuel : Nat} {head args : Datum} {f : Native} {run : HostFunction} {m m₁ m₂ : Machine}
      {c : Fault} : eval host fuel head m = some (.ok (.native f), m₁) →
      Eval.callee host fuel f = some run →
      run (eval host fuel) args m₁ = some (.error (.fault c), m₂) → Core c →
      Raises host ⟨fuel + 1, .pair head args, m⟩ c.wrap

/-- An evaluation ends in a fault that it raises itself: none of its parts ends in a fault. -/
structure FailsAlone (host : Host) (e : Evaluation) (f : Fault) : Prop where
  ends : ∃ n, e.end? host = some (.error (.fault f), n)
  alone : ∀ p j, Part host p j e → ∀ g n, p.end? host ≠ some (.error (.fault g), n)
  raises : Raises host e f

end Evaluation

/-- Layers around a fault; any other stop has none. -/
def Stop.layers (k : Nat) : Stop → Stop
  | .fault f => .fault (Fault.wrap^[k] f)
  | s => s

theorem Stop.layers_zero (s : Stop) : s.layers 0 = s := by
  cases s <;> rfl

theorem Stop.layers_add (j k : Nat) (s : Stop) : s.layers (j + k) = (s.layers k).layers j := by
  cases s with
  | fault f => exact congrArg Stop.fault (Function.iterate_add_apply _ _ _ f)
  | _ => rfl

theorem partsWithEvaluator_applyFunction (params : List Text) (forms : List Datum) (args : Datum) :
    PartsWithEvaluator (Eval.applyFunction · params forms args) := fun _ _ _ evals =>
  Congruence.applyFunction evals (List.forall₂_same.mpr fun _ _ => rfl)
    (Matching.identity_refl forms) rfl

theorem raisesOrForwards_applyFunction (params : List Text) (forms : List Datum) (args : Datum) :
    RaisesOrForwards (Eval.applyFunction · params forms args) :=
  raisesOrForwards_of_fulfils fun _ _ _ _ evals =>
    Congruence.applyFunction evals (List.forall₂_same.mpr fun _ _ => rfl)
      (Matching.identity_refl forms) rfl

namespace Evaluation

variable {host : Host} (lets : host.LetsThrough)

include lets

/-- What stops a part of an evaluation stops the evaluation. -/
theorem Part.stops {e outer : Evaluation} {j : Nat} (part : Part host e j outer) {s : Stop}
    {n : Machine} (stopped : e.end? host = some (.error s, n)) :
    ∃ m, outer.end? host = some (.error (s.layers j), m) := by
  cases part with
  | head =>
    rw [s.layers_zero]
    exact ⟨n, eval_of_head_stops stopped⟩
  | @native fuel head args d f run m m₁ n' function found asks =>
    obtain ⟨m₂, stops⟩ := (Eval.callee_letsThrough lets found).stops asks stopped
    have layer : s.escaping = s.layers 1 := by
      cases s with
      | fault f =>
        have layered := (eval_layered lets fuel d).fault stopped
        exact congrArg Stop.fault layered.escaping
      | _ => rfl
    rw [← layer]
    exact ⟨m₂, eval_of_callee_stops function found stops⟩
  | @function fuel head args d params forms m m₁ n' function asks =>
    obtain ⟨m₂, stops⟩ := asks.stops (partsWithEvaluator_applyFunction params forms args) stopped
    rw [s.layers_zero]
    exact ⟨m₂, (eval_of_function function).trans stops⟩

/-- Whatever stops an evaluation stops all evaluations around it. -/
theorem Around.stops {inner outer : Evaluation} {k : Nat} (around : Around host inner k outer)
    {s : Stop} {n : Machine} (stopped : inner.end? host = some (.error s, n)) :
    ∃ m, outer.end? host = some (.error (s.layers k), m) := by
  induction around with
  | itself =>
    rw [s.layers_zero]
    exact ⟨n, stopped⟩
  | part part _ ih =>
    obtain ⟨_, stopped⟩ := ih
    rw [Stop.layers_add]
    exact part.stops lets stopped

section Alone

variable {fuel : Nat} {head args : Datum} {m m₁ n : Machine} {g : Fault}
  (alone : ∀ p j, Part host p j ⟨fuel + 1, .pair head args, m⟩ → ∀ g n,
    p.end? host ≠ some (.error (.fault g), n))

include alone

theorem raises_of_native {f : Native}
    (function : eval host fuel head m = some (.ok (.native f), m₁))
    (failed : Eval.applyNative host (eval host fuel) fuel f args m₁ =
      some (.error (.fault g), n)) : Raises host ⟨fuel + 1, .pair head args, m⟩ g := by
  cases found : Eval.callee host fuel f with
  | none =>
    rw [Eval.applyNative_of_no_callee args found] at failed
    cases failed
    exact .reported (.nonFunction _) (by rintro ⟨⟩)
  | some run =>
    rw [Eval.applyNative_of_callee args found] at failed
    obtain ⟨c, inner, rfl⟩ := Run.mapFault_eq_fault failed
    have reports := reports_of_layered (eval_layered lets fuel)
    rcases (Eval.callee_letsThrough lets found).faults reports inner with
      ⟨a, rfl⟩ | core | ⟨d, k, k', asks, within⟩
    · exact .reported (.invalidArguments a) (by rintro ⟨⟩)
    · rw [core.escaping]
      exact .native function found inner core
    · exact absurd within (alone _ 1 (.native function found asks) c k')

theorem raises_of_function {params : List Text} {forms : List Datum}
    (function : eval host fuel head m = some (.ok (.func params forms), m₁))
    (failed : Eval.applyFunction (eval host fuel) params forms args m₁ =
      some (.error (.fault g), n)) : Raises host ⟨fuel + 1, .pair head args, m⟩ g := by
  have evals := eval_layered lets fuel
  have layered := (applyFunction_faultsIn evals layered_raised params forms args).fault failed
  obtain ⟨kind, cause, rfl, notReading⟩ := layered.reported
  rcases asks_of_fault (partsWithEvaluator_applyFunction params forms args)
    (raisesOrForwards_applyFunction params forms args) (reports_of_layered evals) failed with
    ⟨_, own⟩ | core | ⟨d, k, k', asks, within⟩
  · cases own
  · cases core with
    | reported raised => exact .reported raised notReading
  · exact absurd within (alone _ 0 (.function function asks) _ k')

end Alone

/-- An evaluation of which no part ends in a fault raises the fault that it ends in. -/
theorem raises_of_alone {outer : Evaluation} {f : Fault} {n : Machine}
    (failed : outer.end? host = some (.error (.fault f), n))
    (alone : ∀ p j, Part host p j outer → ∀ g n, p.end? host ≠ some (.error (.fault g), n)) :
    Raises host outer f := by
  obtain ⟨fuel, d, m⟩ := outer
  cases fuel with
  | zero => cases failed
  | succ fuel =>
    rw [end?, eval] at failed
    cases d with
    | symbol name =>
      have looked : Run.ofExcept (m.env.lookup name) m = some (.error (.fault f), n) := failed
      cases found : m.env.lookup name with
      | ok v =>
        rw [found] at looked
        cases looked
      | error g =>
        rw [found] at looked
        cases looked
        rw [Promise.lookup_eq_error found]
        exact .reported (.unknownSymbol name) (by rintro ⟨⟩)
    | pair head args =>
      rw [Eval.step, Run.bind_apply] at failed
      split at failed
      · cases failed
      next v m₁ function =>
        split at failed
        · exact raises_of_native lets alone function failed
        · exact raises_of_function lets alone function failed
        · cases failed
        · cases failed
          exact .reported (.nonFunction v) (by rintro ⟨⟩)
      next e m₁ function =>
        cases failed
        exact absurd function (alone _ 0 .head f n)
    | _ => cases failed

/-- Every fault that an evaluation ends in was raised by an evaluation within it. -/
theorem exists_failsAlone {outer : Evaluation} {f : Fault} {n : Machine}
    (failed : outer.end? host = some (.error (.fault f), n)) :
    ∃ inner k g, Around host inner k outer ∧ FailsAlone host inner g ∧ f = Fault.wrap^[k] g := by
  obtain ⟨fuel, d, m⟩ := outer
  induction fuel generalizing d m f n with
  | zero => cases failed
  | succ fuel ih =>
    by_cases deeper : ∃ p j, Part host p j ⟨fuel + 1, d, m⟩ ∧ ∃ g k,
      p.end? host = some (.error (.fault g), k)
    · -- The fault of a part is the fault of the whole but for the layers, and parts have less fuel.
      obtain ⟨⟨fuel', d', m'⟩, j, part, g, k, within⟩ := deeper
      obtain ⟨_, ended⟩ := part.stops lets within
      rw [failed] at ended
      cases ended
      have less : fuel' = fuel := by cases part <;> rfl
      subst less
      obtain ⟨inner, i, c, around, raised, rfl⟩ := ih d' m' within
      refine ⟨inner, j + i, c, .part part around, raised, ?_⟩
      exact (Function.iterate_add_apply _ _ _ c).symm
    · have alone : ∀ p j, Part host p j ⟨fuel + 1, d, m⟩ → ∀ g k,
          p.end? host ≠ some (.error (.fault g), k) :=
        fun p j part g k within => deeper ⟨p, j, part, g, k, within⟩
      exact ⟨_, 0, f, .itself, ⟨⟨n, failed⟩, alone, raises_of_alone lets failed alone⟩, rfl⟩

end Evaluation

open Evaluation

/-- A fault that leaves an evaluation is a report of what was raised with some layers around it, at
least one if the reader raised it; its cause and its message are those of that report. It comes from
an evaluation within that raises it, with one layer for each native function in between. And
whatever stops an evaluation stops all evaluations around it: a fault with these layers, anything
else as it is. -/
theorem eval_faults (host : Host) (lets : host.LetsThrough) (outer : Evaluation) :
    (∀ f m, outer.end? host = some (.error (.fault f), m) →
      (∃ kind cause, f = .reported kind cause ∧ kind ≠ .reading) ∧
      (∃ k kind cause, Raised kind cause ∧ (kind = .reading → 1 ≤ k) ∧
        f = Fault.wrap^[k] (.reported kind cause) ∧ f.root = cause ∧
        f.message = (Fault.reported kind cause).message) ∧
      ∃ inner k g, Around host inner k outer ∧ FailsAlone host inner g ∧ f = Fault.wrap^[k] g) ∧
    ∀ inner k, Around host inner k outer → ∀ s n, inner.end? host = some (.error s, n) →
      ∃ m, outer.end? host = some (.error (s.layers k), m) := by
  constructor
  · intro f m failed
    have layered := (eval_layered lets outer.fuel outer.expression).fault failed
    refine ⟨layered.reported, ?_, exists_failsAlone lets failed⟩
    cases layered with
    | layers k raised reading =>
      refine ⟨k, _, _, raised, reading, rfl, ?_, message_layers k _⟩
      rw [root_layers, raised.root]
  · intro inner k around s n stopped
    exact around.stops lets stopped

/-- The head of what an interpreted function gives for what a host function evaluates, where that is
a name without a value. -/
theorem eval_faults_sample :
    let unbound : Datum := .symbol ['x']
    let hosted : Datum := .ofList [.native (.host "ev".toList), unbound]
    let called : Datum := .ofList [.func [['p']] [.symbol ['p']], hosted]
    let outer : Evaluation := ⟨4, .ofList [.native (.builtin .car), called], emptyMachine⟩
    let raised : Fault := .unevaluable (.unknownSymbol ['x'])
    Host.stock.LetsThrough ∧
    Around Host.stock ⟨1, unbound, emptyMachine⟩ 2 outer ∧
    (∃ m, outer.end? Host.stock = some (.error (.fault (.wrap (.wrap raised))), m)) ∧
    ∃ inner k g, Around Host.stock inner k outer ∧ FailsAlone Host.stock inner g ∧
      raised.wrap.wrap = Fault.wrap^[k] g := by
  intro unbound hosted called outer raised
  have lets := Host.stock_letsThrough
  have around : Around Host.stock ⟨1, unbound, emptyMachine⟩ (1 + (0 + (1 + 0))) outer := by
    refine .part (.native (f := .builtin .car) rfl rfl (asks_first (by decide) fun _ => rfl)) ?_
    refine .part (.function rfl (asks_first (by decide)
      fun _ => congrFun (Run.bind_assoc _ _ _) _)) ?_
    refine .part (.native (f := .host "ev".toList) rfl rfl
      (asks_first (by decide) (f := fun _ => pure) ?_)) .itself
    exact fun _ => (congrFun (Run.bind_pure _) _).symm
  obtain ⟨faults, layers⟩ := eval_faults Host.stock lets outer
  obtain ⟨m, ended⟩ := layers _ _ around _ _ rfl
  obtain ⟨_, _, origin⟩ := faults _ _ ended
  exact ⟨lets, around, ⟨m, ended⟩, origin⟩

end FexprLisp
