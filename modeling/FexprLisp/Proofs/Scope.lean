import FexprLisp.Interpreter
import FexprLisp.Proofs.Frames
import FexprLisp.Proofs.Promises

/-!
# Scope

Evaluation leaves as many frames as it found. The outer ones bind the names that they bound, and the
innermost one may bind more, which were bound nowhere before. The frames that conditionals, loops,
calls and inclusions work in are gone at whatever end.
-/

namespace FexprLisp

/-- That environments grow, whatever a computation ends in. -/
def Promise.growth : Promise where
  Holds _ := True
  Change := Env.Grows
  Stops _ := True
  refl := .refl
  trans := .trans

theorem Promise.growth_kept : Promise.growth.Kept .identity where
  name _ := rfl
  forms _ := Matching.identity_refl _
  own _ := trivial
  lookup _ _ _ := ⟨_, rfl⟩
  bindGlobal _ _ _ h := ⟨trivial, Env.grows_bindGlobal h⟩
  assign _ _ _ _ h := ⟨trivial, Env.grows_assign h⟩
  push _ _ := trivial
  pop _ _ _ _ grows := ⟨trivial, grows.pop⟩
  enter _ _ _ _ := trivial
  leave _ _ _ _ grows := ⟨trivial, grows.restore⟩

def Congruence.growth : CallCongruence :=
  Promise.growth_kept.callCongruence fun _ _ => trivial

/-- Every end of a computation that a machine comes to leaves an environment that grew, and every
result stands in a relation. -/
def Run.Grows {α : Type} (φ : α → α → Prop) (x : Run α) : Prop :=
  ∀ m r m', x m = some (r, m') → m.env.Grows m'.env ∧ ∀ a, r = .ok a → ∃ b, φ a b

namespace Run

variable {α β : Type} {φ : α → α → Prop} {ψ : β → β → Prop}

theorem grows_iff {x : Run α} : x.Grows φ ↔ x.Fulfils .growth φ := by
  constructor
  · intro grows m r m' _ h
    obtain ⟨change, results⟩ := grows m r m' h
    refine ⟨trivial, change, ?_⟩
    cases r with
    | ok a =>
      obtain ⟨b, related⟩ := results a rfl
      exact .ok related
    | error e => exact .error trivial
  · intro fulfils m r m' h
    have after := fulfils m r m' trivial h
    refine ⟨after.change, ?_⟩
    rintro a rfl
    cases after.ends with
    | ok related => exact ⟨_, related⟩

theorem Grows.bind {x : Run α} {f : α → Run β} (first : Grows φ x)
    (rest : ∀ a b, φ a b → Grows ψ (f a)) : Grows ψ (x >>= f) :=
  grows_iff.mpr ((grows_iff.mp first).bind fun a b related => grows_iff.mp (rest a b related))

theorem grows_pure {a b : α} (h : φ a b) : Grows φ (Pure.pure a) :=
  grows_iff.mpr (fulfils_pure h)

theorem grows_ofExcept (e : Except Fault α) (results : ∀ a, ∃ b, φ a b) :
    Grows φ (ofExcept e) :=
  grows_iff.mpr (fulfils_ofExcept (fun a _ => results a) fun _ _ => trivial)

/-- A frame of its own leaves the names in all the others. -/
theorem Grows.keeps_inScope {x : Run α} (grows : Grows φ x) :
    Keeps (fun env => env.frames.map Bindings.names) (Run.inScope x) := by
  intro m r m' h
  obtain ⟨m₁, hx, rfl⟩ := inScope_eq_some h
  exact (grows _ r m₁ hx).1.names_pop

end Run

/-- Evaluation lets the environment grow. -/
theorem grows_eval (fuel : Nat) (d : Datum) : (eval Host.empty fuel d).Grows Eq :=
  Run.grows_iff.mpr (Congruence.growth.eval Congruence.hosted_empty rfl d d rfl)

/-- So does a program, form by form. -/
theorem grows_evalText (fuel : Nat) (code : Text) :
    (Interpreter.evalText Host.empty fuel code).Grows Eq := by
  have evals : Congruence.growth.Evaluators (eval Host.empty fuel) (eval Host.empty fuel) :=
    Congruence.growth.eval Congruence.hosted_empty rfl
  refine (Run.grows_ofExcept (φ := Eq) _ fun forms => ⟨forms, rfl⟩).bind fun forms _ _ => ?_
  exact Run.grows_iff.mpr (Congruence.sequence evals (Matching.identity_refl forms))

section Consequences

variable {ev : Evaluator} (grows : ∀ d, (ev d).Grows Eq)

include grows

theorem keeps_ifThen (args : Datum) :
    (Forms.ifThen ev args).Keeps fun env => env.frames.map Bindings.names := by
  refine (Run.keeps_ofExcept _).bind fun items => ?_
  split
  next cond yes no =>
    refine Run.Grows.keeps_inScope (φ := Eq) ((grows cond).bind fun v _ _ => ?_)
    split
    · exact grows yes
    · split
      · exact grows _
      · exact Run.grows_pure rfl
  · exact Run.keeps_stop _

theorem keeps_whileLoop (fuel : Nat) (args : Datum) :
    (Forms.whileLoop ev fuel args).Keeps fun env => env.frames.map Bindings.names := by
  have evals : Congruence.growth.Evaluators ev ev := fun d _ _ => Run.grows_iff.mp (grows d)
  have items : (Arguments.oneAndRest args).Keeps fun env => env.frames.map Bindings.names := by
    refine (Run.keeps_ofExcept _).bind fun items => ?_
    split
    · exact Run.keeps_pure _
    · exact Run.keeps_stop _
  refine items.bind fun p => ?_
  have loop : (Forms.loop ev p.1 p.2 fuel).Grows fun _ _ => True :=
    Run.grows_iff.mpr (Congruence.loop evals (rfl : p.1 = p.1) (Matching.identity_refl _) rfl)
  exact loop.keeps_inScope.bind fun _ => Run.keeps_pure _

end Consequences

/-- An inclusion leaves the frames as the evaluation of its argument left them, if there is one
argument, and else as they were. -/
theorem frames_includeFile {ev : Evaluator} {args : Datum} {m m' : Machine} {r : Except Stop Datum}
    (h : Console.includeFile ev args m = some (r, m')) :
    m'.env.frames = m.env.frames ∨ ∃ e s m₁, args = .ofList [e] ∧ ev e m = some (s, m₁) ∧
      m'.env.frames = m₁.env.frames := by
  rcases one_cases args with ⟨e, rfl⟩ | ⟨f, refused⟩
  · right
    have ends : ∃ s m₁, ev e m = some (s, m₁) ∧ m'.env.frames = m₁.env.frames := by
      refine Run.ends_of_bind (x := ev e) (fun name => ?_) h
      split
      · refine Run.keeps_world.bind fun w => ?_
        refine (Run.keeps_ofStop _).bind fun path => ?_
        refine (Run.keeps_note _ _).bind fun _ => ?_
        refine (Run.keeps_ofStop _).bind fun source => ?_
        exact (Run.keeps_ofExcept _).bind fun forms => Run.keeps_spawned _ _
      · exact Run.keeps_stop _
    obtain ⟨s, m₁, evaluated, frames⟩ := ends
    exact ⟨e, s, m₁, rfl, evaluated, frames⟩
  · left
    rw [Console.includeFile, refused] at h
    cases h
    rfl

/-- A call leaves the frames as the evaluation of its arguments left them. -/
theorem frames_applyFunction {ev : Evaluator} {params : List Text} {forms : List Datum}
    {args : Datum} {m m' : Machine} {r : Except Stop Datum}
    (h : Eval.applyFunction ev params forms args m = some (r, m')) :
    ∃ s m₁, Eval.operands ev args m = some (s, m₁) ∧ m'.env.frames = m₁.env.frames := by
  refine Run.ends_of_bind (fun values => ?_) h
  split
  · exact Run.keeps_stop _
  · exact Run.keeps_spawned _ _

/-- Evaluation keeps the depth of the stack and the names of the outer frames, and adds to the
innermost frame only names that were bound nowhere. Nothing stays of the frames of conditionals,
loops, calls and inclusions, whether they end in a value or not, and a program that fails leaves the
stack as deep as it was. -/
theorem eval_scope (fuel : Nat) (m : Machine) :
    (∀ d r m' inner outer, m.env.frames = inner :: outer →
      eval Host.empty fuel d m = some (r, m') →
        ∃ inner' outer' added, m'.env.frames = inner' :: outer' ∧
          outer'.map Bindings.names = outer.map Bindings.names ∧
          inner'.names = inner.names ++ added ∧
          ∀ x ∈ added, (∀ f ∈ inner :: outer, x ∉ f.names) ∧ x ∉ m.env.globals.names) ∧
    (∀ b args r m', b = .ifThen ∨ b = .whileLoop →
      Builtin.run (eval Host.empty fuel) fuel b args m = some (r, m') →
        m'.env.frames.map Bindings.names = m.env.frames.map Bindings.names) ∧
    (∀ params forms args r m',
      Eval.applyFunction (eval Host.empty fuel) params forms args m = some (r, m') →
        ∃ s m₁, Eval.operands (eval Host.empty fuel) args m = some (s, m₁) ∧
          m'.env.frames = m₁.env.frames) ∧
    (∀ args r m', Console.includeFile (eval Host.empty fuel) args m = some (r, m') →
      m'.env.frames = m.env.frames ∨ ∃ e s m₁, args = .ofList [e] ∧
        eval Host.empty fuel e m = some (s, m₁) ∧ m'.env.frames = m₁.env.frames) ∧
    ∀ code r m', Interpreter.evalText Host.empty fuel code m = some (r, m') →
      m'.env.frames.length = m.env.frames.length := by
  refine ⟨?_, ?_, ?_, ?_, ?_⟩
  · intro d r m' inner outer frames h
    have grown := (grows_eval fuel d m r m' h).1.frames
    rw [frames] at grown
    generalize m'.env.frames = after at grown
    cases grown with
    | @inner _ inner' _ outer' added names new tail =>
      refine ⟨inner', outer', added, rfl, tail, names, ?_⟩
      intro x hx
      have nowhere := Env.not_mem_of_unbound (new x hx)
      rw [frames] at nowhere
      exact nowhere
  · rintro b args r m' (rfl | rfl) h
    · exact keeps_ifThen (grows_eval fuel) args m r m' h
    · exact keeps_whileLoop (grows_eval fuel) fuel args m r m' h
  · intro params forms args r m' h
    exact frames_applyFunction h
  · intro args r m' h
    exact frames_includeFile h
  · intro code r m' h
    exact (grows_evalText fuel code m r m' h).1.frames.length

/-- One empty frame, no globals, and nothing outside. -/
def emptyMachine : Machine := ⟨.fresh .empty, ⟨.none, fun _ => .absent .missing, [], [], []⟩⟩

/-- The form that binds a name to `nil`. -/
def bindNil (name : Text) : Datum :=
  .ofList [.native (.builtin .assign), .symbol name, .nil]

/-- A sum that fails after it has made a local, a conditional and a call that make locals of their
own, an inclusion of what is no string, and a program of one name that nothing binds. -/
theorem eval_scope_sample :
    (∃ r m', eval Host.empty 3 (.ofList [.native (.builtin (.arithmetic .add)), bindNil ['x']])
        emptyMachine = some (r, m') ∧
      ∃ inner outer added, m'.env.frames = inner :: outer ∧ outer.map Bindings.names = [] ∧
        inner.names = [] ++ added ∧
        ∀ x ∈ added, (∀ f ∈ [Bindings.empty], x ∉ f.names) ∧ x ∉ Bindings.empty.names) ∧
    (∃ r m', Builtin.run (eval Host.empty 3) 3 .ifThen (.ofList [.truth, bindNil ['x']])
        emptyMachine = some (r, m') ∧ m'.env.frames.map Bindings.names = [[]]) ∧
    (∃ r m', Eval.applyFunction (eval Host.empty 3) [['p']] [bindNil ['x']]
        (.ofList [bindNil ['y']]) emptyMachine = some (r, m') ∧
      ∃ s m₁, Eval.operands (eval Host.empty 3) (.ofList [bindNil ['y']]) emptyMachine =
        some (s, m₁) ∧ m'.env.frames = m₁.env.frames) ∧
    (∃ r m', Console.includeFile (eval Host.empty 3) (.ofList [bindNil ['x']]) emptyMachine =
        some (r, m') ∧
      (m'.env.frames = emptyMachine.env.frames ∨ ∃ e s m₁,
        Datum.ofList [bindNil ['x']] = .ofList [e] ∧
          eval Host.empty 3 e emptyMachine = some (s, m₁) ∧
            m'.env.frames = m₁.env.frames)) ∧
    ∃ r m', Interpreter.evalText Host.empty 3 ['x'] emptyMachine = some (r, m') ∧
      m'.env.frames.length = 1 := by
  obtain ⟨scope, conditional, call, inclusion, program⟩ := eval_scope 3 emptyMachine
  have failed : Interpreter.evalText Host.empty 3 ['x'] emptyMachine =
      some (.error (.fault (.unevaluable (.unknownSymbol ['x']))), emptyMachine) := by
    have lexed : lex ['x'] = ⟨[⟨.atom, ['x']⟩], false⟩ := by cbv
    rw [Interpreter.evalText, FexprLisp.read, readForms, lexed]
    rfl
  refine ⟨⟨_, _, rfl, ?_⟩, ⟨_, _, rfl, ?_⟩, ⟨_, _, rfl, ?_⟩, ⟨_, _, rfl, ?_⟩, _, _, failed, ?_⟩
  · exact scope (.ofList [.native (.builtin (.arithmetic .add)), bindNil ['x']]) _ _ _ _ rfl rfl
  · exact conditional .ifThen (.ofList [.truth, bindNil ['x']]) _ _ (Or.inl rfl) rfl
  · exact call [['p']] [bindNil ['x']] (.ofList [bindNil ['y']]) _ _ rfl
  · exact inclusion (.ofList [bindNil ['x']]) _ _ rfl
  · exact program ['x'] _ _ failed

end FexprLisp
