import FexprLisp.Eval

/-!
# Runs

How the computations that builtins are made of end, and what they leave of the environment.
-/

namespace FexprLisp

/-- What a call of a native function makes of the stop that the function comes to. -/
def Stop.escaping : Stop → Stop
  | fault f => fault f.escaping
  | s => s

namespace Run

variable {α β γ : Type} {view : Env → γ}

theorem bind_assoc (x : Run α) (f : α → Run β) (g : β → Run γ) :
    x >>= f >>= g = x >>= fun a => f a >>= g := by
  funext m
  simp only [bind_apply]
  rcases x m with _ | ⟨_ | _, _⟩ <;> rfl

theorem bind_pure (x : Run α) : x >>= Pure.pure = x := by
  funext m
  rw [bind_apply]
  rcases x m with _ | ⟨_ | _, _⟩ <;> rfl

theorem bind_of_ok {x : Run α} {f : α → Run β} {m m' : Machine} {a : α}
    (h : x m = some (.ok a, m')) : (x >>= f) m = f a m' := by
  rw [bind_apply, h]

theorem bind_of_error {x : Run α} {f : α → Run β} {m m' : Machine} {e : Stop}
    (h : x m = some (.error e, m')) : (x >>= f) m = some (.error e, m') := by
  rw [bind_apply, h]

theorem bind_eq_ok {x : Run α} {f : α → Run β} {m m' : Machine} {b : β}
    (h : (x >>= f) m = some (.ok b, m')) :
    ∃ a m₁, x m = some (.ok a, m₁) ∧ f a m₁ = some (.ok b, m') := by
  rw [bind_apply] at h
  split at h
  · cases h
  next a m₁ hx => exact ⟨a, m₁, hx, h⟩
  · cases h

theorem ofExcept_eq_ok {e : Except Fault α} {m m' : Machine} {a : α}
    (h : ofExcept e m = some (.ok a, m')) : e = .ok a ∧ m = m' := by
  cases e with
  | ok b =>
    cases h
    exact ⟨rfl, rfl⟩
  | error f => cases h

theorem bindGlobal_of_ok {name : Text} {value : Datum} {m : Machine} {b : Env}
    (h : m.env.bindGlobal name value = .ok b) :
    Forms.bindGlobal name value m = some (.ok (), { m with env := b }) := by
  simp [Forms.bindGlobal, bind_apply, Run.env, h, ofExcept, Run.pure, setEnv]

theorem bindGlobal_of_error {name : Text} {value : Datum} {m : Machine} {f : Fault}
    (h : m.env.bindGlobal name value = .error f) :
    Forms.bindGlobal name value m = some (.error (.fault f), m) := by
  simp [Forms.bindGlobal, bind_apply, Run.env, h, ofExcept, fail, stop]

theorem assignTo_of_some {name : Text} {value : Datum} {m : Machine} {b : Env}
    (h : m.env.assign? name value = some b) :
    Forms.assignTo name value m = some (.ok (), { m with env := b }) := by
  simp [Forms.assignTo, bind_apply, Run.env, h, setEnv]

theorem assignTo_of_none {name : Text} {value : Datum} {m : Machine}
    (h : m.env.assign? name value = none) :
    Forms.assignTo name value m = some (.error .noFrame, m) := by
  simp [Forms.assignTo, bind_apply, Run.env, h, stop]

theorem inScope_apply (x : Run α) (m : Machine) :
    inScope x m = (x { m with env := m.env.push }).map fun p =>
      (p.1, { p.2 with env := p.2.env.pop }) := by
  rw [inScope]
  cases x { m with env := m.env.push } <;> rfl

theorem withFrames_apply (frames : List Bindings) (x : Run α) (m : Machine) :
    withFrames frames x m = (x { m with env := { m.env with frames } }).map fun p =>
      (p.1, { p.2 with env := { p.2.env with frames := m.env.frames } }) := by
  rw [withFrames]
  cases x { m with env := { m.env with frames } } <;> rfl

/-- How a computation in a frame of its own ends. -/
theorem inScope_eq_some {x : Run α} {m m' : Machine} {r : Except Stop α}
    (h : inScope x m = some (r, m')) :
    ∃ m₁, x { m with env := m.env.push } = some (r, m₁) ∧ m' = { m₁ with env := m₁.env.pop } := by
  rw [inScope] at h
  split at h
  · cases h
  next r' m₁ hx =>
    cases h
    exact ⟨m₁, hx, rfl⟩

theorem withFrames_eq_some {frames : List Bindings} {x : Run α} {m m' : Machine}
    {r : Except Stop α} (h : withFrames frames x m = some (r, m')) :
    ∃ m₁, x { m with env := { m.env with frames } } = some (r, m₁) ∧
      m' = { m₁ with env := { m₁.env with frames := m.env.frames } } := by
  rw [withFrames] at h
  split at h
  · cases h
  next r' m₁ hx =>
    cases h
    exact ⟨m₁, hx, rfl⟩

/-- Where a fault comes from that has been passed through `f`. -/
theorem mapFault_eq_fault {f : Fault → Fault} {x : Run α} {m m' : Machine} {e : Fault}
    (h : mapFault f x m = some (.error (.fault e), m')) :
    ∃ e', x m = some (.error (.fault e'), m') ∧ e = f e' := by
  rw [mapFault] at h
  split at h
  next e' m₁ hx =>
    cases h
    exact ⟨e', hx, rfl⟩
  next other => exact absurd h (other e m')

theorem mapFault_escaping (x : Run α) (m : Machine) :
    mapFault .escaping x m = (x m).map fun p => (p.1.mapError Stop.escaping, p.2) := by
  rw [mapFault]
  rcases x m with _ | ⟨e | a, m'⟩
  · rfl
  · cases e <;> rfl
  · rfl

/-- Ends with results that are related, or by stops that are. -/
inductive SameEnd (Stops : Stop → Stop → Prop) (φ : α → α → Prop) :
    Except Stop α → Except Stop α → Prop
  | ok {a b : α} : φ a b → SameEnd Stops φ (.ok a) (.ok b)
  | error {e e' : Stop} : Stops e e' → SameEnd Stops φ (.error e) (.error e')

theorem SameEnd.eq {r s : Except Stop α} (same : SameEnd Eq Eq r s) : r = s := by
  cases same with
  | ok same => exact congrArg Except.ok same
  | error same => exact congrArg Except.error same

/-- Every end of a computation leaves what `view` shows of the environment. -/
def Keeps (view : Env → γ) (x : Run α) : Prop :=
  ∀ m r m', x m = some (r, m') → view m'.env = view m.env

theorem keeps_pure (a : α) : Keeps view (Pure.pure a) := by
  intro m r m' h
  cases h
  rfl

theorem keeps_stop (e : Stop) : Keeps view (stop e : Run α) := by
  intro m r m' h
  cases h
  rfl

theorem keeps_ofExcept (e : Except Fault α) : Keeps view (ofExcept e) := by
  cases e with
  | ok a => exact keeps_pure a
  | error f => exact keeps_stop _

theorem keeps_ofStop (e : Except Stop α) : Keeps view (ofStop e) := by
  cases e with
  | ok a => exact keeps_pure a
  | error f => exact keeps_stop _

/-- What follows a computation keeps what that computation left. -/
theorem ends_of_bind {x : Run α} {f : α → Run β} (rest : ∀ a, Keeps view (f a)) {m m' : Machine}
    {r : Except Stop β} (h : (x >>= f) m = some (r, m')) :
    ∃ s m₁, x m = some (s, m₁) ∧ view m'.env = view m₁.env := by
  rw [bind_apply] at h
  split at h
  · cases h
  next a m₁ hx => exact ⟨.ok a, m₁, hx, rest a m₁ r m' h⟩
  next e m₁ hx =>
    cases h
    exact ⟨.error e, m', hx, rfl⟩

theorem Keeps.bind {x : Run α} {f : α → Run β} (first : Keeps view x)
    (rest : ∀ a, Keeps view (f a)) : Keeps view (x >>= f) := by
  intro m r m' h
  obtain ⟨s, m₁, hx, same⟩ := ends_of_bind rest h
  exact same.trans (first m s m₁ hx)

theorem keeps_world : Keeps view world := by
  intro m r m' h
  cases h
  rfl

theorem keeps_setWorld (w : World) : Keeps view (setWorld w) := by
  intro m r m' h
  cases h
  rfl

theorem keeps_write (t : Text) : Keeps view (write t) := by
  intro m r m' h
  cases h
  rfl

theorem keeps_note (source : LogSource) (t : Text) : Keeps view (note source t) := by
  intro m r m' h
  cases h
  rfl

theorem keeps_spawnNote : Keeps view Console.spawnNote := by
  intro m r m' h
  cases h
  rfl

/-- A call or an inclusion puts back the very frames that it found. -/
theorem keeps_spawned (frame : Bindings) (x : Run Datum) :
    Keeps Env.frames (Console.spawned frame x) := by
  refine keeps_spawnNote.bind fun _ => ?_
  intro m r m' h
  obtain ⟨m₁, _, rfl⟩ := withFrames_eq_some h
  rfl

end Run

theorem isProper_iff {d : Datum} : d.isProper = true ↔ d.terminator = .nil := by
  rw [Datum.isProper]
  cases d.terminator <;> simp [Datum.isTrue]

theorem ofList_elements {d : Datum} (ends : d.terminator = .nil) : .ofList d.elements = d := by
  have whole := d.chain_elements
  rwa [ends] at whole

/-- Arguments that pass the check are a proper list of a length within the bounds. -/
theorem split_eq_ok {args : Datum} {required : Nat} {most : Option Nat} {items : List Datum}
    (h : Arguments.split args required most = .ok items) :
    args = .ofList items ∧ required ≤ items.length ∧ ∀ n ∈ most, items.length ≤ n := by
  rw [Arguments.split] at h
  split at h
  · cases h
  next proper =>
    split at h
    · cases h
    next enough =>
      split at h
      · cases h
      next few =>
        cases h
        have ends : args.terminator = .nil := isProper_iff.mp (by simpa using proper)
        refine ⟨(ofList_elements ends).symm, by omega, ?_⟩
        rintro n rfl
        simp only [Option.any_some, decide_eq_true_eq] at few
        omega

theorem elements_ofList (items : List Datum) : (Datum.ofList items).elements = items := by
  rw [Datum.ofList, Datum.elements_chain]
  exact List.append_nil items

theorem isProper_ofList (items : List Datum) : (Datum.ofList items).isProper = true := by
  rw [Datum.isProper, Datum.ofList, Datum.terminator_chain]
  rfl

theorem split_ofList {items : List Datum} {required : Nat} {most : Option Nat}
    (enough : required ≤ items.length) (few : ∀ n ∈ most, items.length ≤ n) :
    Arguments.split (.ofList items) required most = .ok items := by
  have bounded : most.any (· < items.length) = false := by
    cases most with
    | none => rfl
    | some n => simpa using few n rfl
  simp [Arguments.split, elements_ofList, isProper_ofList, bounded, enough]

theorem one_ofList (d : Datum) : Arguments.one (.ofList [d]) = pure d := rfl

theorem oneAndRest_ofList (a : Datum) (rest : List Datum) :
    Arguments.oneAndRest (.ofList (a :: rest)) = pure (a, rest) := by
  rw [Arguments.oneAndRest, split_ofList (by simp) (by simp)]
  rfl

/-- An argument list of exactly one argument, or a complaint about it. -/
theorem one_cases (args : Datum) :
    (∃ e, args = .ofList [e]) ∨ ∃ f, Arguments.one args = Run.fail f := by
  cases h : Arguments.split args 1 (some 1) with
  | error f => exact Or.inr ⟨f, by rw [Arguments.one, h]; rfl⟩
  | ok items =>
    obtain ⟨whole, enough, few⟩ := split_eq_ok h
    have single := Nat.le_antisymm (few 1 rfl) enough
    obtain ⟨e, rfl⟩ := List.length_eq_one_iff.mp single
    exact Or.inl ⟨e, whole⟩

namespace Eval

variable {host : Host} {ev : Evaluator}

/-- What a call of a native function runs, if there is such a function. -/
def callee (host : Host) (fuel : Nat) : Native → Option HostFunction
  | .builtin b => some fun ev => b.run ev fuel
  | .host name | .nameless name => host name

theorem applyNative_of_callee {fuel : Nat} {f : Native} {run : HostFunction} (args : Datum)
    (found : callee host fuel f = some run) :
    applyNative host ev fuel f args = .mapFault .escaping (run ev args) := by
  cases f with
  | builtin b =>
    cases found
    rfl
  | host name | nameless name =>
    rw [callee] at found
    rw [applyNative, found]

theorem applyNative_of_no_callee {fuel : Nat} {f : Native} (args : Datum)
    (missing : callee host fuel f = none) :
    applyNative host ev fuel f args = .fail (.unevaluable (.nonFunction (.native f))) := by
  cases f with
  | builtin b => cases missing
  | host name | nameless name =>
    rw [callee] at missing
    rw [applyNative, missing]

end Eval

section Calls

variable {host : Host} {fuel : Nat} {head args : Datum} {m m₁ m₂ : Machine} {s : Stop}

theorem eval_of_head_stops (h : eval host fuel head m = some (.error s, m₁)) :
    eval host (fuel + 1) (.pair head args) m = some (.error s, m₁) := by
  rw [eval, Eval.step, Run.bind_of_error h]

/-- A call of a native function receives its arguments as they stand. -/
theorem eval_of_callee {f : Native} {run : HostFunction}
    (function : eval host fuel head m = some (.ok (.native f), m₁))
    (found : Eval.callee host fuel f = some run) :
    eval host (fuel + 1) (.pair head args) m =
      Run.mapFault .escaping (run (eval host fuel) args) m₁ := by
  rw [eval, Eval.step, Run.bind_of_ok function, ← Eval.applyNative_of_callee args found]

theorem eval_builtin (host : Host) (fuel : Nat) (b : Builtin) (args : Datum) :
    eval host (fuel + 2) (.pair (.native (.builtin b)) args) =
      .mapFault .escaping (b.run (eval host (fuel + 1)) (fuel + 1) args) := rfl

/-- A native function that stops makes its call stop, on the machine that it leaves. -/
theorem eval_of_callee_stops {f : Native} {run : HostFunction}
    (function : eval host fuel head m = some (.ok (.native f), m₁))
    (found : Eval.callee host fuel f = some run)
    (stops : run (eval host fuel) args m₁ = some (.error s, m₂)) :
    eval host (fuel + 1) (.pair head args) m = some (.error s.escaping, m₂) := by
  rw [eval_of_callee function found, Run.mapFault, stops]
  cases s <;> rfl

/-- A call of an interpreted function is on its own after its head. -/
theorem eval_of_function {params : List Text} {forms : List Datum}
    (function : eval host fuel head m = some (.ok (.func params forms), m₁)) :
    eval host (fuel + 1) (.pair head args) m =
      Eval.applyFunction (eval host fuel) params forms args m₁ := by
  rw [eval, Eval.step, Run.bind_of_ok function]

end Calls

end FexprLisp
