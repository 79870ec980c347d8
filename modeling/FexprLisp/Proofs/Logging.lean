import FexprLisp.Proofs.Lines

/-!
# The log

The log is written and never read. So what an expression comes to does not depend on what has been
logged before, except that this stands in the log.
-/

namespace FexprLisp

/-- The same machine with another log. -/
def Machine.relogged (m : Machine) (log : List LogRecord) : Machine :=
  { m with world := { m.world with log } }

/-- Machines that differ in their logs at most. -/
def Machine.SameButLog (m n : Machine) : Prop := ∃ log, n = m.relogged log

theorem Machine.SameButLog.symm {m n : Machine} (same : m.SameButLog n) : n.SameButLog m := by
  obtain ⟨log, rfl⟩ := same
  exact ⟨m.world.log, rfl⟩

namespace Run

variable {α β : Type} {φ : α → α → Prop} {ψ : β → β → Prop}

/-- Related results on machines that differ in their logs at most, or no end at all. -/
inductive Unlogged (φ : α → α → Prop) : Option (Except Stop α × Machine) →
    Option (Except Stop α × Machine) → Prop
  | outOfFuel : Unlogged φ none none
  | ends {r s : Except Stop α} (m : Machine) (log : List LogRecord) : SameEnd Eq φ r s →
      Unlogged φ (some (r, m)) (some (s, m.relogged log))

/-- Two computations for which another log makes no difference but in the log. -/
def LogBlind (φ : α → α → Prop) (x y : Run α) : Prop :=
  ∀ m log, Unlogged φ (x m) (y (m.relogged log))

theorem LogBlind.bind {x y : Run α} {f g : α → Run β} (first : LogBlind φ x y)
    (rest : ∀ a b, φ a b → LogBlind ψ (f a) (g b)) : LogBlind ψ (x >>= f) (y >>= g) := by
  intro m log
  have met := first m log
  rw [bind_apply, bind_apply]
  generalize x m = o at met ⊢
  generalize y (m.relogged log) = p at met ⊢
  cases met with
  | outOfFuel => exact .outOfFuel
  | ends m' log' same =>
    cases same with
    | ok related => exact rest _ _ related m' log'
    | error same => exact .ends m' log' (.error same)

theorem logBlind_pure {a b : α} (related : φ a b) :
    LogBlind φ (Pure.pure a) (Pure.pure b) :=
  fun m log => .ends m log (.ok related)

theorem logBlind_stop (e : Stop) : LogBlind φ (stop e) (stop e) :=
  fun m log => .ends m log (.error rfl)

theorem logBlind_ofExcept (e : Except Fault α) (related : ∀ a, φ a a) :
    LogBlind φ (ofExcept e) (ofExcept e) := by
  cases e with
  | ok a => exact logBlind_pure (related a)
  | error f => exact logBlind_stop _

/-- A computation that begins with a look at the environment. -/
theorem logBlind_env {f : Env → Run α} (rest : ∀ env, LogBlind φ (f env) (f env)) :
    LogBlind φ (Run.env >>= f) (Run.env >>= f) :=
  fun m log => rest m.env m log

theorem logBlind_setEnv (env : Env) : LogBlind (fun _ _ => True) (setEnv env) (setEnv env) :=
  fun m log => .ends { m with env } log (.ok trivial)

theorem logBlind_write (t : Text) : LogBlind (fun _ _ => True) (write t) (write t) :=
  fun m log => .ends { m with world := m.world.write t } log (.ok trivial)

theorem logBlind_note (source : LogSource) (t : Text) :
    LogBlind (fun _ _ => True) (note source t) (note source t) :=
  fun m log => .ends { m with world := m.world.note source t } (log ++ [⟨source, t⟩]) (.ok trivial)

theorem logBlind_world : LogBlind World.SameOutside world world :=
  fun m log => .ends m log (.ok ⟨rfl, rfl⟩)

theorem logBlind_bindGlobal (name : Text) (value : Datum) :
    LogBlind (fun _ _ => True) (Forms.bindGlobal name value) (Forms.bindGlobal name value) :=
  logBlind_env fun _ => (logBlind_ofExcept (φ := Eq) _ fun _ => rfl).bind fun a b same => by
    rw [same]
    exact logBlind_setEnv b

theorem logBlind_assignTo (name : Text) (value : Datum) :
    LogBlind (fun _ _ => True) (Forms.assignTo name value) (Forms.assignTo name value) := by
  refine logBlind_env fun env => ?_
  split
  · exact logBlind_setEnv _
  · exact logBlind_stop _

theorem logBlind_defaultPrompt : LogBlind Eq Console.defaultPrompt Console.defaultPrompt := by
  refine logBlind_env fun env => ?_
  split
  · exact logBlind_ofExcept _ fun _ => rfl
  · exact logBlind_pure rfl

theorem logBlind_readLine (prompt : Text) :
    LogBlind Eq (Console.readLine prompt) (Console.readLine prompt) := by
  intro m log
  have input : (m.relogged log).world.input = m.world.input := rfl
  rw [readLine_apply, readLine_apply, input]
  cases nextLine? m.world.input with
  | none => exact .ends { m with world := m.world.write prompt } log (.error rfl)
  | some taken =>
    obtain ⟨line, rest⟩ := taken
    exact .ends { m with world := { m.world.write prompt with input := rest } } log (.ok rfl)

/-- What is done to the environment at whatever end leaves the world. -/
theorem Unlogged.map {o p : Option (Except Stop α × Machine)} (met : Unlogged φ o p)
    (restore : Env → Env) :
    Unlogged φ (o.map fun q => (q.1, { q.2 with env := restore q.2.env }))
      (p.map fun q => (q.1, { q.2 with env := restore q.2.env })) := by
  cases met with
  | outOfFuel => exact .outOfFuel
  | ends m log same => exact .ends { m with env := restore m.env } log same

theorem LogBlind.inScope {x y : Run α} (inner : LogBlind φ x y) :
    LogBlind φ (inScope x) (inScope y) := by
  intro m log
  rw [inScope_apply, inScope_apply]
  exact (inner { m with env := m.env.push } log).map Env.pop

theorem LogBlind.withFrames {x y : Run α} (inner : LogBlind φ x y) (frames : List Bindings) :
    LogBlind φ (withFrames frames x) (withFrames frames y) := by
  intro m log
  rw [withFrames_apply, withFrames_apply]
  exact (inner { m with env := { m.env with frames } } log).map
    fun env => { env with frames := m.env.frames }

theorem LogBlind.escaping {x y : Run α} (inner : LogBlind φ x y) :
    LogBlind φ (mapFault .escaping x) (mapFault .escaping y) := by
  intro m log
  have met := inner m log
  rw [mapFault_escaping, mapFault_escaping]
  generalize x m = o at met ⊢
  generalize y (m.relogged log) = p at met ⊢
  cases met with
  | outOfFuel => exact .outOfFuel
  | ends m' log' same =>
    cases same with
    | ok related => exact .ends m' log' (.ok related)
    | error same => exact .ends m' log' (.error (congrArg Stop.escaping same))

end Run

open Run in
/-- That nothing depends on the log. -/
def Likeness.logBlind : Likeness where
  Related := LogBlind
  Fuels := Eq
  pure := logBlind_pure
  bind := LogBlind.bind
  stop := logBlind_stop
  spent := by
    rintro _ _ k y rfl spent
    rw [spent rfl]
    exact fun _ _ => .outOfFuel
  burn := Congruence.burn_eq
  lookup _ := logBlind_env fun _ => logBlind_ofExcept _ fun _ => rfl
  bindGlobal := logBlind_bindGlobal
  assignTo := logBlind_assignTo
  inScope := LogBlind.inScope
  spawned _ _ _ inner :=
    (logBlind_env fun _ => logBlind_note _ _).bind fun _ _ _ => inner.withFrames _
  write := logBlind_write
  note := logBlind_note
  world := logBlind_world
  readLine := logBlind_readLine
  prompt := logBlind_defaultPrompt

def Congruence.logBlind : CallCongruence where
  toCongruence := Likeness.logBlind.congruence
  outside _ := Likeness.logBlind.readsOutside
  escaping := Run.LogBlind.escaping

/-- Another log makes no difference to an evaluation but in the log. -/
theorem logBlind_eval (fuel : Nat) (d : Datum) :
    Run.LogBlind Eq (eval Host.empty fuel d) (eval Host.empty fuel d) :=
  Congruence.logBlind.eval Congruence.hosted_empty rfl d d rfl

end FexprLisp
