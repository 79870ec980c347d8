import FexprLisp.Proofs.Frames

/-!
# Assignment along the chain

An assignment goes to the nearest table that holds its name, and to the innermost frame when none
does. It changes that table under that name and nothing else. The only environments that it cannot
change have no frame and no binding of the name. In a frame of its own, popped afterwards, it does
what it does without one, except that a local made there is gone again.
-/

namespace FexprLisp

namespace Env

/-- What an assignment makes of an environment: one table has the value under the name. -/
inductive Assigned (x : Text) (v : Datum) : Env → Env → Prop
  | frame {inner outer : List Bindings} {f globals : Bindings} :
      (∀ g ∈ inner, x ∉ g.names) → x ∈ f.names →
        Assigned x v ⟨inner ++ f :: outer, globals⟩ ⟨inner ++ f.put x v :: outer, globals⟩
  | global {frames : List Bindings} {globals : Bindings} :
      (∀ f ∈ frames, x ∉ f.names) → x ∈ globals.names →
        Assigned x v ⟨frames, globals⟩ ⟨frames, globals.put x v⟩
  | fresh {f : Bindings} {outer : List Bindings} {globals : Bindings} :
      (∀ g ∈ f :: outer, x ∉ g.names) → x ∉ globals.names →
        Assigned x v ⟨f :: outer, globals⟩ ⟨f.put x v :: outer, globals⟩

section Changed

variable {x : Text} {v : Datum} {a b : Env}

theorem local?_eq_none {fs : List Bindings} (unheld : ∀ f ∈ fs, x ∉ f.names) :
    local? fs x = none := by
  refine Option.not_isSome_iff_eq_none.mp fun bound => ?_
  obtain ⟨f, hf, held⟩ := (local?_isSome fs x).mp bound
  exact unheld f hf held

theorem unheld_of_local? {fs : List Bindings} (none : local? fs x = none) :
    ∀ f ∈ fs, x ∉ f.names := by
  intro f hf held
  have bound := (local?_isSome fs x).mpr ⟨f, hf, held⟩
  rw [none] at bound
  cases bound

/-- The frame that a local assignment changes is the innermost of those that hold the name. -/
theorem exists_nearest {fs gs : List Bindings} (h : assignLocal? x v fs = some gs) :
    ∃ inner f outer, fs = inner ++ f :: outer ∧ gs = inner ++ f.put x v :: outer ∧
      (∀ g ∈ inner, x ∉ g.names) ∧ x ∈ f.names := by
  induction fs generalizing gs with
  | nil => cases h
  | cons f fs ih =>
    rw [assignLocal?] at h
    split at h
    next held =>
      cases h
      exact ⟨[], f, fs, rfl, rfl, by simp, (f.holds_iff x).mp held⟩
    next unheld =>
      obtain ⟨gs, hgs, rfl⟩ := Option.map_eq_some_iff.mp h
      obtain ⟨inner, g, outer, rfl, rfl, passed, held⟩ := ih hgs
      refine ⟨f :: inner, g, outer, rfl, rfl, ?_, held⟩
      exact List.forall_mem_cons.mpr ⟨Bindings.not_mem_names (Bool.eq_false_iff.mpr unheld), passed⟩

theorem assigned_of_assign (h : a.assign? x v = some b) : Assigned x v a b := by
  obtain ⟨frames, globals⟩ := a
  rw [assign?] at h
  split at h
  next gs changed =>
    cases h
    obtain ⟨inner, f, outer, rfl, rfl, passed, held⟩ := exists_nearest changed
    exact .frame passed held
  next unchanged =>
    have passed := unheld_of_local? (local?_of_assignLocal_none unchanged)
    split at h
    next held =>
      cases h
      exact .global passed ((globals.holds_iff x).mp held)
    next unheld =>
      cases frames with
      | nil => cases h
      | cons f outer =>
        cases h
        exact .fresh passed (Bindings.not_mem_names (Bool.eq_false_iff.mpr unheld))

/-- The name shows the value, and the others show what they showed. -/
theorem Assigned.find? (assigned : Assigned x v a b) (y : Text) :
    b.find? y = if y = x then some v else a.find? y := by
  cases assigned with
  | frame passed _ =>
    rw [Env.find?, Env.find?, local?_append, local?_append, local?_cons_put]
    split
    next same => rw [same, local?_eq_none passed]; rfl
    next => rfl
  | global passed _ =>
    rw [Env.find?, Env.find?, Bindings.find?_put]
    split
    next same => rw [same, local?_eq_none passed]; rfl
    next => rfl
  | fresh _ _ =>
    rw [Env.find?, Env.find?, local?_cons_put]
    split
    next => rfl
    next => rfl

theorem Assigned.length (assigned : Assigned x v a b) : b.frames.length = a.frames.length := by
  cases assigned with
  | frame _ _ => simp
  | global _ _ => rfl
  | fresh _ _ => rfl

theorem Assigned.globals_names (assigned : Assigned x v a b) :
    b.globals.names = a.globals.names := by
  cases assigned with
  | frame _ _ => rfl
  | global _ held => exact Bindings.names_put_of_mem held v
  | fresh _ _ => rfl

end Changed

/-- A name is bound if a local assignment finds a frame for it, or if it is global. -/
theorem isBound_eq (env : Env) (x : Text) (v : Datum) :
    env.isBound x = ((assignLocal? x v env.frames).isSome || env.globals.holds x) := by
  rw [assignLocal_isSome, isBound, find?, Option.isSome_or, Bindings.holds]

/-- There is nothing to change only where there is no frame and no binding. -/
theorem assign?_eq_none_iff (env : Env) (x : Text) (v : Datum) :
    env.assign? x v = none ↔ env.frames = [] ∧ env.isBound x = false := by
  rw [isBound_eq env x v, assign?]
  cases assignLocal? x v env.frames with
  | some gs => simp
  | none =>
    cases env.globals.holds x with
    | true => simp
    | false => cases frames : env.frames <;> simp [bindLocal?, frames]

theorem isBound_iff_lookup (env : Env) {x : Text} (nonempty : x ≠ []) :
    env.isBound x = true ↔ ∃ d, env.lookup x = .ok d := by
  rw [isBound, lookup, if_neg nonempty]
  cases env.find? x <;> simp

/-- A frame of its own makes no difference to an assignment, unless it makes a local. -/
theorem pop_assign_push (env : Env) (x : Text) (v : Datum) :
    (env.push.assign? x v).map pop = if env.isBound x then env.assign? x v else some env := by
  have deeper : assignLocal? x v env.push.frames =
      (assignLocal? x v env.frames).map (.empty :: ·) := rfl
  rw [isBound_eq env x v, assign?, assign?, deeper]
  cases assignLocal? x v env.frames with
  | some gs => rfl
  | none => cases held : env.globals.holds x <;> simp [push, pop, bindLocal?, held]

/-- An assignment is refused only where there is neither a frame nor a binding. Otherwise its name
shows the value; all other names show what they showed; there are as many frames and the same
globals as before, with one change to the nearest table. A name is bound exactly if it shows a value.
With a frame pushed before it and popped after it the assignment is what it is alone if the name
is bound, and nothing if it is not. -/
theorem assign_on_chain (env : Env) {x : Text} (v : Datum) (nonempty : x ≠ []) :
    (env.assign? x v = none ↔ env.frames = [] ∧ env.isBound x = false) ∧
    (∀ after, env.assign? x v = some after →
      after.lookup x = .ok v ∧
      (∀ y, y ≠ x → after.lookup y = env.lookup y ∧ after.isBound y = env.isBound y) ∧
      after.frames.length = env.frames.length ∧ Assigned x v env after ∧
      after.globals.names = env.globals.names) ∧
    (env.isBound x = true ↔ ∃ d, env.lookup x = .ok d) ∧
    (env.push.assign? x v).map pop = if env.isBound x then env.assign? x v else some env := by
  refine ⟨assign?_eq_none_iff env x v, ?_, isBound_iff_lookup env nonempty, pop_assign_push env x v⟩
  intro after h
  have assigned := assigned_of_assign h
  have shown := assigned.find?
  refine ⟨?_, ?_, assigned.length, assigned, assigned.globals_names⟩
  · rw [lookup, if_neg nonempty, shown, if_pos rfl]
  · intro y other
    rw [lookup, lookup, isBound, isBound, shown, if_neg other]
    exact ⟨rfl, rfl⟩

/-- A local that hides a global, behind a frame that binds another name. -/
def shadowed : Env :=
  ⟨[⟨[(['y'], .nil)]⟩, ⟨[(['x'], .nil), (['z'], .truth)]⟩], ⟨[(['x'], .truth)]⟩⟩

theorem assign_on_chain_shadowed :
    ['x'] ≠ [] ∧ ∃ after, shadowed.assign? ['x'] (.char 'a') = some after ∧
      after.lookup ['x'] = .ok (.char 'a') ∧ after.lookup ['y'] = shadowed.lookup ['y'] ∧
      after.globals.names = shadowed.globals.names ∧
      (shadowed.push.assign? ['x'] (.char 'a')).map pop = shadowed.assign? ['x'] (.char 'a') := by
  have nonempty : ['x'] ≠ [] := List.cons_ne_nil _ _
  obtain ⟨_, changes, _, inScope⟩ := assign_on_chain shadowed (.char 'a') nonempty
  obtain ⟨value, others, _, _, globals⟩ := changes _ rfl
  exact ⟨nonempty, _, rfl, value, (others ['y'] (by decide)).1, globals, inScope⟩

/-- With no frame left there is no place for a new binding. -/
theorem no_frame_to_assign_in :
    ¬ ∀ (env : Env) (x : Text) (v : Datum), x ≠ [] →
      ∃ after, env.assign? x v = some after ∧ after.lookup x = .ok v := by
  intro all
  obtain ⟨after, assigned, _⟩ := all ⟨[], .empty⟩ ['x'] .truth (List.cons_ne_nil _ _)
  cases assigned

end Env

end FexprLisp
