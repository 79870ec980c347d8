import FexprLisp.Proofs.Evaluation
import FexprLisp.Proofs.Runs

/-!
# Promises

A promise says of every end that a computation comes to what holds of the environment it leaves, how
that environment differs from the one it found, and which stops the end can be. If the operations on
environments keep a promise, then it is a congruence, and evaluation keeps it too.
-/

namespace FexprLisp

/-- The stops that reading and evaluating come to of their own accord, before any layers are put
around a fault. -/
inductive Stop.Own : Stop → Prop
  | unknownSymbol (name : Text) : Own (.fault (.unevaluable (.unknownSymbol name)))
  | globalExists (name : Text) : Own (.fault (.unevaluable (.globalExists name)))
  | nonFunction (value : Datum) : Own (.fault (.unevaluable (.nonFunction value)))
  | invalidArguments (f : ArgumentFault) : Own (.fault (.invalidArguments f))
  | badArguments (f : ArgumentFault) : Own (.fault (.badArguments f))
  | unreadable {t : Text} {f : Fault} : read t = .error f → Own (.fault f)
  | outside {e : Stop} : (∀ f, e ≠ .fault f) → Own e

structure Promise where
  /-- What holds of the environment, before and after. -/
  Holds : Env → Prop
  Change : Env → Env → Prop
  Stops : Stop → Prop
  refl (a : Env) : Change a a
  trans {a b c : Env} : Change a b → Change b c → Change a c

namespace Promise

variable {α β : Type} {φ : α → α → Prop} {ψ : β → β → Prop}

/-- An end that the promise allows. A value is related to some value. -/
inductive Ends (p : Promise) (φ : α → α → Prop) : Except Stop α → Prop
  | ok {a b : α} : φ a b → Ends p φ (.ok a)
  | error {e : Stop} : p.Stops e → Ends p φ (.error e)

/-- What is promised of an end that a computation came to from `a`. -/
structure After (p : Promise) (φ : α → α → Prop) (a : Env) (r : Except Stop α) (b : Env) :
    Prop where
  holds : p.Holds b
  change : p.Change a b
  ends : p.Ends φ r

end Promise

namespace Run

variable {α β : Type} {φ : α → α → Prop} {ψ : β → β → Prop} {p : Promise}

/-- Every end of a computation is as promised. -/
def Fulfils (p : Promise) (φ : α → α → Prop) (x : Run α) : Prop :=
  ∀ m r m', p.Holds m.env → x m = some (r, m') → p.After φ m.env r m'.env

theorem Fulfils.bind {x : Run α} {f : α → Run β} (first : x.Fulfils p φ)
    (rest : ∀ a b, φ a b → (f a).Fulfils p ψ) : (x >>= f).Fulfils p ψ := by
  intro m r m' holds h
  rw [bind_apply] at h
  split at h
  · cases h
  next a m₁ hx =>
    have before := first m _ m₁ holds hx
    cases before.ends with
    | ok related =>
      have after := rest _ _ related m₁ r m' before.holds h
      exact ⟨after.holds, p.trans before.change after.change, after.ends⟩
  next e m₁ hx =>
    cases h
    have before := first m _ _ holds hx
    cases before.ends with
    | error stops => exact ⟨before.holds, before.change, .error stops⟩

/-- A computation that leaves the environment alone. -/
theorem fulfils_of_keeps {x : Run α} (keeps : Keeps id x)
    (ends : ∀ m r m', x m = some (r, m') → p.Ends φ r) : x.Fulfils p φ := by
  intro m r m' holds h
  have same : m'.env = m.env := keeps m r m' h
  rw [same]
  exact ⟨holds, p.refl _, ends m r m' h⟩

theorem fulfils_pure {a b : α} (h : φ a b) : (Pure.pure a : Run α).Fulfils p φ := by
  refine fulfils_of_keeps (keeps_pure a) ?_
  intro m r m' run
  cases run
  exact .ok h

theorem fulfils_stop {e : Stop} (h : p.Stops e) : (stop e : Run α).Fulfils p φ := by
  refine fulfils_of_keeps (keeps_stop e) ?_
  intro m r m' run
  cases run
  exact .error h

theorem fulfils_outOfFuel : (outOfFuel : Run α).Fulfils p φ := by
  intro m r m' _ h
  cases h

theorem fulfils_ofExcept {e : Except Fault α} (values : ∀ a, e = .ok a → ∃ b, φ a b)
    (faults : ∀ f, e = .error f → p.Stops (.fault f)) : (ofExcept e).Fulfils p φ := by
  cases e with
  | ok a =>
    obtain ⟨b, h⟩ := values a rfl
    exact fulfils_pure h
  | error f => exact fulfils_stop (faults f rfl)

/-- A computation that looks at the environment may rely on what holds of it. -/
theorem fulfils_env {f : Env → Run α} (rest : ∀ e, p.Holds e → (f e).Fulfils p φ) :
    (Run.env >>= f).Fulfils p φ :=
  fun m r m' holds h => rest m.env holds m r m' holds h

theorem fulfils_world {φ : World → World → Prop} (same : ∀ w, φ w w) : world.Fulfils p φ := by
  refine fulfils_of_keeps keeps_world ?_
  intro m r m' run
  cases run
  exact .ok (same _)

theorem fulfils_setWorld (w : World) : (setWorld w).Fulfils p fun _ _ => True := by
  refine fulfils_of_keeps (keeps_setWorld w) ?_
  intro m r m' run
  cases run
  exact .ok (b := ()) trivial

theorem fulfils_write (t : Text) : (write t).Fulfils p fun _ _ => True := by
  refine fulfils_of_keeps (keeps_write t) ?_
  intro m r m' run
  cases run
  exact .ok (b := ()) trivial

theorem fulfils_note (source : LogSource) (t : Text) :
    (note source t).Fulfils p fun _ _ => True := by
  refine fulfils_of_keeps (keeps_note source t) ?_
  intro m r m' run
  cases run
  exact .ok (b := ()) trivial

theorem fulfils_spawnNote : Console.spawnNote.Fulfils p fun _ _ => True :=
  fulfils_env fun _ _ => fulfils_note _ _

theorem Fulfils.inScope {x : Run α} (inner : x.Fulfils p φ)
    (push : ∀ a, p.Holds a → p.Holds a.push)
    (pop : ∀ a b, p.Holds a → p.Holds b → p.Change a.push b → p.Holds b.pop ∧ p.Change a b.pop) :
    (inScope x).Fulfils p φ := by
  intro m r m' holds h
  obtain ⟨m₁, hx, rfl⟩ := inScope_eq_some h
  have within := inner _ r m₁ (push _ holds) hx
  obtain ⟨after, change⟩ := pop _ _ holds within.holds within.change
  exact ⟨after, change, within.ends⟩

theorem Fulfils.withFrames {x : Run α} (inner : x.Fulfils p φ) (frames : List Bindings)
    (enter : ∀ a, p.Holds a → p.Holds { a with frames })
    (leave : ∀ a b, p.Holds a → p.Holds b → p.Change { a with frames } b →
      p.Holds { b with frames := a.frames } ∧ p.Change a { b with frames := a.frames }) :
    (withFrames frames x).Fulfils p φ := by
  intro m r m' holds h
  obtain ⟨m₁, hx, rfl⟩ := withFrames_eq_some h
  have within := inner _ r m₁ (enter _ holds) hx
  obtain ⟨after, change⟩ := leave _ _ holds within.holds within.change
  exact ⟨after, change, within.ends⟩

theorem Fulfils.mapFault {x : Run α} (inner : x.Fulfils p φ) {f : Fault → Fault}
    (faults : ∀ e, p.Stops (.fault e) → p.Stops (.fault (f e))) : (mapFault f x).Fulfils p φ := by
  intro m r m' holds h
  rw [Run.mapFault] at h
  split at h
  next e m₁ hx =>
    cases h
    have within := inner m _ _ holds hx
    cases within.ends with
    | error stops => exact ⟨within.holds, within.change, .error (faults e stops)⟩
  · exact inner m r m' holds h

end Run

namespace Promise

/-- The operations on environments keep a promise, with data that match. -/
structure Kept (p : Promise) (M : Matching) : Prop where
  name (n : Text) : M.Name n n
  forms {t : Text} {fs : List Datum} : read t = .ok fs → List.Forall₂ M.Data fs fs
  own {e : Stop} : e.Own → p.Stops e
  lookup {a : Env} {n n' : Text} {d : Datum} : p.Holds a → M.Name n n' → a.lookup n = .ok d →
    ∃ d', M.Data d d'
  bindGlobal {a b : Env} {n n' : Text} {v v' : Datum} : p.Holds a → M.Name n n' → M.Data v v' →
    a.bindGlobal n v = .ok b → p.Holds b ∧ p.Change a b
  assign {a b : Env} {n n' : Text} {v v' : Datum} : M.Known (.builtin .assign) → p.Holds a →
    M.Name n n' → M.Data v v' → a.assign? n v = some b → p.Holds b ∧ p.Change a b
  push (a : Env) : p.Holds a → p.Holds a.push
  pop (a b : Env) : p.Holds a → p.Holds b → p.Change a.push b → p.Holds b.pop ∧ p.Change a b.pop
  enter {ps ps' : List Text} {vs vs' : List Datum} (a : Env) : List.Forall₂ M.Name ps ps' →
    List.Forall₂ M.Data vs vs' → p.Holds a →
      p.Holds { a with frames := [Bindings.empty.putAll (ps.zip vs)] }
  leave {frames : List Bindings} (a b : Env) : p.Holds a → p.Holds b →
    p.Change { a with frames } b →
      p.Holds { b with frames := a.frames } ∧ p.Change a { b with frames := a.frames }

theorem lookup_eq_error {a : Env} {n : Text} {f : Fault} (h : a.lookup n = .error f) :
    f = .unevaluable (.unknownSymbol n) := by
  rw [Env.lookup] at h
  split at h
  · cases h
  · split at h
    · cases h
    · cases h
      rfl

theorem own_of_lookup {a : Env} {n : Text} {f : Fault} (h : a.lookup n = .error f) :
    Stop.Own (.fault f) := by
  rw [lookup_eq_error h]
  exact .unknownSymbol n

theorem bindGlobal_eq_error {a : Env} {n : Text} {v : Datum} {f : Fault}
    (h : a.bindGlobal n v = .error f) : f = .unevaluable (.globalExists n) := by
  rw [Env.bindGlobal] at h
  split at h
  · cases h
    rfl
  · cases h

theorem exists?_eq_error {w : World} {path : Path} {e : Stop} (h : w.exists? path = .error e) :
    ∀ f, e ≠ .fault f := by
  rw [World.exists?] at h
  split at h
  · cases h
  · split at h
    · cases h
    · cases h
    · split at h
      · cases h
      · cases h
        simp

theorem firstExisting?_eq_error {w : World} {paths : List Path} {e : Stop}
    (h : w.firstExisting? paths = .error e) : ∀ f, e ≠ .fault f := by
  induction paths with
  | nil => cases h
  | cons path paths ih =>
    rw [World.firstExisting?] at h
    split at h
    · cases h
    · exact ih h
    next e' missing =>
      cases h
      exact exists?_eq_error missing

theorem resolve_eq_error {w : World} {name : Text} {e : Stop} (h : w.resolve name = .error e) :
    ∀ f, e ≠ .fault f := by
  unfold World.resolve at h
  dsimp only at h
  split at h
  · cases h
  · split at h
    · cases h
    next e' missing =>
      cases h
      exact firstExisting?_eq_error missing

theorem readFile_eq_error {w : World} {path : Path} {e : Stop} (h : w.readFile path = .error e) :
    ∀ f, e ≠ .fault f := by
  rw [World.readFile] at h
  split at h
  · cases h
    simp
  · split at h
    · split at h <;> cases h
      simp
    · cases h
      simp
    · cases h
      simp

variable {p : Promise} {M : Matching}

theorem Kept.lookups (kept : p.Kept M) {n n' : Text} (same : M.Name n n') :
    (Run.env >>= fun e => Run.ofExcept (e.lookup n)).Fulfils p M.Data :=
  Run.fulfils_env fun _ holds => Run.fulfils_ofExcept (fun _ h => kept.lookup holds same h)
    fun _ h => kept.own (own_of_lookup h)

theorem Kept.bindsGlobal (kept : p.Kept M) {n n' : Text} {v v' : Datum} (name : M.Name n n')
    (value : M.Data v v') : (Forms.bindGlobal n v).Fulfils p fun _ _ => True := by
  intro m r m' holds run
  cases h : m.env.bindGlobal n v with
  | ok b =>
    rw [Run.bindGlobal_of_ok h] at run
    cases run
    obtain ⟨after, change⟩ := kept.bindGlobal holds name value h
    exact ⟨after, change, .ok (b := ()) trivial⟩
  | error f =>
    rw [Run.bindGlobal_of_error h] at run
    cases run
    rw [bindGlobal_eq_error h]
    exact ⟨holds, p.refl _, .error (kept.own (.globalExists n))⟩

theorem Kept.assigns (kept : p.Kept M) (known : M.Known (.builtin .assign)) {n n' : Text}
    {v v' : Datum} (name : M.Name n n') (value : M.Data v v') :
    (Forms.assignTo n v).Fulfils p fun _ _ => True := by
  intro m r m' holds run
  cases h : m.env.assign? n v with
  | some b =>
    rw [Run.assignTo_of_some h] at run
    cases run
    obtain ⟨after, change⟩ := kept.assign known holds name value h
    exact ⟨after, change, .ok (b := ()) trivial⟩
  | none =>
    rw [Run.assignTo_of_none h] at run
    cases run
    exact ⟨holds, p.refl _, .error (kept.own (.outside (by simp)))⟩

theorem Kept.prompt (kept : p.Kept M) : Console.defaultPrompt.Fulfils p M.Data := by
  refine Run.fulfils_env fun e holds => ?_
  split
  · exact Run.fulfils_ofExcept (fun _ h => kept.lookup holds (kept.name _) h)
      fun _ h => kept.own (own_of_lookup h)
  · exact Run.fulfils_pure M.nil

/-- A promise that is kept is a congruence; the other side of it plays no part. -/
def Kept.congruence (kept : p.Kept M) : Congruence where
  toMatching := M
  Related φ x _ := x.Fulfils p φ
  Stops e _ := p.Stops e
  Fuels := Eq
  pure := Run.fulfils_pure
  bind first rest := first.bind rest
  stop := Run.fulfils_stop
  spent _ _ := Run.fulfils_outOfFuel
  burn := Congruence.burn_eq
  lookup := kept.lookups
  bindGlobal := kept.bindsGlobal
  assignTo known name value := kept.assigns known name value
  inScope inner := inner.inScope kept.push kept.pop
  spawned names values inner := Run.fulfils_spawnNote.bind fun _ _ _ =>
    inner.withFrames _ (fun a => kept.enter a names values) kept.leave
  printed _ := Run.fulfils_write _
  raw _ := Run.fulfils_write _
  note := Run.fulfils_note
  own :=
    { exit := fun _ => kept.own (.outside (by simp))
      invalid := fun f => kept.own (.invalidArguments f)
      bad := fun f => kept.own (.badArguments f)
      nonFunction := fun _ => kept.own (.nonFunction _) }

theorem Kept.readsOutside (kept : p.Kept M) :
    ReadsOutside M kept.congruence.Related kept.congruence.Stops where
  world := Run.fulfils_world .refl
  readLine := kept.congruence.readLine (Run.fulfils_world fun _ => rfl) Run.fulfils_setWorld
    (kept.own (.outside (by simp)))
  prompt := kept.prompt
  forms := kept.forms
  unreadable h := kept.own (.unreadable h)
  resolve h := kept.own (.outside (resolve_eq_error h))
  readFile h := kept.own (.outside (readFile_eq_error h))

/-- Layers around its faults do not break the promise. -/
def Kept.callCongruence (kept : p.Kept M)
    (escaping : ∀ e, p.Stops (.fault e) → p.Stops (.fault e.escaping)) : CallCongruence where
  toCongruence := kept.congruence
  outside _ := kept.readsOutside
  escaping inner := Run.Fulfils.mapFault inner escaping

end Promise

end FexprLisp
