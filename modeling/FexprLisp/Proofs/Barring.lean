import FexprLisp.Proofs.Correspondence

/-!
# Barred functions

An evaluation does without certain native functions if it makes no difference that a call of one of
them is stopped right away, by whatever stop. What is stopped there cannot read or include, so runs
of it correspond without the conditions on the outside world.
-/

namespace FexprLisp

namespace Eval

/-- Call a native function, unless it is barred. -/
def applyBarring (barred : Native → Bool) (e : Stop) (ev : Evaluator) (fuel : Nat) (f : Native)
    (args : Datum) : Run Datum :=
  if barred f then Run.stop e else applyNative Host.empty ev fuel f args

end Eval

/-- Evaluation that stops with `e` where a barred function is called. -/
def evalBarring (barred : Native → Bool) (e : Stop) : Nat → Datum → Run Datum
  | 0 => fun _ => Run.outOfFuel
  | fuel + 1 => Eval.stepWith (Eval.applyBarring barred e (evalBarring barred e fuel) fuel)
      (evalBarring barred e fuel)

/-- The evaluation of an expression calls no barred function, whether it comes to an end or not. -/
def CallsNone (barred : Native → Bool) (d : Datum) (m : Machine) : Prop :=
  ∀ e fuel, evalBarring barred e fuel d m = eval Host.empty fuel d m

/-- The functions that take text from outside. -/
def Native.takesText (f : Native) : Bool := f = .builtin .read || f = .builtin .includeFile

namespace Run

variable {α β : Type} {φ : α → α → Prop} {ψ : β → β → Prop} {e : Stop}

/-- The same outcome, or the first run has been stopped. -/
inductive StoppedOr (e : Stop) (φ : α → α → Prop) : Option (Except Stop α × Machine) →
    Option (Except Stop α × Machine) → Prop
  | stopped (m : Machine) (o : Option (Except Stop α × Machine)) :
      StoppedOr e φ (some (.error e, m)) o
  | outOfFuel : StoppedOr e φ none none
  | ends {r s : Except Stop α} (m : Machine) : SameEnd Eq φ r s →
      StoppedOr e φ (some (r, m)) (some (s, m))

def GoesOn (e : Stop) (φ : α → α → Prop) (x y : Run α) : Prop := ∀ m, StoppedOr e φ (x m) (y m)

theorem goesOn_same {x : Run α} (related : ∀ a, φ a a) : GoesOn e φ x x := by
  intro m
  cases x m with
  | none => exact .outOfFuel
  | some p =>
    obtain ⟨r, m'⟩ := p
    cases r with
    | ok a => exact .ends m' (.ok (related a))
    | error e => exact .ends m' (.error rfl)

theorem GoesOn.bind {x y : Run α} {f g : α → Run β} (first : GoesOn e φ x y)
    (rest : ∀ a b, φ a b → GoesOn e ψ (f a) (g b)) : GoesOn e ψ (x >>= f) (y >>= g) := by
  intro m
  have met := first m
  rw [bind_apply, bind_apply]
  generalize x m = o at met ⊢
  generalize y m = p at met ⊢
  cases met with
  | stopped m' o => exact .stopped m' _
  | outOfFuel => exact .outOfFuel
  | ends m' result =>
    cases result with
    | ok related => exact rest _ _ related m'
    | error same => exact .ends m' (.error same)

/-- What is done to the environment at whatever end. -/
theorem StoppedOr.map {o p : Option (Except Stop α × Machine)} (met : StoppedOr e φ o p)
    (restore : Env → Env) :
    StoppedOr e φ (o.map fun q => (q.1, { q.2 with env := restore q.2.env }))
      (p.map fun q => (q.1, { q.2 with env := restore q.2.env })) := by
  cases met with
  | stopped m o => exact .stopped _ _
  | outOfFuel => exact .outOfFuel
  | ends m result => exact .ends _ result

theorem GoesOn.inScope {x y : Run α} (inner : GoesOn e φ x y) :
    GoesOn e φ (inScope x) (inScope y) := by
  intro m
  rw [inScope_apply, inScope_apply]
  exact (inner _).map Env.pop

theorem GoesOn.withFrames {x y : Run α} (inner : GoesOn e φ x y) (frames : List Bindings) :
    GoesOn e φ (withFrames frames x) (withFrames frames y) := by
  intro m
  rw [withFrames_apply, withFrames_apply]
  exact (inner _).map fun env => { env with frames := m.env.frames }

/-- A stop that no call changes stops everything around it. -/
theorem GoesOn.escaping (kept : e.escaping = e) {x y : Run α} (inner : GoesOn e φ x y) :
    GoesOn e φ (mapFault .escaping x) (mapFault .escaping y) := by
  intro m
  have met := inner m
  rw [mapFault_escaping, mapFault_escaping]
  generalize x m = o at met ⊢
  generalize y m = p at met ⊢
  cases met with
  | stopped m' o =>
    rw [Option.map_some, Except.mapError, kept]
    exact .stopped m' _
  | outOfFuel => exact .outOfFuel
  | ends m' result =>
    cases result with
    | ok related => exact .ends m' (.ok related)
    | error same => exact .ends m' (.error (congrArg Stop.escaping same))

end Run

open Run in
def Likeness.goesOn (e : Stop) : Likeness where
  Related := GoesOn e
  Fuels := Eq
  pure related _ := .ends _ (.ok related)
  bind := GoesOn.bind
  stop _ _ := .ends _ (.error rfl)
  spent := by
    rintro _ _ k y rfl spent
    rw [spent rfl]
    exact fun _ => .outOfFuel
  burn := Congruence.burn_eq
  lookup _ := goesOn_same fun _ => rfl
  bindGlobal _ _ := goesOn_same fun _ => trivial
  assignTo _ _ := goesOn_same fun _ => trivial
  inScope := GoesOn.inScope
  spawned _ _ _ inner := (goesOn_same (φ := Eq) fun _ => rfl).bind fun _ _ _ => inner.withFrames _
  write _ := goesOn_same fun _ => trivial
  note _ _ := goesOn_same fun _ => trivial
  world := goesOn_same .refl
  readLine _ := goesOn_same fun _ => rfl
  prompt := goesOn_same fun _ => rfl

def Congruence.goesOn {e : Stop} (kept : e.escaping = e) : CallCongruence where
  toCongruence := (Likeness.goesOn e).congruence
  outside _ := (Likeness.goesOn e).readsOutside
  escaping := Run.GoesOn.escaping kept

section Barred

variable {barred : Native → Bool} {e e' : Stop}

theorem goesOn_evalBarring (kept : e.escaping = e) (fuel : Nat) :
    (Likeness.goesOn e).congruence.Evaluators (evalBarring barred e fuel)
      (eval Host.empty fuel) := by
  induction fuel with
  | zero => exact fun _ _ _ _ => .outOfFuel
  | succ fuel ih =>
    intro d d' same
    rw [evalBarring, eval, Eval.step_eq_stepWith]
    refine Congruence.stepWith ?_ ih d d' same
    intro f args args' known same
    rw [Eval.applyBarring]
    split
    · exact fun m => .stopped m _
    · exact (Congruence.goesOn kept).applyNative Congruence.hosted_empty ih rfl known same

/-- An evaluation with barred functions is stopped there, or is like any other. -/
theorem evalBarring_cases (kept : e.escaping = e) (fuel : Nat) (d : Datum) (m : Machine) :
    (∃ m', evalBarring barred e fuel d m = some (.error e, m')) ∨
      evalBarring barred e fuel d m = eval Host.empty fuel d m := by
  have met : Run.StoppedOr e Eq (evalBarring barred e fuel d m) (eval Host.empty fuel d m) :=
    goesOn_evalBarring kept fuel d d rfl m
  generalize evalBarring barred e fuel d m = o at met ⊢
  generalize eval Host.empty fuel d m = p at met ⊢
  cases met with
  | stopped m' o => exact Or.inl ⟨m', rfl⟩
  | outOfFuel => exact Or.inr rfl
  | ends m' result => exact Or.inr (by rw [result.eq])

/-- Where nothing is taken from outside, runs correspond in spite of it. -/
theorem corresponds_evalBarring (c : Correspondence)
    (bars : ∀ b, b = .read ∨ b = .includeFile → barred (.builtin b) = true)
    (stops : c.Stops e e') (fuel : Nat) :
    c.congruence.Evaluators (evalBarring barred e fuel) (evalBarring barred e' fuel) := by
  induction fuel with
  | zero => exact fun _ _ _ => Correspondence.corresponds_outOfFuel
  | succ fuel ih =>
    intro d d' same
    rw [evalBarring, evalBarring]
    refine Congruence.stepWith ?_ ih d d' same
    intro f args args' known same
    rw [Eval.applyBarring, Eval.applyBarring]
    split
    · exact Correspondence.corresponds_stop stops
    next free =>
      cases f with
      | builtin b =>
        have inside (reads : b = .read ∨ b = .includeFile) :
            ReadsOutside c.congruence.toMatching c.congruence.Related c.congruence.Stops :=
          absurd (bars b reads) free
        exact Correspondence.Corresponds.escaping (Congruence.builtin known inside ih rfl same)
      | host name | nameless name =>
        exact Correspondence.corresponds_stop
          (c.own.nonFunction ((c.layer _ _).mpr (.native known)))

end Barred

end FexprLisp
