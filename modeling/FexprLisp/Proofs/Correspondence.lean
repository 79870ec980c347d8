import FexprLisp.Proofs.Evaluation
import FexprLisp.Proofs.Frames
import FexprLisp.Proofs.Runs

/-!
# Correspondences

Two runs of one program correspond if both come to an end or neither does, and both end in
corresponding ways in corresponding environments. If the operations on environments keep a relation
of environments, then evaluation keeps it. A stage tells in which way two environments are related;
a call enters frames of its own, where the stage is another.
-/

namespace FexprLisp

structure Correspondence extends Matching where
  Stage : Type
  /-- The stage of runs that have entered a frame of their own over the globals. -/
  alone : Stage
  Envs : Stage → Env → Env → Prop
  Worlds : World → World → Prop
  Stops : Stop → Stop → Prop
  empty {n n' : Text} : Name n n' → (n = [] ↔ n' = [])
  find? {i : Stage} {a b : Env} {n n' : Text} : Envs i a b → Name n n' →
    Option.Rel Data (a.find? n) (b.find? n')
  size {i : Stage} {a b : Env} : Envs i a b → a.globals.size = b.globals.size
  holds {i : Stage} {a b : Env} {n n' : Text} : Envs i a b → Name n n' →
    a.globals.holds n = b.globals.holds n'
  putGlobal {i : Stage} {a b : Env} {n n' : Text} {v v' : Datum} : Envs i a b → Name n n' →
    Data v v' → Envs i { a with globals := a.globals.put n v }
      { b with globals := b.globals.put n' v' }
  assign {i : Stage} {a b : Env} {n n' : Text} {v v' : Datum} : Envs i a b → Name n n' →
    Data v v' → Option.Rel (Envs i) (a.assign? n v) (b.assign? n' v')
  push {i : Stage} {a b : Env} : Envs i a b → Envs i a.push b.push
  pop {i : Stage} {a b a' b' : Env} : Envs i a b → Envs i a' b' → a.push.Grows a' →
    b.push.Grows b' → Envs i a'.pop b'.pop
  enter {i : Stage} {a b : Env} {ps ps' : List Text} {vs vs' : List Datum} : Envs i a b →
    List.Forall₂ Name ps ps' → List.Forall₂ Data vs vs' →
      Envs alone { a with frames := [Bindings.empty.putAll (ps.zip vs)] }
        { b with frames := [Bindings.empty.putAll (ps'.zip vs')] }
  leave {i : Stage} {a b a' b' : Env} : Envs i a b → Envs alone a' b' →
    Envs i { a' with frames := a.frames } { b' with frames := b.frames }
  note {w w' : World} (source : LogSource) (t : Text) : Worlds w w' →
    Worlds (w.note source t) (w'.note source t)
  printed {w w' : World} {v v' : Datum} : Worlds w w' → Data v v' →
    Worlds (w.write (Console.newline v.printed)) (w'.write (Console.newline v'.printed))
  raw {w w' : World} {v v' : Datum} : Worlds w w' → Data v v' →
    Worlds (w.write (Console.newline v.raw)) (w'.write (Console.newline v'.raw))
  own : OwnStops toMatching Stops
  noFrame : Stops .noFrame .noFrame
  unknownSymbol {n n' : Text} : Name n n' →
    Stops (.fault (.unevaluable (.unknownSymbol n))) (.fault (.unevaluable (.unknownSymbol n')))
  globalExists {n n' : Text} : Name n n' →
    Stops (.fault (.unevaluable (.globalExists n))) (.fault (.unevaluable (.globalExists n')))
  escaping {e e' : Stop} : Stops e e' → Stops e.escaping e'.escaping

namespace Correspondence

variable {α β : Type} {φ : α → α → Prop} {ψ : β → β → Prop} {c : Correspondence} {i : c.Stage}

/-- Machines with environments and worlds that correspond. -/
structure Machines (c : Correspondence) (i : c.Stage) (m n : Machine) : Prop where
  env : c.Envs i m.env n.env
  world : c.Worlds m.world n.world

/-- What two runs that started from `m` and `n` come to: corresponding ends, or no end at all. -/
inductive Meets (c : Correspondence) (i : c.Stage) (φ : α → α → Prop) (m n : Machine) :
    Option (Except Stop α × Machine) → Option (Except Stop α × Machine) → Prop
  | outOfFuel : Meets c i φ m n none none
  | ends {r s : Except Stop α} {m' n' : Machine} : Run.SameEnd c.Stops φ r s →
      c.Machines i m' n' → m.env.Grows m'.env → n.env.Grows n'.env →
        Meets c i φ m n (some (r, m')) (some (s, n'))

/-- At every stage the two computations come to the same. -/
def Corresponds (c : Correspondence) (φ : α → α → Prop) (x y : Run α) : Prop :=
  ∀ (i : c.Stage) m n, c.Machines i m n → Meets c i φ m n (x m) (y n)

theorem Meets.trans {m n m₁ n₁ : Machine} (grows : m.env.Grows m₁.env)
    (grows' : n.env.Grows n₁.env) {o p : Option (Except Stop α × Machine)}
    (meets : Meets c i φ m₁ n₁ o p) : Meets c i φ m n o p := by
  cases meets with
  | outOfFuel => exact .outOfFuel
  | ends result machines rest rest' =>
    exact .ends result machines (grows.trans rest) (grows'.trans rest')

/-- An end that leaves both environments alone. -/
theorem Meets.still {m n : Machine} (machines : c.Machines i m n) {r s : Except Stop α}
    (result : Run.SameEnd c.Stops φ r s) : Meets c i φ m n (some (r, m)) (some (s, n)) :=
  .ends result machines (.refl _) (.refl _)

theorem Corresponds.bind {x y : Run α} {f g : α → Run β} (first : c.Corresponds φ x y)
    (rest : ∀ a b, φ a b → c.Corresponds ψ (f a) (g b)) :
    c.Corresponds ψ (x >>= f) (y >>= g) := by
  intro i m n machines
  have met := first i m n machines
  rw [Run.bind_apply, Run.bind_apply]
  generalize x m = o at met ⊢
  generalize y n = p at met ⊢
  cases met with
  | outOfFuel => exact .outOfFuel
  | ends result machines' grows grows' =>
    cases result with
    | ok h => exact (rest _ _ h i _ _ machines').trans grows grows'
    | error stops => exact .ends (.error stops) machines' grows grows'

theorem corresponds_pure {a b : α} (h : φ a b) : c.Corresponds φ (pure a) (pure b) :=
  fun _ _ _ machines => .still machines (.ok h)

theorem corresponds_stop {e e' : Stop} (stops : c.Stops e e') :
    c.Corresponds φ (Run.stop e) (Run.stop e') :=
  fun _ _ _ machines => .still machines (.error stops)

theorem corresponds_outOfFuel : c.Corresponds φ Run.outOfFuel Run.outOfFuel :=
  fun _ _ _ _ => .outOfFuel

/-- Computations that look at environments which correspond. -/
theorem corresponds_env {f g : Env → Run α}
    (rest : ∀ i a b, c.Envs i a b → c.Corresponds φ (f a) (g b)) :
    c.Corresponds φ (Run.env >>= f) (Run.env >>= g) :=
  fun i m n machines => rest i m.env n.env machines.env i m n machines

theorem corresponds_ofLookup {i : c.Stage} {a b : Env} (envs : c.Envs i a b) {n n' : Text}
    (names : c.Name n n') :
    c.Corresponds c.Data (Run.ofExcept (a.lookup n)) (Run.ofExcept (b.lookup n')) := by
  have found := c.find? envs names
  rw [Env.lookup, Env.lookup]
  by_cases none : n = []
  · rw [if_pos none, if_pos ((c.empty names).mp none)]
    exact corresponds_pure c.nil
  · rw [if_neg none, if_neg (mt (c.empty names).mpr none)]
    generalize a.find? n = o at found
    generalize b.find? n' = p at found
    cases found with
    | some values => exact corresponds_pure values
    | none => exact corresponds_stop (c.unknownSymbol names)

theorem corresponds_bindGlobal {n n' : Text} {v v' : Datum} (names : c.Name n n')
    (values : c.Data v v') :
    c.Corresponds (fun _ _ => True) (Forms.bindGlobal n v) (Forms.bindGlobal n' v') := by
  intro i m k machines
  have held := c.holds machines.env names
  by_cases taken : m.env.globals.holds n = true
  · have refused : m.env.bindGlobal n v = .error (.unevaluable (.globalExists n)) := if_pos taken
    have refused' : k.env.bindGlobal n' v' = .error (.unevaluable (.globalExists n')) :=
      if_pos (held ▸ taken)
    rw [Run.bindGlobal_of_error refused, Run.bindGlobal_of_error refused']
    exact .still machines (.error (c.globalExists names))
  · have bound : m.env.bindGlobal n v =
        .ok { m.env with globals := m.env.globals.put n v } := if_neg taken
    have bound' : k.env.bindGlobal n' v' =
        .ok { k.env with globals := k.env.globals.put n' v' } := if_neg (held ▸ taken)
    rw [Run.bindGlobal_of_ok bound, Run.bindGlobal_of_ok bound']
    exact .ends (.ok trivial) ⟨c.putGlobal machines.env names values, machines.world⟩
      (Env.grows_bindGlobal bound) (Env.grows_bindGlobal bound')

theorem corresponds_assignTo {n n' : Text} {v v' : Datum} (names : c.Name n n')
    (values : c.Data v v') :
    c.Corresponds (fun _ _ => True) (Forms.assignTo n v) (Forms.assignTo n' v') := by
  intro i m k machines
  have assigned := c.assign machines.env names values
  cases found : m.env.assign? n v with
  | none =>
    cases found' : k.env.assign? n' v' with
    | none =>
      rw [Run.assignTo_of_none found, Run.assignTo_of_none found']
      exact .still machines (.error c.noFrame)
    | some b =>
      rw [found, found'] at assigned
      cases assigned
  | some a =>
    cases found' : k.env.assign? n' v' with
    | none =>
      rw [found, found'] at assigned
      cases assigned
    | some b =>
      rw [found, found'] at assigned
      cases assigned with
      | some envs =>
        rw [Run.assignTo_of_some found, Run.assignTo_of_some found']
        exact .ends (.ok trivial) ⟨envs, machines.world⟩ (Env.grows_assign found)
          (Env.grows_assign found')

/-- What is written or noted leaves the environments alone. -/
theorem corresponds_world {f g : World → World}
    (rest : ∀ w w', c.Worlds w w' → c.Worlds (f w) (g w')) :
    c.Corresponds (fun _ _ => True) (fun m => some (.ok (), { m with world := f m.world }))
      (fun m => some (.ok (), { m with world := g m.world })) :=
  fun _ m n machines => .ends (.ok trivial) ⟨machines.env, rest _ _ machines.world⟩ (.refl m.env)
    (.refl n.env)

theorem corresponds_note (source : LogSource) (t : Text) :
    c.Corresponds (fun _ _ => True) (Run.note source t) (Run.note source t) :=
  corresponds_world fun _ _ worlds => c.note source t worlds

theorem Corresponds.inScope {x y : Run α} (inner : c.Corresponds φ x y) :
    c.Corresponds φ (Run.inScope x) (Run.inScope y) := by
  intro i m n machines
  have met := inner i { m with env := m.env.push } { n with env := n.env.push }
    ⟨c.push machines.env, machines.world⟩
  rw [Run.inScope, Run.inScope]
  generalize x { m with env := m.env.push } = o at met ⊢
  generalize y { n with env := n.env.push } = p at met ⊢
  cases met with
  | outOfFuel => exact .outOfFuel
  | ends result after grows grows' =>
    exact .ends result ⟨c.pop machines.env after.env grows grows', after.world⟩ grows.pop
      grows'.pop

theorem Corresponds.spawned {x y : Run Datum} (inner : c.Corresponds c.Data x y)
    {ps ps' : List Text} {vs vs' : List Datum} (names : List.Forall₂ c.Name ps ps')
    (values : List.Forall₂ c.Data vs vs') :
    c.Corresponds c.Data (Console.spawned (Bindings.empty.putAll (ps.zip vs)) x)
      (Console.spawned (Bindings.empty.putAll (ps'.zip vs')) y) := by
  have noted : c.Corresponds (fun _ _ => True) Console.spawnNote Console.spawnNote := by
    refine corresponds_env fun i a b envs => ?_
    rw [c.size envs]
    exact corresponds_note _ _
  refine noted.bind fun _ _ _ => ?_
  intro i m n machines
  have met := inner c.alone
    { m with env := { m.env with frames := [Bindings.empty.putAll (ps.zip vs)] } }
    { n with env := { n.env with frames := [Bindings.empty.putAll (ps'.zip vs')] } }
    ⟨c.enter machines.env names values, machines.world⟩
  rw [Run.withFrames, Run.withFrames]
  generalize x _ = o at met ⊢
  generalize y _ = p at met ⊢
  cases met with
  | outOfFuel => exact .outOfFuel
  | ends result after grows grows' =>
    exact .ends result ⟨c.leave machines.env after.env, after.world⟩ grows.restore grows'.restore

theorem Corresponds.escaping {x y : Run α} (inner : c.Corresponds φ x y) :
    c.Corresponds φ (Run.mapFault .escaping x) (Run.mapFault .escaping y) := by
  intro i m n machines
  have met := inner i m n machines
  rw [Run.mapFault_escaping, Run.mapFault_escaping]
  generalize x m = o at met ⊢
  generalize y n = p at met ⊢
  cases met with
  | outOfFuel => exact .outOfFuel
  | ends result after grows grows' =>
    cases result with
    | ok h => exact .ends (.ok h) after grows grows'
    | error stops => exact .ends (.error (c.escaping stops)) after grows grows'

/-- That runs correspond is a congruence. -/
def congruence (c : Correspondence) : Congruence where
  toMatching := c.toMatching
  Related := c.Corresponds
  Stops := c.Stops
  Fuels := Eq
  pure := corresponds_pure
  bind := Corresponds.bind
  stop := corresponds_stop
  spent := by
    rintro _ _ k y rfl spent
    rw [spent rfl]
    exact corresponds_outOfFuel
  burn := Congruence.burn_eq
  lookup names := corresponds_env fun _ _ _ envs => corresponds_ofLookup envs names
  bindGlobal := corresponds_bindGlobal
  assignTo _ := corresponds_assignTo
  inScope := Corresponds.inScope
  spawned names values inner := inner.spawned names values
  printed values := corresponds_world fun _ _ worlds => c.printed worlds values
  raw values := corresponds_world fun _ _ worlds => c.raw worlds values
  note := corresponds_note
  own := c.own

section Outside

variable (data : ∀ d, c.Data d d) (names : ∀ n, c.Name n n) (stops : ∀ e, c.Stops e e)
  (worlds : ∀ w w', c.Worlds w w' ↔ w = w')

include data names in
theorem corresponds_defaultPrompt :
    c.Corresponds c.Data Console.defaultPrompt Console.defaultPrompt := by
  refine corresponds_env fun i a b envs => ?_
  have bound : a.isBound Console.promptName = b.isBound Console.promptName := by
    have found := c.find? envs (names Console.promptName)
    rw [Env.isBound, Env.isBound]
    generalize a.find? Console.promptName = o at found ⊢
    generalize b.find? Console.promptName = p at found ⊢
    cases found <;> rfl
  rw [bound]
  split
  · exact corresponds_ofLookup envs (names _)
  · exact corresponds_pure (data _)

include data names stops worlds in
/-- Where all data, names and stops correspond to themselves, and equal worlds only, runs also
correspond that read and include. -/
theorem readsOutside :
    ReadsOutside c.congruence.toMatching c.congruence.Related c.congruence.Stops := by
  have same : c.Corresponds Eq Run.world Run.world :=
    fun _ _ _ machines => .still machines (.ok ((worlds _ _).mp machines.world))
  have setWorld (w : World) : c.Corresponds (fun _ _ => True) (Run.setWorld w) (Run.setWorld w) :=
    corresponds_world fun _ _ _ => (worlds w w).mpr rfl
  exact
    { world := fun _ _ _ machines =>
        .still machines (.ok ((worlds _ _).mp machines.world ▸ .refl _))
      readLine := c.congruence.readLine same setWorld (stops _)
      prompt := corresponds_defaultPrompt data names
      forms := fun _ => List.forall₂_same.mpr fun d _ => data d
      unreadable := fun _ => stops _
      resolve := fun _ => stops _
      readFile := fun _ => stops _ }

end Outside

/-- A correspondence of all that a program can do. -/
def callCongruence (c : Correspondence) (outside : ReadsOutside c.congruence.toMatching
    c.congruence.Related c.congruence.Stops) : CallCongruence where
  toCongruence := c.congruence
  outside _ := outside
  escaping := Corresponds.escaping

end Correspondence

/-- What a relation of environments has to keep for runs to correspond in the same world with equal
data and equal stops. -/
structure Resemblance where
  Stage : Type
  alone : Stage
  Envs : Stage → Env → Env → Prop
  find? {i : Stage} {a b : Env} (x : Text) : Envs i a b → a.find? x = b.find? x
  size {i : Stage} {a b : Env} : Envs i a b → a.globals.size = b.globals.size
  holds {i : Stage} {a b : Env} (x : Text) : Envs i a b → a.globals.holds x = b.globals.holds x
  putGlobal {i : Stage} {a b : Env} (x : Text) (v : Datum) : Envs i a b →
    Envs i { a with globals := a.globals.put x v } { b with globals := b.globals.put x v }
  assign {i : Stage} {a b : Env} (x : Text) (v : Datum) : Envs i a b →
    Option.Rel (Envs i) (a.assign? x v) (b.assign? x v)
  push {i : Stage} {a b : Env} : Envs i a b → Envs i a.push b.push
  pop {i : Stage} {a b a' b' : Env} : Envs i a b → Envs i a' b' → a.push.Grows a' →
    b.push.Grows b' → Envs i a'.pop b'.pop
  enter {i : Stage} {a b : Env} (frame : Bindings) : Envs i a b →
    Envs alone { a with frames := [frame] } { b with frames := [frame] }
  leave {i : Stage} {a b a' b' : Env} : Envs i a b → Envs alone a' b' →
    Envs i { a' with frames := a.frames } { b' with frames := b.frames }

namespace Resemblance

def correspondence (r : Resemblance) : Correspondence where
  toMatching := .identity
  Stage := r.Stage
  alone := r.alone
  Envs := r.Envs
  Worlds := Eq
  Stops := Eq
  empty := by
    rintro n _ rfl
    rfl
  find? := by
    rintro i a b n _ envs rfl
    rw [r.find? n envs]
    cases b.find? n with
    | none => exact .none
    | some v => exact .some rfl
  size := r.size
  holds := by
    rintro i a b n _ envs rfl
    exact r.holds n envs
  putGlobal := by
    rintro i a b n _ v _ envs rfl rfl
    exact r.putGlobal n v envs
  assign := by
    rintro i a b n _ v _ envs rfl rfl
    exact r.assign n v envs
  push := r.push
  pop := r.pop
  enter := by
    intro i a b ps ps' vs vs' envs names values
    obtain rfl : ps = ps' := Matching.eq_of_forall₂ names
    obtain rfl : vs = vs' := Matching.eq_of_forall₂ values
    exact r.enter _ envs
  leave := r.leave
  note := by
    rintro w _ source t rfl
    rfl
  printed := by
    rintro w _ v _ rfl rfl
    rfl
  raw := by
    rintro w _ v _ rfl rfl
    rfl
  own := .identity
  noFrame := rfl
  unknownSymbol := by
    rintro n _ rfl
    rfl
  globalExists := by
    rintro n _ rfl
    rfl
  escaping := by
    rintro e _ rfl
    rfl

def callCongruence (r : Resemblance) : CallCongruence :=
  r.correspondence.callCongruence
    (Correspondence.readsOutside (fun _ => rfl) (fun _ => rfl) (fun _ => rfl) fun _ _ => Iff.rfl)

/-- Evaluation in environments that resemble each other. -/
theorem meets_eval (r : Resemblance) {i : r.Stage} {m n : Machine} (envs : r.Envs i m.env n.env)
    (world : m.world = n.world) (fuel : Nat) (d : Datum) :
    r.correspondence.Meets i Eq m n (eval Host.empty fuel d m) (eval Host.empty fuel d n) :=
  r.callCongruence.eval Congruence.hosted_empty rfl d d rfl i m n ⟨envs, world⟩

end Resemblance

end FexprLisp
