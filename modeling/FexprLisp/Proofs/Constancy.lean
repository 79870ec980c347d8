import FexprLisp.Proofs.RoundTrip
import FexprLisp.Proofs.Scope

/-!
# What stays bound

A global stays bound, and no definition changes it. Only assignment changes a value: where the
assigning builtin occurs neither in the expression nor in any value that is bound, evaluation leaves
every binding that it finds, and it makes no local ones. Texts that are read or included cannot
bring the builtin in, since what a text denotes holds no function.
-/

namespace FexprLisp

namespace Datum

/-- A native function occurs in a datum. The forms of function bodies count. -/
inductive Mentions (f : Native) : Datum → Prop
  | native : Mentions f (native f)
  | quoted {d : Datum} : Mentions f d → Mentions f (quoted d)
  | head {h t : Datum} : Mentions f h → Mentions f (pair h t)
  | tail {h t : Datum} : Mentions f t → Mentions f (pair h t)
  | body {params : List Text} {body : List Datum} {d : Datum} : d ∈ body → Mentions f d →
      Mentions f (func params body)

variable {f : Native}

theorem not_mentions_chain {ds : List Datum} {tail : Datum} (elements : ∀ d ∈ ds, ¬ Mentions f d)
    (last : ¬ Mentions f tail) : ¬ Mentions f (chain ds tail) := by
  induction ds with
  | nil => exact last
  | cons d ds ih =>
    intro h
    cases h with
    | head h => exact elements d List.mem_cons_self h
    | tail h => exact ih (fun e he => elements e (List.mem_cons_of_mem _ he)) h

theorem not_mentions_ofText (t : Text) : ¬ Mentions f (ofText t) := by
  refine not_mentions_chain ?_ (by rintro ⟨⟩)
  intro d hd
  obtain ⟨c, _, rfl⟩ := List.mem_map.mp hd
  rintro ⟨⟩

/-- A leaf stands for a number, a character, a symbol or a string. -/
theorem not_mentions_of_parseAtom {t : Token} {d : Datum} (emitted : t.Emitted)
    (kind : t.kind = .atom ∨ t.kind = .string) (parsed : parseAtom t.text = .ok d) :
    ¬ Mentions f d := by
  rcases kind with kind | kind
  · obtain ⟨d', parsed', stands⟩ := parseAtom_emitted emitted kind
    obtain rfl := Except.ok.inj (parsed'.symm.trans parsed)
    cases stands <;> rintro ⟨⟩
  · cases emitted with
    | @string body closed =>
      have read := parseAtom_string closed
      rw [parsed] at read
      split at read
      · obtain rfl := Except.ok.inj read
        exact not_mentions_ofText _
      · cases read
    | _ => cases kind

theorem not_mentions_of_derives {n : Nonterminal} {t : Tree} (derives : Derives n t) :
    ¬ Mentions f t.datum := by
  induction derives with
  | leaf emitted kind parsed => exact not_mentions_of_parseAtom emitted kind parsed
  | quotation _ ih =>
    intro h
    cases h with
    | quoted h => exact ih h
  | @list es _ ih =>
    refine not_mentions_chain ?_ (by rintro ⟨⟩)
    intro d hd
    rw [Tree.data_eq_map] at hd
    obtain ⟨e, he, rfl⟩ := List.mem_map.mp hd
    exact ih e he
  | @dotted es _ _ _ _ ihs ih =>
    refine not_mentions_chain ?_ ih
    intro d hd
    rw [Tree.data_eq_map] at hd
    obtain ⟨e, he, rfl⟩ := List.mem_map.mp hd
    exact ihs e he
  | element _ _ ih => exact ih
  | tailLeaf _ _ ih => exact ih
  | tailList _ ih => exact ih
  | tailDotted _ ih => exact ih

/-- What is read from a text holds no function. -/
theorem not_mentions_of_read {s : Text} {forms : List Datum} (h : FexprLisp.read s = .ok forms) :
    ∀ d ∈ forms, ¬ Mentions f d := by
  obtain ⟨program, derived, rfl⟩ := program_of_read h
  intro d hd
  obtain ⟨t, ht, rfl⟩ := List.mem_map.mp hd
  exact not_mentions_of_derives (derived.derives t ht)

end Datum

open Datum

/-- Every datum without a certain function matches itself. -/
def Matching.without (f : Native) : Matching where
  Data d d' := d = d' ∧ ¬ Mentions f d
  Name := Eq
  Label := Eq
  Known g := g ≠ f
  layer := by
    intro d d'
    constructor
    · rintro ⟨rfl, free⟩
      cases d with
      | nil => exact .nil
      | truth => exact .truth
      | number v => exact .number v
      | char c => exact .char c
      | symbol n => exact .symbol rfl
      | quoted d => exact .quoted ⟨rfl, fun h => free (.quoted h)⟩
      | pair h t => exact .pair ⟨rfl, fun h => free (.head h)⟩ ⟨rfl, fun h => free (.tail h)⟩
      | func ps body =>
        refine .func (by simp) (List.forall₂_same.mpr fun d hd => ⟨rfl, fun h => free (.body hd h)⟩)
      | native g =>
        refine .native ?_
        rintro rfl
        exact free .native
      | payload l => exact .payload rfl
    · intro same
      cases same with
      | @func _ _ body body' ps forms =>
        have names := eq_of_forall₂ ps
        have bodies : body = body' := eq_of_forall₂ (forms.imp fun _ _ h => h.1)
        subst names bodies
        refine ⟨rfl, fun h => ?_⟩
        cases h with
        | body hd h => exact (List.forall₂_same.mp forms _ hd).2 h
      | quoted inner =>
        obtain ⟨rfl, free⟩ := inner
        refine ⟨rfl, fun h => ?_⟩
        cases h with
        | quoted h => exact free h
      | pair head tail =>
        obtain ⟨rfl, freeHead⟩ := head
        obtain ⟨rfl, freeTail⟩ := tail
        refine ⟨rfl, fun h => ?_⟩
        cases h with
        | head h => exact freeHead h
        | tail h => exact freeTail h
      | native other =>
        refine ⟨rfl, fun h => ?_⟩
        cases h
        exact other rfl
      | symbol name =>
        obtain rfl := name
        exact ⟨rfl, by rintro ⟨⟩⟩
      | payload label =>
        obtain rfl := label
        exact ⟨rfl, by rintro ⟨⟩⟩
      | _ => exact ⟨rfl, by rintro ⟨⟩⟩
  equal := by
    rintro a a' b b' ⟨rfl, _⟩ ⟨rfl, _⟩
    rfl

theorem Matching.without_refl {f : Native} {ds : List Datum} (free : ∀ d ∈ ds, ¬ Mentions f d) :
    List.Forall₂ (without f).Data ds ds :=
  List.forall₂_same.mpr fun d hd => ⟨rfl, free d hd⟩

theorem Matching.not_mentions {f : Native} {ds ds' : List Datum}
    (same : List.Forall₂ (without f).Data ds ds') : ∀ d ∈ ds, ¬ Mentions f d := by
  have equal : ds = ds' := eq_of_forall₂ (same.imp fun _ _ h => h.1)
  subst equal
  exact fun d hd => (List.forall₂_same.mp same d hd).2

/-- No value of a table mentions a function. -/
def Bindings.Without (f : Native) (b : Bindings) : Prop :=
  ∀ x v, b.find? x = some v → ¬ Mentions f v

theorem Bindings.without_empty (f : Native) : Bindings.empty.Without f := by
  intro x v h
  cases h

theorem Bindings.Without.put {f : Native} {b : Bindings} (free : b.Without f) (x : Text)
    {v : Datum} (value : ¬ Mentions f v) : (b.put x v).Without f := by
  intro y w h
  rw [find?_put] at h
  split at h
  · cases h
    exact value
  · exact free y w h

theorem Bindings.Without.putAll {f : Native} {b : Bindings} (free : b.Without f)
    {entries : List (Text × Datum)} (values : ∀ e ∈ entries, ¬ Mentions f e.2) :
    (b.putAll entries).Without f := by
  induction entries generalizing b with
  | nil => exact free
  | cons e entries ih =>
    exact ih (free.put e.1 (values e List.mem_cons_self))
      fun e' he => values e' (List.mem_cons_of_mem _ he)

namespace Env

/-- No value that is bound mentions a function. -/
structure Without (f : Native) (a : Env) : Prop where
  frames : ∀ b ∈ a.frames, b.Without f
  globals : a.globals.Without f

/-- The frames are the same, and every global has the value that it had. -/
structure Retains (a b : Env) : Prop where
  frames : b.frames = a.frames
  globals : ∀ x v, a.globals.find? x = some v → b.globals.find? x = some v

theorem Without.local? {f : Native} {frames : List Bindings} (free : ∀ b ∈ frames, b.Without f)
    {x : Text} {v : Datum} (h : Env.local? frames x = some v) : ¬ Mentions f v := by
  obtain ⟨b, hb, found⟩ := List.exists_of_findSome?_eq_some h
  exact free b hb x v found

theorem Without.lookup {f : Native} {a : Env} (free : a.Without f) {x : Text} {v : Datum}
    (h : a.lookup x = .ok v) : ¬ Mentions f v := by
  rw [Env.lookup] at h
  split at h
  · cases h
    rintro ⟨⟩
  · split at h
    next d found =>
      cases h
      rw [Env.find?, Option.or_eq_some_iff] at found
      rcases found with found | ⟨_, found⟩
      · exact Without.local? free.frames found
      · exact free.globals x v found
    · cases h

/-- A definition gives a value to a name that had none. -/
theorem retains_bindGlobal {a b : Env} {x : Text} {v : Datum} (h : a.bindGlobal x v = .ok b) :
    Retains a b := by
  rw [bindGlobal] at h
  split at h
  · cases h
  next unbound =>
    cases h
    refine ⟨rfl, ?_⟩
    intro y w found
    have other : y ≠ x := by
      rintro rfl
      rw [Bindings.find?_of_not_holds unbound] at found
      cases found
    rw [Bindings.find?_put, if_neg other]
    exact found

theorem Without.bindGlobal {f : Native} {a b : Env} (free : a.Without f) {x : Text} {v : Datum}
    (value : ¬ Mentions f v) (h : a.bindGlobal x v = .ok b) : b.Without f := by
  rw [Env.bindGlobal] at h
  split at h
  · cases h
  · cases h
    exact ⟨free.frames, free.globals.put x value⟩

end Env

/-- That every binding stays as it is, as long as no value mentions a function. -/
def Promise.constancy (f : Native) : Promise where
  Holds := Env.Without f
  Change := Env.Retains
  Stops _ := True
  refl _ := ⟨rfl, fun _ _ h => h⟩
  trans first second :=
    ⟨second.frames.trans first.frames, fun x v h => second.globals x v (first.globals x v h)⟩

/-- Without the assigning builtin no step changes a value. -/
theorem Promise.constancy_kept :
    (Promise.constancy (.builtin .assign)).Kept (.without (.builtin .assign)) where
  name _ := rfl
  forms h := Matching.without_refl (not_mentions_of_read h)
  own _ := trivial
  lookup free _ h := ⟨_, rfl, free.lookup h⟩
  bindGlobal free _ value h := ⟨free.bindGlobal value.2 h, Env.retains_bindGlobal h⟩
  assign known := absurd rfl known
  push a free := ⟨List.forall_mem_cons.mpr ⟨Bindings.without_empty _, free.frames⟩, free.globals⟩
  pop a b free after change := by
    have frames : b.pop.frames = a.frames := by
      rw [Env.pop, change.frames]
      rfl
    exact ⟨⟨frames ▸ free.frames, after.globals⟩, frames, change.globals⟩
  enter {ps _ vs _} a _ values free := by
    refine ⟨?_, free.globals⟩
    intro b hb
    obtain rfl := List.mem_singleton.mp hb
    refine (Bindings.without_empty _).putAll ?_
    intro e he
    exact Matching.not_mentions values e.2 (List.of_mem_zip he).2
  leave a b free after change := ⟨⟨free.frames, after.globals⟩, rfl, change.globals⟩

def Congruence.constancy : CallCongruence :=
  Promise.constancy_kept.callCongruence fun _ _ => trivial

theorem constant_eval (fuel : Nat) {d : Datum} (free : ¬ Mentions (.builtin .assign) d) :
    (eval Host.empty fuel d).Fulfils (.constancy (.builtin .assign))
      (Matching.without (.builtin .assign)).Data :=
  Congruence.constancy.eval Congruence.hosted_empty rfl d d ⟨rfl, free⟩

theorem parameters_ofList (params : List Text) :
    Forms.parameters (.ofList (params.map .symbol)) = .ok params := by
  induction params with
  | nil => rfl
  | cons p params ih =>
    have step : Forms.parameters (.ofList ((p :: params).map .symbol)) =
        Forms.parameters (.ofList (params.map .symbol)) >>= fun names => .ok (p :: names) := rfl
    rw [step, ih]
    rfl

theorem makeFunction_ofList (params : List Text) (body : List Datum) :
    Forms.makeFunction (.ofList (params.map .symbol)) body = .ok (.func params body) := by
  have names := parameters_ofList params
  cases params with
  | nil => rfl
  | cons p params =>
    have step : Forms.makeFunction (.ofList ((p :: params).map .symbol)) body =
        Forms.parameters (.ofList ((p :: params).map .symbol)) >>= fun names =>
          .ok (.func names body) := rfl
    rw [step, names]
    rfl

theorem func_ofList (params : List Text) (body : List Datum) :
    Forms.func (.ofList (.ofList (params.map .symbol) :: body)) = pure (.func params body) := by
  rw [Forms.func, Arguments.oneAndRest, split_ofList (by simp) (by simp)]
  exact congrArg Run.ofExcept (makeFunction_ofList params body)

/-- A function is made, or not, without a look at the machine. -/
theorem func_ends (args : Datum) (m : Machine) : ∃ s, Forms.func args m = some (s, m) := by
  cases h : Arguments.split args 1 none with
  | error f => exact ⟨_, by rw [Forms.func, Arguments.oneAndRest, h]; rfl⟩
  | ok items =>
    rw [Forms.func, Arguments.oneAndRest, h]
    cases items with
    | nil => exact ⟨_, rfl⟩
    | cons p forms =>
      cases function : Forms.makeFunction p forms with
      | error f => exact ⟨.error (.fault f), congrArg (Run.ofExcept · m) function⟩
      | ok d => exact ⟨.ok d, congrArg (Run.ofExcept · m) function⟩

/-- What stops the definition of a name that is taken, by the end that its value came to. -/
def refusal {α : Type} (x : Text) : Except Stop α → Stop
  | .ok _ => .fault (.unevaluable (.globalExists x))
  | .error e => e

section Taken

variable {x : Text} {v : Datum} {m : Machine} (taken : x ∈ m.env.globals.names)

include taken

theorem bindGlobal_of_taken : Forms.bindGlobal x v m =
    some (.error (.fault (.unevaluable (.globalExists x))), m) := by
  have holds : m.env.globals.holds x = true := (Bindings.holds_iff _ _).mpr taken
  exact Run.bindGlobal_of_error (by rw [Env.bindGlobal, if_pos holds])

/-- Nothing happens after the value is there, or is not. -/
theorem bind_bindGlobal_of_taken {value : Run Datum} {m₀ : Machine} {s : Except Stop Datum}
    (h : value m₀ = some (s, m)) :
    (value >>= fun v => Forms.bindGlobal x v >>= fun _ => pure Datum.nil) m₀ =
      some (.error (refusal x s), m) := by
  rw [Run.bind_apply, h]
  cases s with
  | ok v =>
    have refused : Forms.bindGlobal x v m = _ := bindGlobal_of_taken taken
    simp only [Run.bind_apply, refused]
    rfl
  | error e => rfl

theorem define_of_taken {ev : Evaluator} {e : Datum} {m₀ : Machine} {s : Except Stop Datum}
    (h : ev e m₀ = some (s, m)) :
    Forms.define ev (.ofList [.symbol x, e]) m₀ = some (.error (refusal x s), m) :=
  bind_bindGlobal_of_taken taken h

theorem defunc_of_taken {rest : Datum} {m₀ : Machine} {s : Except Stop Datum}
    (h : Forms.func rest m₀ = some (s, m)) :
    Forms.defunc (.pair (.symbol x) rest) m₀ = some (.error (refusal x s), m) :=
  bind_bindGlobal_of_taken taken h

end Taken

/-- Every global stays. A definition of a name that is global already fails, with the complaint that
it is unless the evaluation of the value fails, and leaves the machine as that evaluation left it; a
definition of a function leaves it as it was. Where nothing can assign, all values that are bound
stay and no locals are made. -/
theorem eval_globals (fuel : Nat) (m : Machine) :
    (∀ d r m', eval Host.empty fuel d m = some (r, m') →
      ∀ x ∈ m.env.globals.names, x ∈ m'.env.globals.names) ∧
    (∀ head m₁ x e s m₂, eval Host.empty fuel head m = some (.ok (.native (.builtin .define)), m₁) →
      x ∈ m.env.globals.names → eval Host.empty fuel e m₁ = some (s, m₂) →
        eval Host.empty (fuel + 1) (.pair head (.ofList [.symbol x, e])) m =
          some (.error (refusal x s).escaping, m₂)) ∧
    (∀ head m₁ x rest,
      eval Host.empty fuel head m = some (.ok (.native (.builtin .defunc)), m₁) →
      x ∈ m.env.globals.names →
        ∃ s, eval Host.empty (fuel + 1) (.pair head (.pair (.symbol x) rest)) m =
            some (.error (refusal x s).escaping, m₁) ∧
          ∀ (params : List Text) body, rest = .ofList (.ofList (params.map .symbol) :: body) →
            s = .ok (Datum.func params body)) ∧
    ∀ d r m', ¬ Mentions (.builtin .assign) d → m.env.Without (.builtin .assign) →
      eval Host.empty fuel d m = some (r, m') → m.env.Retains m'.env := by
  have stays : ∀ d m r m', eval Host.empty fuel d m = some (r, m') →
      ∀ x ∈ m.env.globals.names, x ∈ m'.env.globals.names :=
    fun d m r m' h x hx => (grows_eval fuel d m r m' h).1.globals.mem hx
  refine ⟨fun d => stays d m, ?_, ?_, ?_⟩
  · intro head m₁ x e s m₂ function global value
    have taken := stays e m₁ s m₂ value x (stays head m _ m₁ function x global)
    exact eval_of_callee_stops function rfl (define_of_taken taken value)
  · intro head m₁ x rest function global
    have taken := stays head m _ m₁ function x global
    obtain ⟨s, made⟩ := func_ends rest m₁
    refine ⟨s, eval_of_callee_stops function rfl (defunc_of_taken taken made), ?_⟩
    rintro params body rfl
    rw [func_ofList] at made
    cases made
    rfl
  · intro d r m' free without h
    exact (constant_eval fuel free m r m' without h).change

/-- One frame over a global, and nothing outside. -/
def globalMachine : Machine := ⟨.fresh (Bindings.empty.put ['x'] .nil), emptyMachine.world⟩

/-- A definition, a definition of a function and an addition, where `x` is global and no value is a
function. -/
theorem eval_globals_sample :
    ['x'] ∈ globalMachine.env.globals.names ∧
    (∃ m', eval Host.empty 2 (.ofList [.native (.builtin .define), .symbol ['x'], .truth])
        globalMachine = some (.error (.fault (.wrap (.unevaluable (.globalExists ['x'])))), m') ∧
      ['x'] ∈ m'.env.globals.names) ∧
    (∃ m', eval Host.empty 2 (.ofList [.native (.builtin .defunc), .symbol ['x'], .nil])
      globalMachine = some (.error (.fault (.wrap (.unevaluable (.globalExists ['x'])))), m')) ∧
    ∃ r m', eval Host.empty 2 (.ofList [.native (.builtin (.arithmetic .add)), .symbol ['x']])
        globalMachine = some (r, m') ∧ globalMachine.env.Retains m'.env := by
  have global : ['x'] ∈ globalMachine.env.globals.names := by decide
  obtain ⟨_, define, defunc, _⟩ := eval_globals 1 globalMachine
  obtain ⟨stays, _, _, constant⟩ := eval_globals 2 globalMachine
  refine ⟨global, ?_, ?_, ?_⟩
  · have called := define (.native (.builtin .define)) globalMachine ['x'] .truth (.ok .truth)
      globalMachine rfl global rfl
    exact ⟨_, called, stays _ _ _ called _ global⟩
  · obtain ⟨s, called, made⟩ := defunc (.native (.builtin .defunc)) globalMachine ['x']
      (.ofList [.nil]) rfl global
    rw [made [] [] rfl] at called
    exact ⟨_, called⟩
  · refine ⟨_, _, rfl, ?_⟩
    refine constant (.ofList [.native (.builtin (.arithmetic .add)), .symbol ['x']]) _ _ ?_ ?_ rfl
    · refine not_mentions_chain ?_ (by rintro ⟨⟩)
      intro d hd
      simp only [List.mem_cons, List.not_mem_nil, or_false] at hd
      rcases hd with rfl | rfl <;> rintro ⟨⟩
    · refine ⟨?_, (Bindings.without_empty _).put _ (by rintro ⟨⟩)⟩
      intro b hb
      obtain rfl := List.mem_singleton.mp hb
      exact Bindings.without_empty _

/-- One empty frame over the default names, and nothing outside. -/
def defaultMachine : Machine := ⟨.fresh Interpreter.defaultGlobals, emptyMachine.world⟩

/-- The value of a definition may change the very name that the definition is then refused for, and
it may fail by itself. -/
theorem define_evaluates_first :
    (∃ m', eval Host.empty 3 (.ofList [.symbol "def".toList, .symbol ['t'],
        .ofList [.symbol ['='], .symbol ['t'], .symbol "nil".toList]]) defaultMachine =
        some (.error (.fault (.wrap (.unevaluable (.globalExists ['t'])))), m') ∧
      defaultMachine.env.globals.find? ['t'] = some .truth ∧
      m'.env.globals.find? ['t'] = some .nil) ∧
    eval Host.empty 3 (.ofList [.symbol "def".toList, .symbol ['t'], .symbol ['x']])
      defaultMachine = some (.error (.fault (.wrap (.unevaluable (.unknownSymbol ['x'])))),
        defaultMachine) :=
  ⟨⟨_, rfl, rfl, rfl⟩, rfl⟩

end FexprLisp
