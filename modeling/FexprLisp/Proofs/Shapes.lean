import FexprLisp.Proofs.Layers

/-!
# Shapes of argument lists

Every builtin but arithmetic looks at the shape of its arguments before it does anything: at the end
of the list first, then at the fewest arguments that it takes, then at the most. Arguments of the
right shape give no reason to complain of it, and what an evaluation within complains of arrives
with a layer around it. The one complaint of this kind that is left is about the parameters of a new
function, which are a list themselves.
-/

namespace FexprLisp

open Fault

/-- The fewest arguments that a builtin takes, and the most if there is a limit. -/
def Builtin.arity : Builtin → Nat × Option Nat
  | quote | car | cdr | sqrt | exp | includeFile | print | printRaw => (1, some 1)
  | define | assign | cons | equal | notEqual | power => (2, some 2)
  | ifThen => (2, some 3)
  | read | exit => (0, some 1)
  | evaluate | whileLoop | func | arithmetic _ => (1, none)
  | defunc => (2, none)

namespace Arguments

variable {least : Nat} {most : Option Nat} {args : Datum} {a : ArgumentFault}

/-- What is wrong with the shape of an argument list, the first thing first. -/
inductive Misshapen (least : Nat) (most : Option Nat) (args : Datum) : ArgumentFault → Prop
  | dotted : args.terminator ≠ .nil → Misshapen least most args .dottedPair
  | few : args.terminator = .nil → args.elements.length < least →
      Misshapen least most args .notEnough
  | many {n : Nat} : args.terminator = .nil → least ≤ args.elements.length → n ∈ most →
      n < args.elements.length → Misshapen least most args .tooMany

theorem Misshapen.split (shape : Misshapen least most args a) :
    split args least most = .error (.invalidArguments a) := by
  cases shape with
  | dotted ends =>
    have improper := mt isProper_iff.mp ends
    simp [Arguments.split, improper]
  | few ends short => simp [Arguments.split, isProper_iff.mpr ends, short]
  | many ends enough limit long =>
    cases limit
    simp [Arguments.split, isProper_iff.mpr ends, Nat.not_lt.mpr enough, long]

/-- A list is of the right shape, or one thing is wrong with it. -/
theorem misshapen_or_ofList (least : Nat) (most : Option Nat) (args : Datum) :
    (∃ a, Misshapen least most args a) ∨
      ∃ items, args = .ofList items ∧ least ≤ items.length ∧ ∀ n ∈ most, items.length ≤ n := by
  by_cases ends : args.terminator = .nil
  · by_cases short : args.elements.length < least
    · exact Or.inl ⟨_, .few ends short⟩
    · by_cases long : ∃ n ∈ most, n < args.elements.length
      · obtain ⟨n, limit, long⟩ := long
        exact Or.inl ⟨_, .many ends (Nat.not_lt.mp short) limit long⟩
      · refine Or.inr ⟨_, (ofList_elements ends).symm, Nat.not_lt.mp short, fun n limit => ?_⟩
        exact Nat.not_lt.mp fun less => long ⟨n, limit, less⟩
  · exact Or.inl ⟨_, .dotted ends⟩

end Arguments

section Misshapen

open Arguments Run

variable {args : Datum} {a : ArgumentFault} {f : Fault}

theorem fail_bind {α β : Type} {x : Run α} (fails : x = fail f) (g : α → Run β) :
    x >>= g = fail f := by rw [fails]; rfl

theorem ofExcept_eq_fail {α : Type} {e : Except Fault α} (h : e = .error f) :
    ofExcept e = fail f := by rw [h]; rfl

theorem one_eq_fail (h : split args 1 (some 1) = .error f) : one args = fail f :=
  fail_bind (ofExcept_eq_fail h) _

theorem two_eq_fail (h : split args 2 (some 2) = .error f) : two args = fail f :=
  fail_bind (ofExcept_eq_fail h) _

theorem oneAndRest_eq_fail (h : split args 1 none = .error f) : oneAndRest args = fail f :=
  fail_bind (ofExcept_eq_fail h) _

theorem optional_eq_fail (h : split args 0 (some 1) = .error f) : optional args = fail f :=
  fail_bind (ofExcept_eq_fail h) _

/-- The check by hand and the check of the rest, where the name is left out, come to one check. -/
theorem defunc_of_misshapen (shape : Misshapen 2 none args a) : Forms.defunc args = reject a := by
  cases args with
  | pair head rest =>
    have inner : Misshapen 1 none rest a := by
      cases shape with
      | dotted ends => exact .dotted ends
      | few ends short => exact .few ends (Nat.lt_of_succ_lt_succ short)
      | many _ _ limit _ => cases limit
    exact fail_bind (fail_bind (oneAndRest_eq_fail inner.split) _) _
  | nil =>
    cases shape with
    | dotted ends => exact absurd rfl ends
    | few => rfl
    | many _ _ limit _ => cases limit
  | _ =>
    cases shape with
    | dotted => rfl
    | few ends => cases ends
    | many ends => cases ends

theorem run_of_misshapen {b : Builtin} (others : ∀ op, b ≠ .arithmetic op)
    (shape : Misshapen b.arity.1 b.arity.2 args a) (ev : Evaluator) (fuel : Nat) :
    b.run ev fuel args = reject a := by
  have failed := shape.split
  cases b with
  | quote => exact one_eq_fail failed
  | evaluate => exact fail_bind (oneAndRest_eq_fail failed) _
  | whileLoop => exact fail_bind (oneAndRest_eq_fail failed) _
  | ifThen => exact fail_bind (ofExcept_eq_fail failed) _
  | func => exact fail_bind (oneAndRest_eq_fail failed) _
  | defunc => exact defunc_of_misshapen shape
  | define => exact fail_bind (two_eq_fail failed) _
  | assign => exact fail_bind (two_eq_fail failed) _
  | car => exact fail_bind (one_eq_fail failed) _
  | cdr => exact fail_bind (one_eq_fail failed) _
  | cons => exact fail_bind (two_eq_fail failed) _
  | arithmetic op => exact absurd rfl (others op)
  | equal => exact fail_bind (fail_bind (two_eq_fail failed) _) _
  | notEqual => exact fail_bind (fail_bind (two_eq_fail failed) _) _
  | sqrt => exact fail_bind (one_eq_fail failed) _
  | exp => exact fail_bind (one_eq_fail failed) _
  | power => exact fail_bind (two_eq_fail failed) _
  | includeFile => exact fail_bind (one_eq_fail failed) _
  | read => exact fail_bind (optional_eq_fail failed) _
  | exit => exact fail_bind (optional_eq_fail failed) _
  | print => exact fail_bind (one_eq_fail failed) _
  | printRaw => exact fail_bind (one_eq_fail failed) _

end Misshapen

/-- What a builtin can complain of where the shape of its arguments is right. -/
inductive Builtin.OwnFault : Builtin → Datum → ArgumentFault → Prop
  | wrongType {b : Builtin} {args : Datum} : OwnFault b args .wrongType
  | func {h t : Datum} {body : List Datum} : (Datum.pair h t).terminator ≠ .nil →
      OwnFault .func (.ofList (.pair h t :: body)) .dottedPair
  | defunc {name h t : Datum} {body : List Datum} : (Datum.pair h t).terminator ≠ .nil →
      OwnFault .defunc (.ofList (name :: .pair h t :: body)) .dottedPair

theorem symbolName_eq_error {d : Datum} {f : Fault} (h : Arguments.symbolName d = .error f) :
    f = .invalidArguments .wrongType := by
  cases d <;> cases h <;> rfl

theorem parameters_eq_error {d : Datum} {f : Fault} (h : Forms.parameters d = .error f) :
    f = .invalidArguments .wrongType ∨
      f = .invalidArguments .dottedPair ∧ d.terminator ≠ .nil := by
  induction d with
  | nil => cases h
  | pair p rest _ ih =>
    rw [Forms.parameters] at h
    cases named : Arguments.symbolName p with
    | error g =>
      rw [named] at h
      cases h
      exact Or.inl (symbolName_eq_error named)
    | ok name =>
      rw [named] at h
      cases others : Forms.parameters rest with
      | error g =>
        rw [others] at h
        cases h
        exact ih others
      | ok names =>
        rw [others] at h
        cases h
  | _ =>
    cases h
    exact Or.inr ⟨rfl, by rintro ⟨⟩⟩

theorem makeFunction_eq_error {params : Datum} {body : List Datum} {f : Fault}
    (h : Forms.makeFunction params body = .error f) : f = .invalidArguments .wrongType ∨
      f = .invalidArguments .dottedPair ∧ ∃ p rest, params = .pair p rest ∧
        params.terminator ≠ .nil := by
  cases params with
  | nil => cases h
  | pair p rest =>
    rw [Forms.makeFunction] at h
    cases named : Forms.parameters (.pair p rest) with
    | error g =>
      rw [named] at h
      cases h
      exact (parameters_eq_error named).imp_right fun ⟨dotted, ends⟩ => ⟨dotted, p, rest, rfl, ends⟩
    | ok names =>
      rw [named] at h
      cases h
  | _ =>
    cases h
    exact Or.inl rfl

theorem promptText_eq_error {settings : Settings} {d : Datum} {f : Fault}
    (h : Console.promptText settings d = .error f) : f = .invalidArguments .wrongType := by
  unfold Console.promptText at h
  split at h
  · cases h
  · cases h
  · split at h <;> cases h
    rfl

section Shaped

open Arguments

variable {P : Fault → Prop} {items : List Datum}

theorem one_faultsIn (enough : 1 ≤ items.length) (few : ∀ n ∈ some 1, items.length ≤ n) :
    (one (.ofList items)).FaultsIn P := by
  obtain ⟨e, rfl⟩ := List.length_eq_one_iff.mp (Nat.le_antisymm (few 1 rfl) enough)
  exact Run.faultsIn_pure e

theorem two_faultsIn (enough : 2 ≤ items.length) (few : ∀ n ∈ some 2, items.length ≤ n) :
    (two (.ofList items)).FaultsIn P := by
  obtain ⟨a, b, rfl⟩ := List.length_eq_two.mp (Nat.le_antisymm (few 2 rfl) enough)
  exact Run.faultsIn_pure (a, b)

theorem oneAndRest_faultsIn (enough : 1 ≤ items.length) :
    (oneAndRest (.ofList items)).FaultsIn P := by
  obtain ⟨a, rest, rfl⟩ := List.exists_cons_of_length_pos enough
  rw [oneAndRest_ofList]
  exact Run.faultsIn_pure (a, rest)

theorem optional_faultsIn (few : ∀ n ∈ some 1, items.length ≤ n) :
    (optional (.ofList items)).FaultsIn P := by
  rw [Arguments.optional, split_ofList (Nat.zero_le _) few]
  exact Run.faultsIn_pure items.head?

theorem assignTo_faultsIn (name : Text) (value : Datum) :
    (Forms.assignTo name value).FaultsIn P := by
  refine Run.faultsIn_of fun m f m' h => ?_
  cases assigned : m.env.assign? name value with
  | some b =>
    rw [Run.assignTo_of_some assigned] at h
    cases h
  | none =>
    rw [Run.assignTo_of_none assigned] at h
    cases h

theorem readLine_faultsIn (prompt : Text) : (Console.readLine prompt).FaultsIn P := by
  refine Run.FaultsIn.bind (x := Run.write prompt) (Run.fulfils_write prompt) fun _ => ?_
  refine Run.FaultsIn.bind (Run.fulfils_world fun _ => trivial) fun w => ?_
  split
  next line input _ =>
    exact Run.FaultsIn.bind (Run.fulfils_setWorld _) fun _ => Run.faultsIn_pure line
  · exact Run.faultsIn_stop (by rintro _ ⟨⟩)

section Core

variable (core : ∀ {f}, Core f → P f)
include core

theorem bindGlobal_faultsIn (name : Text) (value : Datum) :
    (Forms.bindGlobal name value).FaultsIn P := by
  refine Run.faultsIn_of fun m f m' h => ?_
  cases bound : m.env.bindGlobal name value with
  | ok b =>
    rw [Run.bindGlobal_of_ok bound] at h
    cases h
  | error g =>
    rw [Run.bindGlobal_of_error bound] at h
    cases h
    rw [Promise.bindGlobal_eq_error bound]
    exact core (.reported (.globalExists name))

theorem defaultPrompt_faultsIn : Console.defaultPrompt.FaultsIn P := by
  refine Run.fulfils_env fun env _ => ?_
  split
  · refine Run.faultsIn_ofExcept fun f h => ?_
    rw [Promise.lookup_eq_error h]
    exact core (.reported (.unknownSymbol _))
  · exact Run.faultsIn_pure Datum.nil

theorem readForms_faultsIn (t : Text) : (Run.ofExcept (FexprLisp.read t)).FaultsIn P :=
  Run.faultsIn_ofExcept fun _ h => core (read_eq_error h)

end Core

section WrongType

variable (type : P (.invalidArguments .wrongType))
include type

theorem symbolName_faultsIn (d : Datum) : (Run.ofExcept (symbolName d)).FaultsIn P :=
  Run.faultsIn_ofExcept fun f h => by rwa [symbolName_eq_error h]

theorem makeFunction_faultsIn {params : Datum} (body : List Datum)
    (dotted : ∀ {p rest}, params = .pair p rest → params.terminator ≠ .nil →
      P (.invalidArguments .dottedPair)) :
    (Run.ofExcept (Forms.makeFunction params body)).FaultsIn P := by
  refine Run.faultsIn_ofExcept fun f failed => ?_
  rcases makeFunction_eq_error failed with rfl | ⟨rfl, p, rest, same, ends⟩
  · exact type
  · exact dotted same ends

end WrongType

variable {ev : Evaluator} (evals : ∀ d, (ev d).FaultsIn P)
include evals

theorem loop_faultsIn (cond : Datum) (body : List Datum) (fuel : Nat) :
    (Forms.loop ev cond body fuel).FaultsIn P := by
  induction fuel with
  | zero => exact Run.fulfils_outOfFuel
  | succ fuel ih =>
    refine (evals cond).bind fun v => ?_
    split
    · exact (sequence_faultsIn evals body).bind fun _ => ih
    · exact Run.faultsIn_pure ()

variable (type : P (.invalidArguments .wrongType))
include type

theorem number_faultsIn (e : Datum) : (number ev e).FaultsIn P := by
  refine (evals e).bind fun v => ?_
  cases v with
  | number v => exact Run.faultsIn_pure v
  | _ => exact Run.faultsIn_fail type

theorem exit_faultsIn (few : ∀ n ∈ some 1, items.length ≤ n) :
    (Console.exit ev (.ofList items)).FaultsIn P := by
  have leaving (code : Int) : (do
      Run.note .system ("exit requested with status ".toList ++ intText code)
      Run.stop (.exit code) : Run Datum).FaultsIn P :=
    Run.FaultsIn.bind (Run.fulfils_note _ _) fun _ => Run.faultsIn_stop (by rintro _ ⟨⟩)
  refine (optional_faultsIn few).bind fun status => ?_
  cases status with
  | some e => exact (number_faultsIn evals type e).bind fun v => leaving _
  | none => exact leaving 0

variable (core : ∀ {f}, Core f → P f)
include core

theorem read_faultsIn (few : ∀ n ∈ some 1, items.length ≤ n) :
    (Console.read ev (.ofList items)).FaultsIn P := by
  have reading (prompt : Datum) : (do
      let w ← Run.world
      let line ← Console.readLine (← Run.ofExcept (Console.promptText w.settings prompt))
      let forms ← Run.ofExcept (FexprLisp.read line)
      pure (forms.headD .nil) : Run Datum).FaultsIn P := by
    refine Run.FaultsIn.bind (Run.fulfils_world fun _ => trivial) fun w => ?_
    have checked : (Run.ofExcept (Console.promptText w.settings prompt)).FaultsIn P :=
      Run.faultsIn_ofExcept fun f h => by rwa [promptText_eq_error h]
    refine checked.bind fun text => (readLine_faultsIn text).bind fun line => ?_
    exact (readForms_faultsIn core line).bind fun forms => Run.faultsIn_pure (forms.headD .nil)
  refine (optional_faultsIn few).bind fun prompt => ?_
  cases prompt with
  | some e => exact (evals e).bind reading
  | none => exact (defaultPrompt_faultsIn core).bind reading

theorem includeFile_faultsIn (enough : 1 ≤ items.length)
    (few : ∀ n ∈ some 1, items.length ≤ n) :
    (Console.includeFile ev (.ofList items)).FaultsIn P := by
  have outside {α : Type} {e : Except Stop α} (h : ∀ s, e = .error s → ∀ f, s ≠ .fault f) :
      (Run.ofStop e).FaultsIn P := by
    cases e with
    | ok a => exact Run.faultsIn_pure a
    | error s => exact Run.faultsIn_stop (h s rfl)
  refine (one_faultsIn enough few).bind fun e => (evals e).bind fun name => ?_
  split
  · refine Run.FaultsIn.bind (Run.fulfils_world fun _ => trivial) fun w => ?_
    refine (outside fun _ => Promise.resolve_eq_error).bind fun path => ?_
    refine Run.FaultsIn.bind (Run.fulfils_note _ _) fun _ => ?_
    refine (outside fun _ => Promise.readFile_eq_error).bind fun source => ?_
    refine (readForms_faultsIn core source).bind fun forms => ?_
    exact (sequence_faultsIn evals forms).spawned .empty
  · exact Run.faultsIn_fail type

/-- The shape of the arguments being right, a builtin complains of nothing but what it owns. -/
theorem run_faultsIn {b : Builtin} (others : ∀ op, b ≠ .arithmetic op)
    (own : ∀ {a}, b.OwnFault (.ofList items) a → P (.invalidArguments a))
    (enough : b.arity.1 ≤ items.length) (few : ∀ n ∈ b.arity.2, items.length ≤ n) (fuel : Nat) :
    (b.run ev fuel (.ofList items)).FaultsIn P := by
  have number := number_faultsIn evals type
  have name := symbolName_faultsIn type
  have done (d : Datum) : (pure d : Run Datum).FaultsIn P := Run.faultsIn_pure d
  have printed (t : Text) : (Run.write t >>= fun _ => pure Datum.nil).FaultsIn P :=
    Run.FaultsIn.bind (Run.fulfils_write t) fun _ => done .nil
  cases b with
  | quote => exact one_faultsIn enough few
  | evaluate =>
    exact (oneAndRest_faultsIn enough).bind fun (a, rest) =>
      (values_faultsIn evals (a :: rest)).bind fun vs => sequence_faultsIn evals vs
  | whileLoop =>
    exact (oneAndRest_faultsIn enough).bind fun (cond, body) =>
      (loop_faultsIn evals cond body fuel).inScope.bind fun _ => done .nil
  | ifThen =>
    match items, enough, few with
    | cond :: yes :: no, enough, few =>
      have checked : Arguments.split (.ofList (cond :: yes :: no)) 2 (some 3) =
          .ok (cond :: yes :: no) := split_ofList enough few
      rw [Builtin.run, Forms.ifThen, checked]
      change (Run.inScope _).FaultsIn P
      refine Run.FaultsIn.inScope ((evals cond).bind fun v => ?_)
      split
      · exact evals yes
      · cases no with
        | nil => exact done .nil
        | cons e _ => exact evals e
  | func =>
    obtain ⟨params, body, rfl⟩ := List.exists_cons_of_length_pos enough
    rw [Builtin.run, Forms.func, oneAndRest_ofList]
    refine makeFunction_faultsIn type body fun same ends => own ?_
    subst same
    exact .func ends
  | defunc =>
    match items, enough with
    | target :: params :: body, _ =>
      have made : (Forms.func (.ofList (params :: body))).FaultsIn P := by
        rw [Forms.func, oneAndRest_ofList]
        refine makeFunction_faultsIn type body fun same ends => own ?_
        subst same
        exact .defunc ends
      exact made.bind fun f => (name target).bind fun x =>
        (bindGlobal_faultsIn core x f).bind fun _ => done .nil
  | define =>
    exact (two_faultsIn enough few).bind fun (target, e) => (name target).bind fun x =>
      (evals e).bind fun v => (bindGlobal_faultsIn core x v).bind fun _ => done .nil
  | assign =>
    exact (two_faultsIn enough few).bind fun (target, e) => (name target).bind fun x =>
      (evals e).bind fun v => (assignTo_faultsIn x v).bind fun _ => done .nil
  | car | cdr =>
    refine (one_faultsIn enough few).bind fun e => (evals e).bind fun v => ?_
    cases v with
    | pair h t => exact done _
    | _ => exact Run.faultsIn_fail type
  | cons =>
    exact (two_faultsIn enough few).bind fun (a, b) =>
      (evals a).bind fun h => (evals b).bind fun t => done (.pair h t)
  | arithmetic op => exact absurd rfl (others op)
  | equal | notEqual =>
    refine Run.FaultsIn.bind ?_ fun same => done _
    exact (two_faultsIn enough few).bind fun (a, b) =>
      (evals a).bind fun v => (evals b).bind fun w => Run.faultsIn_pure (v.equal w)
  | sqrt | exp =>
    exact (one_faultsIn enough few).bind fun e => (number e).bind fun v => done _
  | power =>
    exact (two_faultsIn enough few).bind fun (a, b) =>
      (number a).bind fun v => (number b).bind fun w => done _
  | includeFile => exact includeFile_faultsIn evals type core enough few
  | read => exact read_faultsIn evals type core few
  | exit => exact exit_faultsIn evals type few
  | print | printRaw =>
    exact (one_faultsIn enough few).bind fun e => (evals e).bind fun v => printed _

end Shaped

theorem escaping_ne_invalidArguments (f : Fault) (a : ArgumentFault) :
    f.escaping ≠ .invalidArguments a := by
  cases f <;> rintro ⟨⟩

/-- Only a complaint of a builtin itself leaves its call as such. -/
theorem escaping_eq_badArguments {f : Fault} {a : ArgumentFault}
    (h : f.escaping = .badArguments a) : f = .invalidArguments a := by
  cases f <;> cases h
  rfl

/-- No complaint about arguments leaves an evaluation without a report. -/
theorem eval_reports_arguments (host : Host) (fuel : Nat) (d : Datum) :
    (eval host fuel d).FaultsIn fun f => ∀ a, f ≠ .invalidArguments a := by
  induction fuel generalizing d with
  | zero => exact Run.fulfils_outOfFuel
  | succ fuel ih =>
    refine step_faultsIn ih (fun _ _ _ => by rintro ⟨⟩) (fun f args => ?_) d
    cases found : Eval.callee host fuel f with
    | none =>
      rw [Eval.applyNative_of_no_callee args found]
      exact Run.faultsIn_fail fun a => by rintro ⟨⟩
    | some run =>
      rw [Eval.applyNative_of_callee args found]
      refine Run.faultsIn_of fun m g m' failed => ?_
      obtain ⟨f, _, rfl⟩ := Run.mapFault_eq_fault failed
      exact escaping_ne_invalidArguments f

/-- A call of a builtin other than arithmetic, whose arguments end in anything but `nil`, or else
are too few, or else too many, fails with the first of these, before anything else: whatever the
evaluator would do, and on the machine as it was. With arguments of the right shape it does not
complain of their shape, but for a dotted list of parameters. -/
theorem builtin_shapes (host : Host) (b : Builtin) (others : ∀ op, b ≠ .arithmetic op) {fuel : Nat}
    {head args : Datum} {m m₁ : Machine}
    (function : eval host fuel head m = some (.ok (.native (.builtin b)), m₁)) :
    (∀ a, Arguments.Misshapen b.arity.1 b.arity.2 args a →
      (∀ ev k n, b.run ev k args n = some (.error (.fault (.invalidArguments a)), n)) ∧
      eval host (fuel + 1) (.pair head args) m =
        some (.error (.fault (.badArguments a)), m₁)) ∧
    ((∀ a, ¬ Arguments.Misshapen b.arity.1 b.arity.2 args a) → ∀ a n,
      eval host (fuel + 1) (.pair head args) m = some (.error (.fault (.badArguments a)), n) →
        b.OwnFault args a) := by
  constructor
  · intro a shape
    have refused := run_of_misshapen others shape
    refine ⟨fun ev k n => by rw [refused]; rfl, ?_⟩
    exact eval_of_callee_stops function rfl (by rw [refused]; rfl)
  · intro shaped a n failed
    rcases Arguments.misshapen_or_ofList b.arity.1 b.arity.2 args with
      ⟨c, wrong⟩ | ⟨items, rfl, enough, few⟩
    · exact absurd wrong (shaped c)
    rw [eval_of_callee function rfl] at failed
    obtain ⟨f, inner, same⟩ := Run.mapFault_eq_fault failed
    obtain rfl := escaping_eq_badArguments same.symm
    have evals (d : Datum) : (eval host fuel d).FaultsIn fun f =>
        ∀ c, f = .invalidArguments c → b.OwnFault (.ofList items) c :=
      Run.faultsIn_of fun m f m' h c same =>
        absurd same ((eval_reports_arguments host fuel d).fault h c)
    have own := run_faultsIn evals (by rintro c ⟨⟩; exact .wrongType) (by rintro f ⟨⟩ c ⟨⟩) others
      (by rintro a own c ⟨⟩; exact own) enough few fuel
    exact own.fault inner a rfl

/-- A definition of a function that has no parameters at all, and one whose parameters have a dotted
end. -/
theorem builtin_shapes_sample :
    let head : Datum := .native (.builtin .defunc)
    let f : Datum := .symbol ['f']
    let dotted : Datum := .pair (.symbol ['x']) .truth
    eval Host.stock 2 (.pair head (.ofList [f])) emptyMachine =
      some (.error (.fault (.badArguments .notEnough)), emptyMachine) ∧
    (∀ a, ¬ Arguments.Misshapen 2 none (.ofList [f, dotted]) a) ∧
    eval Host.stock 2 (.pair head (.ofList [f, dotted])) emptyMachine =
      some (.error (.fault (.badArguments .dottedPair)), emptyMachine) ∧
    Builtin.defunc.OwnFault (.ofList [f, dotted]) .dottedPair := by
  intro head f dotted
  have others : ∀ op, Builtin.defunc ≠ .arithmetic op := by rintro op ⟨⟩
  have shaped : ∀ a, ¬ Arguments.Misshapen 2 none (.ofList [f, dotted]) a := by
    rintro a (ends | ⟨_, short⟩ | ⟨_, _, limit, _⟩)
    · exact ends rfl
    · exact absurd short (by decide)
    · cases limit
  have failed : eval Host.stock 2 (.pair head (.ofList [f, dotted])) emptyMachine =
      some (.error (.fault (.badArguments .dottedPair)), emptyMachine) := rfl
  have called (args : Datum) := @builtin_shapes Host.stock .defunc others 1 head args emptyMachine
    emptyMachine rfl
  obtain ⟨misshapen, _⟩ := called (.ofList [f])
  obtain ⟨_, own⟩ := called (.ofList [f, dotted])
  obtain ⟨_, short⟩ := misshapen .notEnough (.few rfl (by decide))
  exact ⟨short, shaped, failed, own shaped _ _ failed⟩

end FexprLisp
