import FexprLisp.Proofs.Congruence

/-!
# Evaluation keeps every congruence

The builtins keep a congruence that the evaluator keeps, one theorem for each, and so does a level
of evaluation. By induction on the fuel, evaluation keeps it.
-/

namespace FexprLisp

namespace Eval

/-- One level of evaluation that leaves calls of native functions to `apply`. -/
def stepWith (apply : Native → Datum → Run Datum) (ev : Evaluator) : Datum → Run Datum
  | .symbol name => do Run.ofExcept ((← Run.env).lookup name)
  | .quoted d => pure d
  | .pair head args => do
    match ← ev head with
    | .native f => apply f args
    | .func params forms => applyFunction ev params forms args
    | .char _ => pure (.pair head args)
    | v => Run.fail (.unevaluable (.nonFunction v))
  | d => pure d

theorem step_eq_stepWith (host : Host) (ev : Evaluator) (fuel : Nat) (d : Datum) :
    step host ev fuel d = stepWith (applyNative host ev fuel) ev d := by
  cases d <;> rfl

end Eval

namespace Congruence

variable {C : Congruence} {ev ev' : Evaluator} {args args' : Datum}

section Forms

theorem quote (same : C.Data args args') :
    C.Related C.Data (Forms.quote args) (Forms.quote args') := one same

theorem evaluate (evals : C.Evaluators ev ev') (same : C.Data args args') :
    C.Related C.Data (Forms.evaluate ev args) (Forms.evaluate ev' args') := by
  refine C.bind (oneAndRest same) ?_
  rintro ⟨a, rest⟩ ⟨a', rest'⟩ ⟨head, tail⟩
  exact C.bind (values evals (.cons head tail)) fun vs vs' hvs => sequence evals hvs

theorem ifThen (evals : C.Evaluators ev ev') (same : C.Data args args') :
    C.Related C.Data (Forms.ifThen ev args) (Forms.ifThen ev' args') := by
  refine C.bind (checked (C.split same 2 (some 3))) ?_
  intro items items' h
  cases h with
  | nil => exact reject _
  | cons cond rest =>
    cases rest with
    | nil => exact reject _
    | cons yes no =>
      refine C.inScope (C.bind (evals _ _ cond) ?_)
      intro v v' hv
      rw [C.isTrue hv]
      split
      · exact evals _ _ yes
      · cases no with
        | nil => exact C.pure C.nil
        | cons no _ => exact evals _ _ no

theorem loop (evals : C.Evaluators ev ev') {cond cond' : Datum} {body body' : List Datum}
    (hcond : C.Data cond cond') (hbody : List.Forall₂ C.Data body body') {fuel fuel' : Nat}
    (fuels : C.Fuels fuel fuel') : C.Related (fun _ _ => True) (Forms.loop ev cond body fuel)
      (Forms.loop ev' cond' body' fuel') := by
  induction fuel generalizing fuel' with
  | zero =>
    refine C.spent fuels ?_
    rintro rfl
    rfl
  | succ fuel ih =>
    obtain ⟨fuel', rfl, less⟩ := C.burn fuels
    refine C.bind (evals _ _ hcond) ?_
    intro v v' hv
    rw [C.isTrue hv]
    split
    · exact C.bind (sequence evals hbody) fun _ _ _ => ih less
    · exact C.pure trivial

theorem whileLoop (evals : C.Evaluators ev ev') {fuel fuel' : Nat} (fuels : C.Fuels fuel fuel')
    (same : C.Data args args') :
    C.Related C.Data (Forms.whileLoop ev fuel args) (Forms.whileLoop ev' fuel' args') := by
  refine C.bind (oneAndRest same) ?_
  rintro ⟨cond, body⟩ ⟨cond', body'⟩ ⟨hcond, hbody⟩
  exact C.bind (C.inScope (loop evals hcond hbody fuels)) fun _ _ _ => C.pure C.nil

theorem parameters {d d' : Datum} (same : C.Data d d') :
    Checked (List.Forall₂ C.Name) (Forms.parameters d) (Forms.parameters d') := by
  induction d generalizing d' with
  | nil =>
    cases (C.layer _ _).mp same
    exact .ok .nil
  | pair p rest _ ih =>
    cases (C.layer _ _).mp same with
    | pair head tail =>
      refine (symbolName head).bind fun n n' hn => ?_
      exact (ih tail).bind fun ns ns' hns => .ok (.cons hn hns)
  | _ =>
    cases (C.layer _ _).mp same
    exact .invalid _

theorem makeFunction {params params' : Datum} {body body' : List Datum}
    (same : C.Data params params') (hbody : List.Forall₂ C.Data body body') :
    Checked C.Data (Forms.makeFunction params body) (Forms.makeFunction params' body') := by
  have function : Checked C.Data
      (Forms.parameters params >>= fun names => .ok (Datum.func names body))
      (Forms.parameters params' >>= fun names => .ok (Datum.func names body')) :=
    (parameters same).bind fun _ _ names => .ok ((C.layer _ _).mpr (.func names hbody))
  cases (C.layer _ _).mp same with
  | nil => exact function
  | pair _ _ => exact function
  | _ => exact .invalid _

theorem func (same : C.Data args args') :
    C.Related C.Data (Forms.func args) (Forms.func args') := by
  refine C.bind (oneAndRest same) ?_
  rintro ⟨params, body⟩ ⟨params', body'⟩ ⟨hparams, hbody⟩
  exact checked (makeFunction hparams hbody)

theorem defunc (same : C.Data args args') :
    C.Related C.Data (Forms.defunc args) (Forms.defunc args') := by
  cases (C.layer _ _).mp same with
  | pair head rest =>
    refine C.bind (func rest) fun f f' hf => ?_
    refine C.bind (checked (symbolName head)) fun n n' hn => ?_
    exact C.bind (C.bindGlobal hn hf) fun _ _ _ => C.pure C.nil
  | _ => exact reject _

theorem define (evals : C.Evaluators ev ev') (same : C.Data args args') :
    C.Related C.Data (Forms.define ev args) (Forms.define ev' args') := by
  refine C.bind (two same) ?_
  rintro ⟨target, e⟩ ⟨target', e'⟩ ⟨htarget, he⟩
  refine C.bind (checked (symbolName htarget)) fun n n' hn => ?_
  refine C.bind (evals _ _ he) fun v v' hv => ?_
  exact C.bind (C.bindGlobal hn hv) fun _ _ _ => C.pure C.nil

theorem assign (known : C.Known (.builtin .assign)) (evals : C.Evaluators ev ev')
    (same : C.Data args args') :
    C.Related C.Data (Forms.assign ev args) (Forms.assign ev' args') := by
  refine C.bind (two same) ?_
  rintro ⟨target, e⟩ ⟨target', e'⟩ ⟨htarget, he⟩
  refine C.bind (checked (symbolName htarget)) fun n n' hn => ?_
  refine C.bind (evals _ _ he) fun v v' hv => ?_
  exact C.bind (C.assignTo known hn hv) fun _ _ _ => C.pure C.nil

end Forms

section Values

theorem part {select : Datum → Datum → Datum}
    (selects : ∀ {h h' t t'}, C.Data h h' → C.Data t t' → C.Data (select h t) (select h' t'))
    (evals : C.Evaluators ev ev') (same : C.Data args args') :
    C.Related C.Data (Values.part select ev args) (Values.part select ev' args') := by
  refine C.bind (one same) fun e e' he => ?_
  refine C.bind (evals _ _ he) fun v v' hv => ?_
  cases (C.layer _ _).mp hv with
  | pair head tail => exact C.pure (selects head tail)
  | _ => exact reject _

theorem cons (evals : C.Evaluators ev ev') (same : C.Data args args') :
    C.Related C.Data (Values.cons ev args) (Values.cons ev' args') := by
  refine C.bind (two same) ?_
  rintro ⟨a, b⟩ ⟨a', b'⟩ ⟨ha, hb⟩
  refine C.bind (evals _ _ ha) fun h h' hh => ?_
  exact C.bind (evals _ _ hb) fun t t' ht => C.pure (C.pair hh ht)

theorem compare (evals : C.Evaluators ev ev') (same : C.Data args args') :
    C.Related Eq (Values.compare ev args) (Values.compare ev' args') := by
  refine C.bind (two same) ?_
  rintro ⟨a, b⟩ ⟨a', b'⟩ ⟨ha, hb⟩
  refine C.bind (evals _ _ ha) fun v v' hv => ?_
  exact C.bind (evals _ _ hb) fun w w' hw => C.pure (C.equal hv hw)

theorem fold (evals : C.Evaluators ev ev') (op : Operation) (acc : Option Single)
    (same : C.Data args args') :
    C.Related C.Data (Values.fold ev op acc args) (Values.fold ev' op acc args') := by
  induction args generalizing args' acc with
  | nil =>
    cases (C.layer _ _).mp same
    cases acc with
    | none => exact reject _
    | some a => exact C.pure (C.toMatching.number a)
  | pair e rest _ ih =>
    cases (C.layer _ _).mp same with
    | pair head tail =>
      refine C.bind (numeric evals head) ?_
      rintro v _ rfl
      exact ih _ tail
  | _ =>
    cases (C.layer _ _).mp same
    exact reject _

theorem unary (f : Single → Single) (evals : C.Evaluators ev ev') (same : C.Data args args') :
    C.Related C.Data (Values.unary f ev args) (Values.unary f ev' args') := by
  refine C.bind (one same) fun e e' he => ?_
  refine C.bind (numeric evals he) ?_
  rintro v _ rfl
  exact C.pure (C.toMatching.number _)

theorem binary (f : Single → Single → Single) (evals : C.Evaluators ev ev')
    (same : C.Data args args') :
    C.Related C.Data (Values.binary f ev args) (Values.binary f ev' args') := by
  refine C.bind (two same) ?_
  rintro ⟨a, b⟩ ⟨a', b'⟩ ⟨ha, hb⟩
  refine C.bind (numeric evals ha) ?_
  rintro v _ rfl
  refine C.bind (numeric evals hb) ?_
  rintro w _ rfl
  exact C.pure (C.toMatching.number _)

end Values

section Console

theorem print (evals : C.Evaluators ev ev') (same : C.Data args args') :
    C.Related C.Data (Console.print ev args) (Console.print ev' args') := by
  refine C.bind (one same) fun e e' he => ?_
  refine C.bind (evals _ _ he) fun v v' hv => ?_
  exact C.bind (C.printed hv) fun _ _ _ => C.pure C.nil

theorem printRaw (evals : C.Evaluators ev ev') (same : C.Data args args') :
    C.Related C.Data (Console.printRaw ev args) (Console.printRaw ev' args') := by
  refine C.bind (one same) fun e e' he => ?_
  refine C.bind (evals _ _ he) fun v v' hv => ?_
  exact C.bind (C.raw hv) fun _ _ _ => C.pure C.nil

theorem promptText_other (settings : Settings) {d : Datum} (notChar : ∀ c, d ≠ .char c)
    (notNil : d ≠ .nil) : Console.promptText settings d =
      d.text?.elim (.error (.invalidArguments .wrongType)) .ok := by
  cases d with
  | nil => exact absurd rfl notNil
  | char c => exact absurd rfl (notChar c)
  | pair h t =>
    rw [Console.promptText]
    · cases Datum.text? (.pair h t) <;> rfl
    · exact notChar
    · exact notNil
  | _ => rfl

theorem promptText (settings : Settings) {d d' : Datum} (same : C.Data d d') :
    Checked Eq (Console.promptText settings d) (Console.promptText settings d') := by
  have text := C.text? same
  by_cases char : ∃ c, d = .char c
  · obtain ⟨c, rfl⟩ := char
    cases (C.layer _ _).mp same
    exact .ok rfl
  by_cases nil : d = .nil
  · subst nil
    cases (C.layer _ _).mp same
    exact .ok rfl
  have notChar : ∀ c, d' ≠ .char c := by
    rintro c rfl
    cases (C.layer _ _).mp same
    exact char ⟨c, rfl⟩
  have notNil : d' ≠ .nil := by
    rintro rfl
    cases (C.layer _ _).mp same
    exact nil rfl
  rw [promptText_other settings (fun c h => char ⟨c, h⟩) nil,
    promptText_other settings notChar notNil, text]
  cases d'.text? with
  | none => exact .invalid _
  | some t => exact .ok rfl

section Outside

variable (outside : ReadsOutside C.toMatching C.Related C.Stops)
include outside

theorem readForms (t : Text) : C.Related (List.Forall₂ C.Data)
    (Run.ofExcept (FexprLisp.read t)) (Run.ofExcept (FexprLisp.read t)) := by
  cases h : FexprLisp.read t with
  | ok fs => exact C.pure (outside.forms h)
  | error f => exact C.stop (outside.unreadable h)

/-- What a read does once it knows its prompt. -/
theorem readPrompted {p p' : Datum} (same : C.Data p p') :
    let reading (prompt : Datum) : Run Datum := do
      let w ← Run.world
      let line ← Console.readLine (← Run.ofExcept (Console.promptText w.settings prompt))
      let forms ← Run.ofExcept (FexprLisp.read line)
      Pure.pure (forms.headD .nil)
    C.Related C.Data (reading p) (reading p') := by
  refine C.bind outside.world fun w w' worlds => ?_
  rw [worlds.settings]
  refine C.bind (checked (promptText w'.settings same)) ?_
  rintro prompt _ rfl
  refine C.bind (outside.readLine prompt) ?_
  rintro line _ rfl
  refine C.bind (readForms outside line) fun fs fs' hfs => ?_
  cases hfs with
  | nil => exact C.pure C.nil
  | cons h _ => exact C.pure h

theorem read (evals : C.Evaluators ev ev') (same : C.Data args args') :
    C.Related C.Data (Console.read ev args) (Console.read ev' args') := by
  refine C.bind (optional same) fun e e' he => ?_
  cases he with
  | some he => exact C.bind (evals _ _ he) fun _ _ => readPrompted outside
  | none => exact C.bind outside.prompt fun _ _ => readPrompted outside

theorem includeFile (evals : C.Evaluators ev ev') (same : C.Data args args') :
    C.Related C.Data (Console.includeFile ev args) (Console.includeFile ev' args') := by
  refine C.bind (one same) fun e e' he => ?_
  refine C.bind (evals _ _ he) fun name name' hname => ?_
  rw [C.isString hname, C.text? hname]
  split
  · refine C.bind outside.world fun w w' worlds => ?_
    rw [worlds.resolve]
    have resolved : C.Related Eq (Run.ofStop (w'.resolve (name'.text?.getD [])))
        (Run.ofStop (w'.resolve (name'.text?.getD []))) := by
      cases h : w'.resolve (name'.text?.getD []) with
      | ok path => exact C.pure rfl
      | error e => exact C.stop (outside.resolve h)
    refine C.bind resolved ?_
    rintro path _ rfl
    rw [worlds.readFile]
    refine C.bind (C.note _ _) fun _ _ _ => ?_
    have source : C.Related Eq (Run.ofStop (w'.readFile path)) (Run.ofStop (w'.readFile path)) := by
      cases h : w'.readFile path with
      | ok text => exact C.pure rfl
      | error e => exact C.stop (outside.readFile h)
    refine C.bind source ?_
    rintro text _ rfl
    refine C.bind (readForms outside text) fun fs fs' hfs => ?_
    exact C.spawned .nil .nil (sequence evals hfs)
  · exact reject _

end Outside

theorem leave (code : Int) :
    let leaving : Run Datum := do
      Run.note .system ("exit requested with status ".toList ++ intText code)
      Run.stop (.exit code)
    C.Related C.Data leaving leaving :=
  C.bind (C.note _ _) fun _ _ _ => C.stop (C.own.exit code)

theorem exitProgram (evals : C.Evaluators ev ev') (same : C.Data args args') :
    C.Related C.Data (Console.exit ev args) (Console.exit ev' args') := by
  refine C.bind (optional same) fun e e' he => ?_
  cases he with
  | some he =>
    refine C.bind (numeric evals he) ?_
    rintro v _ rfl
    exact leave _
  | none => exact leave _

end Console

/-- Every builtin keeps a congruence, if reading and including do. -/
theorem builtin {b : Builtin} (known : C.Known (.builtin b))
    (outside : b = .read ∨ b = .includeFile → ReadsOutside C.toMatching C.Related C.Stops)
    (evals : C.Evaluators ev ev') {fuel fuel' : Nat} (fuels : C.Fuels fuel fuel')
    (same : C.Data args args') :
    C.Related C.Data (b.run ev fuel args) (b.run ev' fuel' args') := by
  cases b with
  | quote => exact quote same
  | evaluate => exact evaluate evals same
  | whileLoop => exact whileLoop evals fuels same
  | ifThen => exact ifThen evals same
  | func => exact func same
  | defunc => exact defunc same
  | define => exact define evals same
  | assign => exact assign known evals same
  | car => exact part (fun head _ => head) evals same
  | cdr => exact part (fun _ tail => tail) evals same
  | cons => exact cons evals same
  | arithmetic op => exact fold evals op none same
  | equal =>
    refine C.bind (compare evals same) ?_
    rintro v _ rfl
    exact C.pure (C.ofBool v)
  | notEqual =>
    refine C.bind (compare evals same) ?_
    rintro v _ rfl
    exact C.pure (C.ofBool !v)
  | sqrt => exact unary _ evals same
  | exp => exact unary _ evals same
  | power => exact binary _ evals same
  | includeFile => exact includeFile (outside (Or.inr rfl)) evals same
  | read => exact read (outside (Or.inl rfl)) evals same
  | exit => exact exitProgram evals same
  | print => exact print evals same
  | printRaw => exact printRaw evals same

section Calls

variable {host : Host}

/-- A function keeps the congruence as builtins do. -/
def Respects (C : Congruence) (run : HostFunction) : Prop :=
  ∀ ev ev', C.Evaluators ev ev' → ∀ args args', C.Data args args' →
    C.Related C.Data (run ev args) (run ev' args')

/-- All functions of the host do. -/
def Hosted (C : Congruence) (host : Host) : Prop :=
  ∀ name run, host name = some run → C.Respects run

theorem hosted_empty : Hosted C Host.empty := by
  intro name run h
  cases h

theorem operands (evals : C.Evaluators ev ev') (same : C.Data args args') :
    C.Related (List.Forall₂ C.Data) (Eval.operands ev args) (Eval.operands ev' args') := by
  induction args generalizing args' with
  | nil =>
    cases (C.layer _ _).mp same
    exact C.pure .nil
  | pair e rest _ ih =>
    cases (C.layer _ _).mp same with
    | pair head tail =>
      refine C.bind (evals _ _ head) fun v v' hv => ?_
      exact C.bind (ih tail) fun vs vs' hvs => C.pure (.cons hv hvs)
  | _ =>
    cases (C.layer _ _).mp same
    exact C.stop (C.own.bad _)

theorem applyFunction (evals : C.Evaluators ev ev') {params params' : List Text}
    {forms forms' : List Datum} (names : List.Forall₂ C.Name params params')
    (body : List.Forall₂ C.Data forms forms') (same : C.Data args args') :
    C.Related C.Data (Eval.applyFunction ev params forms args)
      (Eval.applyFunction ev' params' forms' args') := by
  refine C.bind (operands evals same) fun vs vs' hvs => ?_
  rw [hvs.length_eq, names.length_eq]
  split
  · exact C.stop (C.own.bad _)
  · exact C.spawned names hvs (sequence evals body)

/-- A level of evaluation keeps a congruence if the calls of native functions in it do. -/
theorem stepWith {apply apply' : Native → Datum → Run Datum}
    (natives : ∀ f args args', C.Known f → C.Data args args' →
      C.Related C.Data (apply f args) (apply' f args'))
    (evals : C.Evaluators ev ev') :
    C.Evaluators (Eval.stepWith apply ev) (Eval.stepWith apply' ev') := by
  intro d d' same
  cases (C.layer _ _).mp same with
  | symbol name => exact C.lookup name
  | quoted inner => exact C.pure inner
  | pair head args =>
    refine C.bind (evals _ _ head) fun v v' hv => ?_
    cases (C.layer _ _).mp hv with
    | native known => exact natives _ _ _ known args
    | func names body => exact applyFunction evals names body args
    | char c => exact C.pure same
    | _ => exact C.stop (C.own.nonFunction hv)
  | _ => exact C.pure same

end Calls

end Congruence

namespace CallCongruence

open Congruence

variable {C : CallCongruence} {host : Host} {ev ev' : Evaluator} {args args' : Datum}

theorem applyNative (hosted : C.Hosted host) (evals : C.Evaluators ev ev') {fuel fuel' : Nat}
    (fuels : C.Fuels fuel fuel') {f : Native} (known : C.Known f) (same : C.Data args args') :
    C.Related C.Data (Eval.applyNative host ev fuel f args)
      (Eval.applyNative host ev' fuel' f args') := by
  have function : C.Data (.native f) (.native f) := (C.layer _ _).mpr (.native known)
  cases f with
  | builtin b =>
    have outside (reads : b = .read ∨ b = .includeFile) :
        ReadsOutside C.toMatching C.Related C.Stops := by
      rcases reads with rfl | rfl
      · exact C.outside (Or.inl known)
      · exact C.outside (Or.inr known)
    exact C.escaping (builtin known outside evals fuels same)
  | host name | nameless name =>
    rw [Eval.applyNative, Eval.applyNative]
    cases h : host name with
    | some run => exact C.escaping (hosted name run h ev ev' evals args args' same)
    | none => exact C.stop (C.own.nonFunction function)

/-- One level of evaluation keeps a congruence. -/
theorem step (hosted : C.Hosted host) (evals : C.Evaluators ev ev') {fuel fuel' : Nat}
    (fuels : C.Fuels fuel fuel') :
    C.Evaluators (Eval.step host ev fuel) (Eval.step host ev' fuel') := by
  intro d d' same
  rw [Eval.step_eq_stepWith, Eval.step_eq_stepWith]
  refine stepWith ?_ evals d d' same
  exact fun _ _ _ known same => applyNative hosted evals fuels known same

/-- Evaluation keeps every congruence. -/
theorem eval (hosted : C.Hosted host) {fuel fuel' : Nat} (fuels : C.Fuels fuel fuel') :
    C.Evaluators (eval host fuel) (eval host fuel') := by
  induction fuel generalizing fuel' with
  | zero =>
    intro d d' _
    refine C.spent fuels ?_
    rintro rfl
    rfl
  | succ fuel ih =>
    obtain ⟨fuel', rfl, less⟩ := C.burn fuels
    exact step hosted (ih less) less

end CallCongruence

end FexprLisp
