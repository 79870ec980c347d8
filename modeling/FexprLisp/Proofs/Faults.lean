import FexprLisp.Proofs.Promises
import Mathlib.Logic.Function.Iterate

/-!
# Faults

Reading and evaluating raise a few kinds of faults, each under a report of one kind. A fault that
leaves the evaluator is one of these with a number of layers around it, one for each builtin that it
came through. The layers hide nothing: the cause and the message are those of the fault inside. No
complaint about arguments gets out without a report, and no fault of the reader without a layer.
-/

namespace FexprLisp

namespace Fault

/-- What is raised, under which kind of report. -/
inductive Raised : FaultKind → Fault → Prop
  | unknownSymbol (name : Text) : Raised .evaluating (unknownSymbol name)
  | globalExists (name : Text) : Raised .evaluating (globalExists name)
  | nonFunction (value : Datum) : Raised .evaluating (nonFunction value)
  | invalidArguments (f : ArgumentFault) : Raised .native (invalidArguments f)
  | unmatchedToken (token : Text) : Raised .reading (unmatchedToken token)
  | invalidToken (text : Text) : Raised .reading (invalidToken text)
  | unparsableAtom (text : Text) : Raised .reading (unparsableAtom text)
  | emptyQuote : Raised .reading emptyQuote

/-- A fault with no layer. -/
inductive Core : Fault → Prop
  | reported {kind : FaultKind} {cause : Fault} : Raised kind cause → Core (reported kind cause)

/-- What can be wrong with a token, as the reader reports it. -/
inductive Blamed : Fault → Prop
  | invalidToken (text : Text) : Blamed (unreadable (invalidToken text))
  | unparsableAtom (text : Text) : Blamed (unreadable (unparsableAtom text))
  | emptyQuote : Blamed (unreadable emptyQuote)

theorem Blamed.core {f : Fault} (blamed : Blamed f) : Core f := by
  cases blamed with
  | invalidToken text => exact .reported (.invalidToken text)
  | unparsableAtom text => exact .reported (.unparsableAtom text)
  | emptyQuote => exact .reported .emptyQuote

/-- Layers around what was raised. A fault of the reader has at least one. -/
inductive Layered : Fault → Prop
  | layers (k : Nat) {kind : FaultKind} {cause : Fault} : Raised kind cause →
      (kind = .reading → 1 ≤ k) → Layered (wrap^[k] (reported kind cause))

theorem Raised.root {kind : FaultKind} {cause : Fault} (raised : Raised kind cause) :
    cause.root = cause := by
  cases raised <;> rfl

/-- Layers and reports do not change what is inside of a report. -/
theorem root_layers (k : Nat) (kind : FaultKind) (cause : Fault) :
    (wrap^[k] (reported kind cause)).root = cause.root := by
  induction k with
  | zero => rfl
  | succ k ih =>
    rw [Function.iterate_succ_apply']
    cases k with
    | zero => rfl
    | succ k =>
      rw [Function.iterate_succ_apply'] at ih ⊢
      exact ih

theorem message_layers (k : Nat) (f : Fault) : (wrap^[k] f).message = f.message := by
  induction k with
  | zero => rfl
  | succ k ih =>
    rw [Function.iterate_succ_apply']
    exact ih

/-- What leaves the evaluator is reported, and not as a fault of the reader. -/
theorem Layered.reported {f : Fault} (layered : Layered f) :
    ∃ kind cause, f = .reported kind cause ∧ kind ≠ .reading := by
  cases layered with
  | @layers k kind cause raised reading =>
    cases k with
    | zero => exact ⟨kind, cause, rfl, fun h => by cases reading h⟩
    | succ k =>
      rw [Function.iterate_succ_apply']
      exact ⟨_, _, rfl, by rintro ⟨⟩⟩

theorem Layered.wrap {f : Fault} (layered : Layered f) : Layered f.wrap := by
  cases layered with
  | layers k raised _ =>
    have more := Layered.layers (k + 1) raised fun _ => Nat.succ_pos k
    rwa [Function.iterate_succ_apply'] at more

theorem Core.wrap {f : Fault} (core : Core f) : Layered f.wrap := by
  cases core with
  | reported raised => exact .layers 1 raised fun _ => Nat.le_refl 1

theorem Core.escaping {f : Fault} (core : Core f) : f.escaping = f.wrap := by
  cases core with
  | reported _ => rfl

/-- A complaint about arguments is reported as it leaves a builtin. -/
theorem layered_badArguments (f : ArgumentFault) : Layered (badArguments f) :=
  .layers 0 (.invalidArguments f) (by rintro ⟨⟩)

theorem layered_nonFunction (value : Datum) : Layered (unevaluable (nonFunction value)) :=
  .layers 0 (.nonFunction value) (by rintro ⟨⟩)

/-- A builtin puts a layer around a report. -/
theorem Layered.escaping {f : Fault} (layered : Layered f) : f.escaping = f.wrap := by
  obtain ⟨kind, cause, rfl, _⟩ := layered.reported
  rfl

end Fault

open Fault

section Reading

theorem parseAtom_eq_error {t : Text} {f : Fault} (h : parseAtom t = .error f) :
    f = .unreadable (.unparsableAtom t) := by
  unfold parseAtom at h
  dsimp only at h
  split at h
  · cases h
    rfl
  split at h
  · cases h
  split at h
  · cases h
  split at h
  · split at h <;> cases h
    rfl
  · split at h <;> cases h
    rfl

namespace Reader

/-- A fault that a move ends the reading with is one of its token. -/
def Move.BlamesToken (m : Move) : Prop := ∀ f, m = .spoil f ∨ m = .refuse f → Blamed f

theorem blamesToken_settle (d : Datum) (stack : List Pending) :
    (settle d stack).BlamesToken := by
  induction stack generalizing d with
  | nil => rintro f (h | h) <;> cases h
  | cons p stack ih =>
    cases p with
    | quotation => exact ih _
    | list reversed => rintro f (h | h) <;> cases h
    | tail reversed => rintro f (h | h) <;> cases h

theorem blamesToken_invalid (t : Token) : (invalid t).BlamesToken := by
  rintro f (h | h) <;> cases h
  exact .invalidToken t.text

theorem blamesToken_begin (stack : List Pending) (t : Token) : (begin stack t).BlamesToken := by
  have next (s : State) : (Move.next s).BlamesToken := by rintro f (h | h) <;> cases h
  unfold begin
  split
  · exact next _
  · exact next _
  · exact blamesToken_invalid t
  all_goals
    split
    · exact blamesToken_settle _ _
    next f failed =>
      rintro _ (h | h) <;> cases h
      rw [parseAtom_eq_error failed]
      exact .unparsableAtom t.text

theorem blamesToken_move (s : State) (t : Token) : (s.move t).BlamesToken := by
  have next (s : State) : (Move.next s).BlamesToken := by rintro f (h | h) <;> cases h
  unfold State.move
  split
  · split
    · exact blamesToken_settle _ _
    · exact blamesToken_invalid t
  · exact blamesToken_begin _ t
  · split
    · rintro f (h | h) <;> cases h
      exact .emptyQuote
    · exact blamesToken_begin _ t
  · split
    · exact blamesToken_settle _ _
    split
    · split
      · exact blamesToken_invalid t
      · exact next _
    · exact blamesToken_begin _ t
  · split
    · exact blamesToken_invalid t
    · exact blamesToken_begin _ t

theorem core_of_atEnd {s : State} {f : Fault} (h : s.atEnd = some f) : Core f := by
  unfold State.atEnd at h
  split at h <;> cases h
  · exact .reported .emptyQuote
  · exact .reported (.unmatchedToken ['('])

theorem core_of_forms {lexFault : Option Fault} (lexed : ∀ f ∈ lexFault, Core f) {ts : List Token}
    {s : State} {f : Fault} (h : (s.forms lexFault ts).fault = some f) : Core f := by
  induction ts generalizing s with
  | nil =>
    cases lexFault with
    | none => exact core_of_atEnd h
    | some g => exact lexed f h
  | cons t ts ih =>
    have blames := blamesToken_move s t
    rw [State.forms] at h
    split at h
    · exact ih h
    · exact ih h
    next g move =>
      cases h
      exact (blames _ (Or.inl move)).core
    next g move =>
      cases h
      exact (blames _ (Or.inr move)).core

end Reader

theorem read_eq_error {t : Text} {f : Fault} (h : FexprLisp.read t = .error f) : Core f := by
  rw [FexprLisp.read] at h
  split at h
  · cases h
  next g forms =>
    cases h
    refine Reader.core_of_forms ?_ (congrArg Reader.Reading.fault forms)
    intro f hf
    rw [Lexed.fault?] at hf
    split at hf <;> cases hf
    exact .reported (.unmatchedToken ['"'])

end Reading

/-- That a computation ends in no faults but certain ones. -/
def Promise.faults (P : Fault → Prop) : Promise where
  Holds _ := True
  Change _ _ := True
  Stops e := ∀ f, e = .fault f → P f
  refl _ := trivial
  trans _ _ := trivial

theorem Stop.Own.fault {f : Fault} (own : Stop.Own (.fault f)) :
    (∃ a, f = .invalidArguments a) ∨ Core f := by
  cases own with
  | unknownSymbol name => exact Or.inr (.reported (.unknownSymbol name))
  | globalExists name => exact Or.inr (.reported (.globalExists name))
  | nonFunction value => exact Or.inr (.reported (.nonFunction value))
  | invalidArguments a => exact Or.inl ⟨a, rfl⟩
  | badArguments a => exact Or.inr (.reported (.invalidArguments a))
  | unreadable failed => exact Or.inr (read_eq_error failed)
  | outside other => exact absurd rfl (other f)

theorem Promise.faults_kept {P : Fault → Prop} (invalid : ∀ a, P (.invalidArguments a))
    (core : ∀ f, Core f → P f) : (Promise.faults P).Kept .identity where
  name _ := rfl
  forms _ := Matching.identity_refl _
  own own := by
    rintro f rfl
    rcases own.fault with ⟨a, rfl⟩ | raised
    · exact invalid a
    · exact core f raised
  lookup _ _ _ := ⟨_, rfl⟩
  bindGlobal _ _ _ _ := ⟨trivial, trivial⟩
  assign _ _ _ _ _ := ⟨trivial, trivial⟩
  push _ _ := trivial
  pop _ _ _ _ _ := ⟨trivial, trivial⟩
  enter _ _ _ _ := trivial
  leave _ _ _ _ _ := ⟨trivial, trivial⟩

namespace Run

variable {α : Type} {φ : α → α → Prop} {P : Fault → Prop}

theorem Fulfils.fault {x : Run α} (fulfils : x.Fulfils (.faults P) φ) {m m' : Machine} {f : Fault}
    (h : x m = some (.error (.fault f), m')) : P f := by
  cases (fulfils m _ m' trivial h).ends with
  | error stops => exact stops f rfl

theorem fulfils_faults {x : Run α} (results : ∀ a, φ a a)
    (faults : ∀ m f m', x m = some (.error (.fault f), m') → P f) : x.Fulfils (.faults P) φ := by
  intro m r m' _ h
  refine ⟨trivial, trivial, ?_⟩
  cases r with
  | ok a => exact .ok (results a)
  | error e =>
    refine .error ?_
    rintro f rfl
    exact faults m f m' h

/-- Every fault that a computation ends in is one of `P`. -/
abbrev FaultsIn (P : Fault → Prop) (x : Run α) : Prop := x.Fulfils (.faults P) fun _ _ => True

theorem faultsIn_of {x : Run α} (faults : ∀ m f m', x m = some (.error (.fault f), m') → P f) :
    x.FaultsIn P := fulfils_faults (fun _ => trivial) faults

theorem FaultsIn.bind {β : Type} {x : Run α} {f : α → Run β} (first : x.FaultsIn P)
    (rest : ∀ a, (f a).FaultsIn P) : (x >>= f).FaultsIn P :=
  Fulfils.bind first fun a _ _ => rest a

theorem faultsIn_pure (a : α) : (Pure.pure a : Run α).FaultsIn P := fulfils_pure (b := a) trivial

theorem faultsIn_stop {e : Stop} (other : ∀ f, e ≠ .fault f) : (stop e : Run α).FaultsIn P :=
  fulfils_stop fun f same => absurd same (other f)

theorem faultsIn_fail {f : Fault} (allowed : P f) : (fail f : Run α).FaultsIn P :=
  fulfils_stop (by rintro _ ⟨⟩; exact allowed)

theorem faultsIn_ofExcept {e : Except Fault α} (faults : ∀ f, e = .error f → P f) :
    (ofExcept e).FaultsIn P := by
  cases e with
  | ok a => exact faultsIn_pure a
  | error f => exact faultsIn_fail (faults f rfl)

theorem FaultsIn.inScope {x : Run α} (inner : x.FaultsIn P) : (inScope x).FaultsIn P :=
  Fulfils.inScope inner (fun _ _ => trivial) fun _ _ _ _ _ => ⟨trivial, trivial⟩

theorem FaultsIn.spawned {x : Run Datum} (inner : x.FaultsIn P) (frame : Bindings) :
    (Console.spawned frame x).FaultsIn P :=
  fulfils_spawnNote.bind fun _ _ _ =>
    Fulfils.withFrames inner _ (fun _ _ => trivial) fun _ _ _ _ _ => ⟨trivial, trivial⟩

end Run

section Evaluators

open Fault

variable {P : Fault → Prop} {host : Host} {ev : Evaluator} (evals : ∀ d, (ev d).FaultsIn P)

include evals

theorem values_faultsIn (es : List Datum) : (Arguments.values ev es).FaultsIn P := by
  induction es with
  | nil => exact Run.faultsIn_pure []
  | cons e es ih => exact (evals e).bind fun v => ih.bind fun vs => Run.faultsIn_pure (v :: vs)

theorem sequence_faultsIn (forms : List Datum) : (Arguments.sequence ev forms).FaultsIn P := by
  induction forms with
  | nil => exact Run.faultsIn_pure Datum.nil
  | cons e es ih =>
    cases es with
    | nil => exact evals e
    | cons e' es => exact (evals e).bind fun _ => ih

variable (raised : ∀ {kind cause}, Raised kind cause → kind ≠ .reading → P (.reported kind cause))

include raised

theorem operands_faultsIn (args : Datum) : (Eval.operands ev args).FaultsIn P := by
  have dotted : (Run.fail (.badArguments .dottedPair) : Run (List Datum)).FaultsIn P :=
    Run.faultsIn_fail (raised (.invalidArguments _) (by rintro ⟨⟩))
  induction args with
  | nil => exact Run.faultsIn_pure []
  | pair e rest _ ih => exact (evals e).bind fun v => ih.bind fun vs => Run.faultsIn_pure (v :: vs)
  | _ => exact dotted

theorem applyFunction_faultsIn (params : List Text) (forms : List Datum) (args : Datum) :
    (Eval.applyFunction ev params forms args).FaultsIn P := by
  refine (operands_faultsIn evals raised args).bind fun vs => ?_
  split
  · exact Run.faultsIn_fail (raised (.invalidArguments _) (by rintro ⟨⟩))
  · exact (sequence_faultsIn evals forms).spawned _

theorem step_faultsIn {fuel : Nat}
    (natives : ∀ f args, (Eval.applyNative host ev fuel f args).FaultsIn P) (d : Datum) :
    (Eval.step host ev fuel d).FaultsIn P := by
  cases d with
  | symbol name =>
    refine Run.fulfils_env fun e _ => Run.faultsIn_ofExcept fun f failed => ?_
    rw [Promise.lookup_eq_error failed]
    exact raised (.unknownSymbol name) (by rintro ⟨⟩)
  | quoted d => exact Run.faultsIn_pure d
  | pair head args =>
    refine (evals head).bind fun v => ?_
    cases v with
    | native f => exact natives f args
    | func params forms => exact applyFunction_faultsIn evals raised params forms args
    | char c => exact Run.faultsIn_pure (Datum.pair head args)
    | _ => exact Run.faultsIn_fail (raised (.nonFunction _) (by rintro ⟨⟩))
  | _ => exact Run.faultsIn_pure _

end Evaluators

end FexprLisp
