import FexprLisp.Eval
import Mathlib.Data.List.Forall2

/-!
# Congruences

A relation between computations is a congruence if the steps that builtins are made of keep it. Two
runs of one computation from different machines, the runs of a computation with little and with much
fuel, or a single run and what it may change can all be compared so. What is stated here of
arguments and builtins holds for every congruence.
-/

namespace FexprLisp

/-- Data of one shape whose parts are related. -/
inductive Layer (Data : Datum → Datum → Prop) (Name Label : Text → Text → Prop)
    (Known : Native → Prop) : Datum → Datum → Prop
  | nil : Layer Data Name Label Known .nil .nil
  | truth : Layer Data Name Label Known .truth .truth
  | number (v : Single) : Layer Data Name Label Known (.number v) (.number v)
  | char (c : Char) : Layer Data Name Label Known (.char c) (.char c)
  | symbol {n n' : Text} : Name n n' → Layer Data Name Label Known (.symbol n) (.symbol n')
  | quoted {d d' : Datum} : Data d d' → Layer Data Name Label Known (.quoted d) (.quoted d')
  | pair {h h' t t' : Datum} : Data h h' → Data t t' →
      Layer Data Name Label Known (.pair h t) (.pair h' t')
  | func {ps ps' : List Text} {body body' : List Datum} : List.Forall₂ Name ps ps' →
      List.Forall₂ Data body body' → Layer Data Name Label Known (.func ps body) (.func ps' body')
  | native {f : Native} : Known f → Layer Data Name Label Known (.native f) (.native f)
  | payload {l l' : Text} : Label l l' → Layer Data Name Label Known (.payload l) (.payload l')

/-- A relation between data that looks at them layer by layer. -/
structure Matching where
  Data : Datum → Datum → Prop
  Name : Text → Text → Prop
  Label : Text → Text → Prop
  Known : Native → Prop
  layer (d d' : Datum) : Data d d' ↔ Layer Data Name Label Known d d'
  equal {a a' b b' : Datum} : Data a a' → Data b b' → a.equal b = a'.equal b'

namespace Matching

theorem eq_of_forall₂ {α : Type} {l l' : List α} (h : List.Forall₂ Eq l l') : l = l' := by
  rwa [List.forall₂_eq_eq_eq] at h

variable (M : Matching)

/-- Every datum matches itself only. -/
def identity : Matching where
  Data := Eq
  Name := Eq
  Label := Eq
  Known := fun _ => True
  layer := by
    intro d d'
    constructor
    · rintro rfl
      cases d with
      | nil => exact .nil
      | truth => exact .truth
      | number v => exact .number v
      | char c => exact .char c
      | symbol n => exact .symbol rfl
      | quoted d => exact .quoted rfl
      | pair h t => exact .pair rfl rfl
      | func ps body => exact .func (by simp) (by simp)
      | native f => exact .native trivial
      | payload l => exact .payload rfl
    · intro same
      cases same with
      | func ps body => rw [eq_of_forall₂ ps, eq_of_forall₂ body]
      | _ => simp_all
  equal := by
    rintro a a' b b' rfl rfl
    rfl

theorem identity_refl (ds : List Datum) : List.Forall₂ identity.Data ds ds :=
  List.forall₂_same.mpr fun _ _ => rfl

theorem nil : M.Data .nil .nil := (M.layer _ _).mpr .nil

theorem ofBool (b : Bool) : M.Data (.ofBool b) (.ofBool b) := by
  cases b with
  | false => exact M.nil
  | true => exact (M.layer _ _).mpr .truth

theorem number (v : Single) : M.Data (.number v) (.number v) := (M.layer _ _).mpr (.number v)

theorem pair {h h' t t' : Datum} (head : M.Data h h') (tail : M.Data t t') :
    M.Data (.pair h t) (.pair h' t') := (M.layer _ _).mpr (.pair head tail)

theorem elements {d d' : Datum} (same : M.Data d d') :
    List.Forall₂ M.Data d.elements d'.elements := by
  induction d generalizing d' with
  | pair h t _ iht =>
    cases (M.layer _ _).mp same with
    | pair head tail => exact .cons head (iht tail)
  | _ =>
    cases (M.layer _ _).mp same
    exact .nil

theorem isProper {d d' : Datum} (same : M.Data d d') : d.isProper = d'.isProper := by
  induction d generalizing d' with
  | pair h t _ iht =>
    cases (M.layer _ _).mp same with
    | pair _ tail =>
      have rest := iht tail
      exact rest
  | _ =>
    cases (M.layer _ _).mp same
    rfl

theorem isTrue {d d' : Datum} (same : M.Data d d') : d.isTrue = d'.isTrue := by
  cases (M.layer _ _).mp same <;> rfl

theorem text? {d d' : Datum} (same : M.Data d d') : d.text? = d'.text? := by
  induction d generalizing d' with
  | pair h t _ iht =>
    cases (M.layer _ _).mp same with
    | pair head tail =>
      cases (M.layer _ _).mp head with
      | char c => rw [Datum.text?, Datum.text?, iht tail]
      | _ => rfl
  | _ =>
    cases (M.layer _ _).mp same
    rfl

theorem isString {d d' : Datum} (same : M.Data d d') : d.isString = d'.isString := by
  have text := M.text? same
  cases (M.layer _ _).mp same with
  | nil => rfl
  | _ => exact congrArg Option.isSome text

end Matching

/-- The same settings and the same files. -/
structure World.SameOutside (w w' : World) : Prop where
  settings : w.settings = w'.settings
  entry : w.entry = w'.entry

namespace World.SameOutside

theorem refl (w : World) : SameOutside w w := ⟨rfl, rfl⟩

variable {w w' : World} (same : w.SameOutside w')
include same

theorem firstExisting? (paths : List Path) : w.firstExisting? paths = w'.firstExisting? paths := by
  induction paths with
  | nil => rfl
  | cons path paths ih =>
    rw [World.firstExisting?, World.firstExisting?, World.exists?, World.exists?, same.entry, ih]

theorem resolve (name : Text) : w.resolve name = w'.resolve name := by
  rw [World.resolve, World.resolve, same.settings, same.firstExisting?]

theorem readFile (path : Path) : w.readFile path = w'.readFile path := by
  rw [World.readFile, World.readFile, same.entry]

end World.SameOutside

/-- Stops that meet where calls and builtins refuse what they are given, or end the program. -/
structure OwnStops (M : Matching) (Stops : Stop → Stop → Prop) : Prop where
  exit (status : Int) : Stops (.exit status) (.exit status)
  invalid (f : ArgumentFault) :
    Stops (.fault (.invalidArguments f)) (.fault (.invalidArguments f))
  bad (f : ArgumentFault) : Stops (.fault (.badArguments f)) (.fault (.badArguments f))
  nonFunction {v v' : Datum} : M.Data v v' →
    Stops (.fault (.unevaluable (.nonFunction v))) (.fault (.unevaluable (.nonFunction v')))

theorem OwnStops.identity : OwnStops .identity Eq where
  exit _ := rfl
  invalid _ := rfl
  bad _ := rfl
  nonFunction := by
    rintro v _ rfl
    rfl

/-- What reading and including need in addition. -/
structure ReadsOutside (M : Matching)
    (Related : {α : Type} → (α → α → Prop) → Run α → Run α → Prop) (Stops : Stop → Stop → Prop) :
    Prop where
  world : Related World.SameOutside Run.world Run.world
  readLine (prompt : Text) : Related Eq (Console.readLine prompt) (Console.readLine prompt)
  prompt : Related M.Data Console.defaultPrompt Console.defaultPrompt
  forms {t : Text} {fs : List Datum} : read t = .ok fs → List.Forall₂ M.Data fs fs
  unreadable {t : Text} {f : Fault} : read t = .error f → Stops (.fault f) (.fault f)
  resolve {w : World} {name : Text} {e : Stop} : w.resolve name = .error e → Stops e e
  readFile {w : World} {p : Path} {e : Stop} : w.readFile p = .error e → Stops e e

/-- `Related φ x y` compares two computations whose results, if both have one, are related by `φ`;
`Stops` are the other ends that may meet, and `Fuels` the amounts of fuel. -/
structure Congruence extends Matching where
  Related : {α : Type} → (α → α → Prop) → Run α → Run α → Prop
  Stops : Stop → Stop → Prop
  Fuels : Nat → Nat → Prop
  pure {α : Type} {φ : α → α → Prop} {a b : α} : φ a b → Related φ (Pure.pure a) (Pure.pure b)
  bind {α β : Type} {φ : α → α → Prop} {ψ : β → β → Prop} {x y : Run α} {f g : α → Run β} :
    Related φ x y → (∀ a b, φ a b → Related ψ (f a) (g b)) → Related ψ (x >>= f) (y >>= g)
  stop {α : Type} {φ : α → α → Prop} {e e' : Stop} : Stops e e' →
    Related φ (Run.stop e) (Run.stop e')
  /-- Without fuel there is nothing to compare, unless the other side has none either. -/
  spent {α : Type} {φ : α → α → Prop} {k : Nat} {y : Run α} : Fuels 0 k →
    (k = 0 → y = Run.outOfFuel) → Related φ Run.outOfFuel y
  burn {n k : Nat} : Fuels (n + 1) k → ∃ k', k = k' + 1 ∧ Fuels n k'
  lookup {n n' : Text} : Name n n' →
    Related Data (Run.env >>= fun e => Run.ofExcept (e.lookup n))
      (Run.env >>= fun e => Run.ofExcept (e.lookup n'))
  bindGlobal {n n' : Text} {v v' : Datum} : Name n n' → Data v v' →
    Related (fun _ _ => True) (Forms.bindGlobal n v) (Forms.bindGlobal n' v')
  assignTo {n n' : Text} {v v' : Datum} : Known (.builtin .assign) → Name n n' → Data v v' →
    Related (fun _ _ => True) (Forms.assignTo n v) (Forms.assignTo n' v')
  inScope {α : Type} {φ : α → α → Prop} {x y : Run α} : Related φ x y →
    Related φ (Run.inScope x) (Run.inScope y)
  spawned {ps ps' : List Text} {vs vs' : List Datum} {x y : Run Datum} :
    List.Forall₂ Name ps ps' → List.Forall₂ Data vs vs' → Related Data x y →
      Related Data (Console.spawned (Bindings.empty.putAll (ps.zip vs)) x)
        (Console.spawned (Bindings.empty.putAll (ps'.zip vs')) y)
  printed {v v' : Datum} : Data v v' → Related (fun _ _ => True)
    (Run.write (Console.newline v.printed)) (Run.write (Console.newline v'.printed))
  raw {v v' : Datum} : Data v v' → Related (fun _ _ => True)
    (Run.write (Console.newline v.raw)) (Run.write (Console.newline v'.raw))
  note (source : LogSource) (t : Text) : Related (fun _ _ => True) (Run.note source t)
    (Run.note source t)
  own : OwnStops toMatching Stops

/-- A congruence that also holds behind what a call makes of the faults of a builtin, and of all
that data can call. -/
structure CallCongruence extends Congruence where
  outside : Known (.builtin .read) ∨ Known (.builtin .includeFile) →
    ReadsOutside toMatching Related Stops
  escaping {α : Type} {φ : α → α → Prop} {x y : Run α} : Related φ x y →
    Related φ (Run.mapFault .escaping x) (Run.mapFault .escaping y)

/-- Equal amounts of fuel stay equal. -/
theorem Congruence.burn_eq {n k : Nat} (less : n + 1 = k) : ∃ k', k = k' + 1 ∧ n = k' :=
  ⟨n, less.symm, rfl⟩

/-- A line is read by looking at the world and replacing it. -/
theorem Congruence.readLine (C : Congruence) (world : C.Related Eq Run.world Run.world)
    (setWorld : ∀ w, C.Related (fun _ _ => True) (Run.setWorld w) (Run.setWorld w))
    (endOfInput : C.Stops .endOfInput .endOfInput) (prompt : Text) :
    C.Related Eq (Console.readLine prompt) (Console.readLine prompt) := by
  have written := C.bind world fun w w' (same : w = w') => by
    rw [same]
    exact setWorld (w'.write prompt)
  refine C.bind written fun _ _ _ => C.bind world ?_
  rintro w _ rfl
  split
  · exact C.bind (setWorld _) fun _ _ _ => C.pure rfl
  · exact C.stop endOfInput

/-- What a relation has to keep to be a congruence of equal data with equal stops. -/
structure Likeness where
  Related : {α : Type} → (α → α → Prop) → Run α → Run α → Prop
  Fuels : Nat → Nat → Prop
  pure {α : Type} {φ : α → α → Prop} {a b : α} : φ a b → Related φ (Pure.pure a) (Pure.pure b)
  bind {α β : Type} {φ : α → α → Prop} {ψ : β → β → Prop} {x y : Run α} {f g : α → Run β} :
    Related φ x y → (∀ a b, φ a b → Related ψ (f a) (g b)) → Related ψ (x >>= f) (y >>= g)
  stop {α : Type} {φ : α → α → Prop} (e : Stop) : Related φ (Run.stop e) (Run.stop e)
  spent {α : Type} {φ : α → α → Prop} {k : Nat} {y : Run α} : Fuels 0 k →
    (k = 0 → y = Run.outOfFuel) → Related φ Run.outOfFuel y
  burn {n k : Nat} : Fuels (n + 1) k → ∃ k', k = k' + 1 ∧ Fuels n k'
  lookup (n : Text) : Related Eq (Run.env >>= fun e => Run.ofExcept (e.lookup n))
    (Run.env >>= fun e => Run.ofExcept (e.lookup n))
  bindGlobal (n : Text) (v : Datum) :
    Related (fun _ _ => True) (Forms.bindGlobal n v) (Forms.bindGlobal n v)
  assignTo (n : Text) (v : Datum) :
    Related (fun _ _ => True) (Forms.assignTo n v) (Forms.assignTo n v)
  inScope {α : Type} {φ : α → α → Prop} {x y : Run α} : Related φ x y →
    Related φ (Run.inScope x) (Run.inScope y)
  spawned (frame : Bindings) {x y : Run Datum} : Related Eq x y →
    Related Eq (Console.spawned frame x) (Console.spawned frame y)
  write (t : Text) : Related (fun _ _ => True) (Run.write t) (Run.write t)
  note (source : LogSource) (t : Text) : Related (fun _ _ => True) (Run.note source t)
    (Run.note source t)
  world : Related World.SameOutside Run.world Run.world
  readLine (prompt : Text) : Related Eq (Console.readLine prompt) (Console.readLine prompt)
  prompt : Related Eq Console.defaultPrompt Console.defaultPrompt

def Likeness.congruence (l : Likeness) : Congruence where
  toMatching := .identity
  Related := l.Related
  Stops := Eq
  Fuels := l.Fuels
  pure := l.pure
  bind := l.bind
  stop := by
    rintro _ _ e _ rfl
    exact l.stop e
  spent := l.spent
  burn := l.burn
  lookup := by
    rintro n _ rfl
    exact l.lookup n
  bindGlobal := by
    rintro n _ v _ rfl rfl
    exact l.bindGlobal n v
  assignTo := by
    rintro n _ v _ _ rfl rfl
    exact l.assignTo n v
  inScope := l.inScope
  spawned := by
    intro ps ps' vs vs' x y names values inner
    obtain rfl : ps = ps' := Matching.eq_of_forall₂ names
    obtain rfl : vs = vs' := Matching.eq_of_forall₂ values
    exact l.spawned _ inner
  printed := by
    rintro v _ rfl
    exact l.write _
  raw := by
    rintro v _ rfl
    exact l.write _
  note := l.note
  own := .identity

theorem Likeness.readsOutside (l : Likeness) :
    ReadsOutside l.congruence.toMatching l.Related l.congruence.Stops where
  world := l.world
  readLine := l.readLine
  prompt := l.prompt
  forms _ := Matching.identity_refl _
  unreadable _ := rfl
  resolve _ := rfl
  readFile _ := rfl

namespace Congruence

variable (C : Congruence)

/-- Two evaluators that treat related expressions alike. -/
def Evaluators (ev ev' : Evaluator) : Prop :=
  ∀ d d', C.Data d d' → C.Related C.Data (ev d) (ev' d')

/-- Two checks of arguments that end alike. -/
inductive Checked {α : Type} (φ : α → α → Prop) : Except Fault α → Except Fault α → Prop
  | ok {a b : α} : φ a b → Checked φ (.ok a) (.ok b)
  | invalid (f : ArgumentFault) :
      Checked φ (.error (.invalidArguments f)) (.error (.invalidArguments f))

variable {C} {ev ev' : Evaluator}

theorem checked {α : Type} {φ : α → α → Prop} {a b : Except Fault α} (h : Checked φ a b) :
    C.Related φ (Run.ofExcept a) (Run.ofExcept b) := by
  cases h with
  | ok h => exact C.pure h
  | invalid f => exact C.stop (C.own.invalid f)

theorem Checked.bind {α β : Type} {φ : α → α → Prop} {ψ : β → β → Prop} {a b : Except Fault α}
    {f g : α → Except Fault β} (h : Checked φ a b)
    (rest : ∀ a b, φ a b → Checked ψ (f a) (g b)) : Checked ψ (a >>= f) (b >>= g) := by
  cases h with
  | ok h => exact rest _ _ h
  | invalid f => exact .invalid f

theorem reject {α : Type} {φ : α → α → Prop} (f : ArgumentFault) :
    C.Related φ (Run.reject f : Run α) (Run.reject f) := C.stop (C.own.invalid f)

section Arguments

open Arguments

theorem split {args args' : Datum} (same : C.Data args args') (required : Nat)
    (most : Option Nat) : Checked (List.Forall₂ C.Data) (split args required most)
      (split args' required most) := by
  have items := C.elements same
  rw [Arguments.split, Arguments.split, C.isProper same, items.length_eq]
  split
  · exact .invalid _
  split
  · exact .invalid _
  split
  · exact .invalid _
  · exact .ok items

theorem one {args args' : Datum} (same : C.Data args args') :
    C.Related C.Data (one args) (one args') := by
  refine C.bind (checked (C.split same 1 (some 1))) ?_
  intro items items' h
  cases h with
  | nil => exact reject _
  | cons h rest =>
    cases rest with
    | nil => exact C.pure h
    | cons _ _ => exact reject _

theorem two {args args' : Datum} (same : C.Data args args') :
    C.Related (fun p q => C.Data p.1 q.1 ∧ C.Data p.2 q.2) (two args) (two args') := by
  refine C.bind (checked (C.split same 2 (some 2))) ?_
  intro items items' h
  cases h with
  | nil => exact reject _
  | cons h rest =>
    cases rest with
    | nil => exact reject _
    | cons h' rest =>
      cases rest with
      | nil => exact C.pure ⟨h, h'⟩
      | cons _ _ => exact reject _

theorem oneAndRest {args args' : Datum} (same : C.Data args args') :
    C.Related (fun p q => C.Data p.1 q.1 ∧ List.Forall₂ C.Data p.2 q.2) (oneAndRest args)
      (oneAndRest args') := by
  refine C.bind (checked (C.split same 1 none)) ?_
  intro items items' h
  cases h with
  | nil => exact reject _
  | cons h rest => exact C.pure ⟨h, rest⟩

theorem optional {args args' : Datum} (same : C.Data args args') :
    C.Related (Option.Rel C.Data) (optional args) (optional args') := by
  refine C.bind (checked (C.split same 0 (some 1))) ?_
  intro items items' h
  cases h with
  | nil => exact C.pure .none
  | cons h _ => exact C.pure (.some h)

theorem symbolName {d d' : Datum} (same : C.Data d d') :
    Checked C.Name (symbolName d) (symbolName d') := by
  cases (C.layer _ _).mp same with
  | symbol h => exact .ok h
  | _ => exact .invalid _

theorem numeric (evals : C.Evaluators ev ev') {e e' : Datum} (same : C.Data e e') :
    C.Related Eq (number ev e) (number ev' e') := by
  refine C.bind (evals _ _ same) ?_
  intro v v' h
  cases (C.layer _ _).mp h with
  | number v => exact C.pure rfl
  | _ => exact reject _

theorem sequence (evals : C.Evaluators ev ev') {es es' : List Datum}
    (same : List.Forall₂ C.Data es es') :
    C.Related C.Data (sequence ev es) (sequence ev' es') := by
  induction same with
  | nil => exact C.pure C.nil
  | cons h rest ih =>
    cases rest with
    | nil => exact evals _ _ h
    | cons h' rest => exact C.bind (evals _ _ h) fun _ _ _ => ih

theorem values (evals : C.Evaluators ev ev') {es es' : List Datum}
    (same : List.Forall₂ C.Data es es') :
    C.Related (List.Forall₂ C.Data) (values ev es) (values ev' es') := by
  induction same with
  | nil => exact C.pure .nil
  | cons h rest ih =>
    refine C.bind (evals _ _ h) fun v v' hv => ?_
    exact C.bind ih fun vs vs' hvs => C.pure (.cons hv hvs)

end Arguments

end Congruence

end FexprLisp
