import FexprLisp.Proofs.Barring
import FexprLisp.Proofs.Fuel
import FexprLisp.Proofs.Scope

/-!
# Renaming

The language knows no name but the empty one, and looks into no payload. If all symbols, parameters
and bindings are renamed and all payloads exchanged, by injective maps of which the first leaves the
empty name alone, then an evaluation does what it did before, up to that renaming and to what it
prints. Reading and including bring in names that are not renamed, so an evaluation must call
neither.
-/

namespace FexprLisp

structure Renaming where
  name : Text → Text
  label : Text → Text
  name_injective : Function.Injective name
  label_injective : Function.Injective label
  name_nil : name [] = []

variable (r : Renaming)

namespace Datum

mutual
def rename (r : Renaming) : Datum → Datum
  | nil => nil
  | truth => truth
  | number v => number v
  | char c => char c
  | symbol n => symbol (r.name n)
  | quoted d => quoted (rename r d)
  | pair h t => pair (rename r h) (rename r t)
  | func params body => func (params.map r.name) (renameForms r body)
  | native f => native f
  | payload l => payload (r.label l)

/-- The members of a body. -/
def renameForms (r : Renaming) : List Datum → List Datum
  | [] => []
  | d :: ds => rename r d :: renameForms r ds
end

theorem renameForms_eq_map (ds : List Datum) : renameForms r ds = ds.map (rename r) := by
  induction ds with
  | nil => rfl
  | cons d ds ih => rw [renameForms, ih, List.map_cons]

theorem rename_func (params : List Text) (body : List Datum) :
    (func params body).rename r = func (params.map r.name) (body.map (rename r)) := by
  rw [rename, renameForms_eq_map]

theorem equal_rename (a b : Datum) : (a.rename r).equal (b.rename r) = a.equal b := by
  induction a generalizing b with
  | symbol n =>
    cases b with
    | symbol n' => simp [rename, equal, r.name_injective.eq_iff]
    | _ => rfl
  | payload l =>
    cases b with
    | payload l' => simp [rename, equal, r.label_injective.eq_iff]
    | _ => rfl
  | quoted d ih =>
    cases b with
    | quoted d' => exact ih d'
    | _ => rfl
  | pair h t ihh iht =>
    cases b with
    | pair h' t' => rw [rename, rename, equal, equal, ihh, iht]
    | _ => rfl
  | _ => cases b <;> rfl

end Datum

namespace Bindings

def rename (b : Bindings) : Bindings := ⟨b.entries.map fun e => (r.name e.1, e.2.rename r)⟩

variable (b : Bindings) (n : Text) (v : Datum)

theorem find?_rename : (b.rename r).find? (r.name n) = (b.find? n).map (Datum.rename r) := by
  obtain ⟨entries⟩ := b
  induction entries with
  | nil => rfl
  | cons e es ih =>
    obtain ⟨key, value⟩ := e
    simp only [find?, rename] at ih ⊢
    by_cases same : n = key
    · simp [same]
    · have other : r.name n ≠ r.name key := fun equal => same (r.name_injective equal)
      rw [List.map_cons, List.lookup_cons, List.lookup_cons, beq_false_of_ne other,
        beq_false_of_ne same]
      exact ih

theorem holds_rename : (b.rename r).holds (r.name n) = b.holds n := by
  rw [holds, holds, find?_rename, Option.isSome_map]

theorem put_rename : (b.put n v).rename r = (b.rename r).put (r.name n) (v.rename r) := by
  obtain ⟨entries⟩ := b
  simp only [put, rename, mk.injEq]
  induction entries with
  | nil => rfl
  | cons e es ih =>
    rw [List.map_cons, putEntry, putEntry]
    by_cases same : n = e.1
    · rw [if_pos same, if_pos (congrArg r.name same), List.map_cons]
    · rw [if_neg same, if_neg fun equal => same (r.name_injective equal), List.map_cons, ih]

theorem putAll_rename (ps : List Text) (vs : List Datum) :
    (b.putAll (ps.zip vs)).rename r =
      (b.rename r).putAll ((ps.map r.name).zip (vs.map (Datum.rename r))) := by
  induction ps generalizing b vs with
  | nil => rfl
  | cons p ps ih =>
    cases vs with
    | nil => rfl
    | cons v vs =>
      have rest := ih (b.put p v) vs
      rw [put_rename] at rest
      exact rest

end Bindings

namespace Env

def rename (a : Env) : Env := ⟨a.frames.map (Bindings.rename r), a.globals.rename r⟩

variable (a : Env) (n : Text) (v : Datum)

theorem local?_rename (frames : List Bindings) :
    local? (frames.map (Bindings.rename r)) (r.name n) =
      (local? frames n).map (Datum.rename r) := by
  induction frames with
  | nil => rfl
  | cons f fs ih =>
    rw [List.map_cons, local?_cons, local?_cons, ih, Bindings.find?_rename]
    cases f.find? n <;> rfl

theorem find?_rename : (a.rename r).find? (r.name n) = (a.find? n).map (Datum.rename r) := by
  rw [find?, find?, rename, local?_rename, Bindings.find?_rename]
  cases local? a.frames n <;> rfl

theorem assignLocal?_rename (frames : List Bindings) :
    assignLocal? (r.name n) (v.rename r) (frames.map (Bindings.rename r)) =
      (assignLocal? n v frames).map (List.map (Bindings.rename r)) := by
  induction frames with
  | nil => rfl
  | cons f fs ih =>
    rw [List.map_cons, assignLocal?, assignLocal?, Bindings.holds_rename, ih]
    split
    · rw [Option.map_some, List.map_cons, Bindings.put_rename]
    · cases assignLocal? n v fs <;> rfl

theorem assign?_rename :
    (a.rename r).assign? (r.name n) (v.rename r) = (a.assign? n v).map (rename r) := by
  obtain ⟨frames, globals⟩ := a
  rw [assign?, assign?, rename]
  simp only [assignLocal?_rename, Bindings.holds_rename, ← Bindings.put_rename]
  cases assignLocal? n v frames with
  | some gs => rfl
  | none =>
    dsimp only [Option.map_none]
    split
    · rfl
    · cases frames with
      | nil => rfl
      | cons f fs =>
        simp only [bindLocal?, List.map_cons, ← Bindings.put_rename]
        rfl

theorem rename_pop : (a.rename r).pop = a.pop.rename r := by
  rw [pop, pop, rename, rename, List.map_tail]

end Env

def Fault.rename : Fault → Fault
  | .unknownSymbol n => .unknownSymbol (r.name n)
  | .globalExists n => .globalExists (r.name n)
  | .nonFunction v => .nonFunction (v.rename r)
  | .native c => .native (rename c)
  | .reported k c => .reported k (rename c)
  | f => f

def Stop.rename : Stop → Stop
  | .fault f => .fault (f.rename r)
  | e => e

/-- The renamed value, or the same error with renamed contents. -/
def renameEnd : Except Stop Datum → Except Stop Datum
  | .ok v => .ok (v.rename r)
  | .error e => .error (e.rename r)

theorem Stop.rename_escaping (e : Stop) : (e.rename r).escaping = e.escaping.rename r := by
  cases e with
  | fault f => cases f <;> rfl
  | _ => rfl

theorem forall₂_map_iff {α β : Type} {f : α → β} {l : List α} {l' : List β} :
    List.Forall₂ (fun a b => b = f a) l l' ↔ l' = l.map f := by
  constructor
  · intro related
    induction related with
    | nil => rfl
    | cons same _ ih => rw [same, ih, List.map_cons]
  · rintro rfl
    exact List.forall₂_map_right_iff.mpr (List.forall₂_same.mpr fun _ _ => rfl)

/-- That a datum is another one renamed. -/
def Matching.renaming : Matching where
  Data d d' := d' = d.rename r
  Name n n' := n' = r.name n
  Label l l' := l' = r.label l
  Known _ := True
  layer := by
    intro d d'
    constructor
    · rintro rfl
      cases d with
      | nil => exact .nil
      | truth => exact .truth
      | number v => exact .number v
      | char c => exact .char c
      | symbol n => exact .symbol rfl
      | quoted d => exact .quoted rfl
      | pair h t => exact .pair rfl rfl
      | func ps body =>
        rw [Datum.rename_func]
        exact .func (forall₂_map_iff.mpr rfl) (forall₂_map_iff.mpr rfl)
      | native f => exact .native trivial
      | payload l => exact .payload rfl
    · intro same
      cases same with
      | func ps body =>
        rw [Datum.rename_func, forall₂_map_iff.mp ps, forall₂_map_iff.mp body]
      | _ => simp_all [Datum.rename]
  equal := by
    rintro a _ b _ rfl rfl
    exact (Datum.equal_rename r a b).symm

theorem OwnStops.renaming : OwnStops (.renaming r) (fun e e' => e' = e.rename r) where
  exit _ := rfl
  invalid _ := rfl
  bad _ := rfl
  nonFunction := by
    rintro v _ rfl
    rfl

/-- The same world but for what has been written to it. -/
def World.SameButOutput (w w' : World) : Prop := w' = { w with output := w'.output }

theorem World.SameButOutput.write {w w' : World} (same : w.SameButOutput w') (t t' : Text) :
    (w.write t).SameButOutput (w'.write t') := by
  rw [SameButOutput] at same
  rw [same]
  rfl

theorem World.SameButOutput.note {w w' : World} (same : w.SameButOutput w') (source : LogSource)
    (t : Text) : (w.note source t).SameButOutput (w'.note source t) := by
  rw [SameButOutput] at same
  rw [same]
  rfl

/-- Runs of which one is the other renamed. -/
def Correspondence.renaming : Correspondence where
  toMatching := .renaming r
  Stage := Unit
  alone := ()
  Envs _ a b := b = a.rename r
  Worlds := World.SameButOutput
  Stops e e' := e' = e.rename r
  empty := by
    rintro n _ rfl
    rw [← r.name_injective.eq_iff, r.name_nil]
  find? := by
    rintro _ a _ n _ rfl rfl
    rw [Env.find?_rename]
    cases a.find? n with
    | none => exact .none
    | some v => exact .some rfl
  size := by
    rintro _ a _ rfl
    simp [Env.rename, Bindings.rename, Bindings.size]
  holds := by
    rintro _ a _ n _ rfl rfl
    exact (Bindings.holds_rename r a.globals n).symm
  putGlobal := by
    rintro _ a _ n _ v _ rfl rfl rfl
    rw [Env.rename, Env.rename, Bindings.put_rename]
  assign := by
    rintro _ a _ n _ v _ rfl rfl rfl
    rw [Env.assign?_rename]
    cases a.assign? n v with
    | none => exact .none
    | some b => exact .some rfl
  push := by
    rintro _ a _ rfl
    rfl
  pop := by
    rintro _ a _ b _ _ rfl _ _
    exact b.rename_pop r
  enter := by
    rintro _ a _ ps ps' vs vs' rfl names values
    have frame := Bindings.putAll_rename r .empty ps vs
    rw [forall₂_map_iff.mp names, forall₂_map_iff.mp values]
    exact congrArg (fun f => (⟨[f], a.globals.rename r⟩ : Env)) frame.symm
  leave := by
    rintro _ a _ b _ rfl rfl
    rfl
  note source t worlds := worlds.note source t
  printed worlds _ := worlds.write _ _
  raw worlds _ := worlds.write _ _
  own := .renaming r
  noFrame := rfl
  unknownSymbol := by
    rintro n _ rfl
    rfl
  globalExists := by
    rintro n _ rfl
    rfl
  escaping := by
    rintro e _ rfl
    exact e.rename_escaping r

section Runs

variable {r} {d : Datum} {m n : Machine}

/-- How the outcome of a renamed run compares. -/
inductive Renamed (r : Renaming) : Option (Except Stop Datum × Machine) →
    Option (Except Stop Datum × Machine) → Prop
  | outOfFuel : Renamed r none none
  | ends {s : Except Stop Datum} {m n : Machine} : n.env = m.env.rename r →
      m.world.SameButOutput n.world → Renamed r (some (s, m)) (some (renameEnd r s, n))

theorem Renamed.of_first {o : Option (Except Stop Datum × Machine)} {s : Except Stop Datum}
    (renamed : Renamed r (some (s, m)) o) : ∃ n, o = some (renameEnd r s, n) ∧
      n.env = m.env.rename r ∧ m.world.SameButOutput n.world := by
  cases renamed with
  | ends env world => exact ⟨_, rfl, env, world⟩

theorem Renamed.of_second {o : Option (Except Stop Datum × Machine)} {s' : Except Stop Datum}
    (renamed : Renamed r o (some (s', n))) : ∃ s m, o = some (s, m) ∧ s' = renameEnd r s ∧
      n.env = m.env.rename r ∧ m.world.SameButOutput n.world := by
  cases renamed with
  | ends env world => exact ⟨_, _, rfl, rfl, env, world⟩

theorem renamed_evalBarring {e : Stop} (fixed : e.rename r = e) (env : n.env = m.env.rename r)
    (world : m.world.SameButOutput n.world) (fuel : Nat) :
    Renamed r (evalBarring Native.takesText e fuel d m)
      (evalBarring Native.takesText e fuel (d.rename r) n) := by
  have bars : ∀ b : Builtin, b = .read ∨ b = .includeFile →
      Native.takesText (.builtin b) = true := by
    rintro b (rfl | rfl) <;> rfl
  have met := corresponds_evalBarring (.renaming r) bars fixed.symm fuel d _ rfl () m n ⟨env, world⟩
  generalize evalBarring Native.takesText e fuel d m = o at met ⊢
  generalize evalBarring Native.takesText e fuel (d.rename r) n = p at met ⊢
  cases met with
  | outOfFuel => exact .outOfFuel
  | ends result machines _ _ =>
    cases result with
    | ok same => exact same ▸ .ends machines.env machines.world
    | error same => exact same ▸ .ends machines.env machines.world

/-- If an evaluation calls nothing that takes text, then neither does the renamed one: it would stop
in two ways where the evaluation stops in one. -/
theorem renamed_eval (calls : CallsNone Native.takesText d m) (env : n.env = m.env.rename r)
    (world : m.world.SameButOutput n.world) (fuel : Nat) :
    Renamed r (eval Host.empty fuel d m) (eval Host.empty fuel (d.rename r) n) := by
  have one := renamed_evalBarring (r := r) (d := d) (e := .endOfInput) rfl env world fuel
  have other := renamed_evalBarring (r := r) (d := d) (e := .noFrame) rfl env world fuel
  rw [calls] at one other
  rcases evalBarring_cases (e := .endOfInput) rfl fuel (d.rename r) n with ⟨n₁, stopped⟩ | same
  · rcases evalBarring_cases (e := .noFrame) rfl fuel (d.rename r) n with ⟨n₂, stopped'⟩ | same
    · rw [stopped] at one
      rw [stopped'] at other
      obtain ⟨s, m₁, ends, end₁, _⟩ := one.of_second
      obtain ⟨s', m₂, ends', end₂, _⟩ := other.of_second
      rw [ends] at ends'
      cases ends'
      rw [← end₁] at end₂
      cases end₂
    · rw [same] at other
      exact other
  · rw [same] at one
    exact one

end Runs

/-- Renaming commutes with evaluation, on machines that differ in that renaming and in what has been
written, if the evaluation calls nothing that takes text from outside. The renamed expression ends
if the other does, with the renamed value or the same stop with renamed contents, and leaves the
renamed environment and the same world but for what is written. -/
theorem eval_rename (d : Datum) (m n : Machine) (calls : CallsNone Native.takesText d m)
    (env : n.env = m.env.rename r) (world : m.world.SameButOutput n.world) :
    (Diverges d m ↔ Diverges (d.rename r) n) ∧
    (∀ fuel s m', eval Host.empty fuel d m = some (s, m') →
      ∃ n', eval Host.empty fuel (d.rename r) n = some (renameEnd r s, n') ∧
        n'.env = m'.env.rename r ∧ m'.world.SameButOutput n'.world) ∧
    ∀ fuel s' n', eval Host.empty fuel (d.rename r) n = some (s', n') →
      ∃ s m', eval Host.empty fuel d m = some (s, m') ∧ s' = renameEnd r s ∧
        n'.env = m'.env.rename r ∧ m'.world.SameButOutput n'.world := by
  have renamed := renamed_eval calls env world
  refine ⟨?_, ?_, ?_⟩
  · constructor
    · intro endless fuel
      have outcome := renamed fuel
      rw [endless fuel] at outcome
      generalize eval Host.empty fuel (d.rename r) n = o at outcome ⊢
      cases outcome
      rfl
    · intro endless fuel
      have outcome := renamed fuel
      rw [endless fuel] at outcome
      generalize eval Host.empty fuel d m = o at outcome ⊢
      cases outcome
      rfl
  · intro fuel s m' ends
    have outcome := renamed fuel
    rw [ends] at outcome
    exact outcome.of_first
  · intro fuel s' n' ends
    have outcome := renamed fuel
    rw [ends] at outcome
    exact outcome.of_second

/-- A letter before every name but the empty one, and another one before every payload. -/
def Renaming.marked : Renaming where
  name t := if t = [] then [] else 'n' :: t
  label t := 'p' :: t
  name_injective := by
    intro t u same
    by_cases ht : t = [] <;> by_cases hu : u = [] <;> simp_all
  label_injective := List.cons_injective
  name_nil := rfl

/-- A call of a function that makes a pair of its argument and a payload. -/
def pairing : Datum :=
  .ofList [.func [['x']] [.ofList [.native (.builtin .cons), .symbol ['x'], .payload ['a']]],
    .quoted (.symbol ['y'])]

theorem callsNone_pairing : CallsNone Native.takesText pairing emptyMachine := by
  intro e fuel
  match fuel with
  | 0 => rfl
  | 1 => rfl
  | 2 => rfl
  | 3 => rfl
  | fuel + 4 =>
    have ends : eval Host.empty (fuel + 4) pairing emptyMachine =
        some (.ok (.pair (.symbol ['y']) (.payload ['a'])), _) := rfl
    rw [ends]
    rfl

theorem eval_rename_sample :
    CallsNone Native.takesText pairing emptyMachine ∧
      emptyMachine.env = emptyMachine.env.rename .marked ∧
      emptyMachine.world.SameButOutput emptyMachine.world ∧
      ∃ n, eval Host.empty 4 (pairing.rename .marked) emptyMachine =
        some (.ok (.pair (.symbol ['n', 'y']) (.payload ['p', 'a'])), n) := by
  have value : renameEnd .marked (.ok (.pair (.symbol ['y']) (.payload ['a']))) =
      .ok (.pair (.symbol ['n', 'y']) (.payload ['p', 'a'])) := rfl
  obtain ⟨_, forward, _⟩ := eval_rename .marked pairing emptyMachine emptyMachine
    callsNone_pairing rfl rfl
  obtain ⟨n, ends, _⟩ := forward 4 (.ok (.pair (.symbol ['y']) (.payload ['a']))) _ rfl
  rw [value] at ends
  exact ⟨callsNone_pairing, rfl, rfl, n, ends⟩

end FexprLisp
