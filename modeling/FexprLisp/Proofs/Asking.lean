import FexprLisp.Proofs.Faults

/-!
# Asking

A computation that is given an evaluator asks it for evaluations. What it asks for is told by what
happens when the answer does not come: then there is no end. If the answer is a stop, then the
computation stops with it; and if a computation ends in a fault that it does not raise, then it has
asked for an evaluation that ended in this fault.
-/

namespace FexprLisp

open Fault

/-- A computation asks for an evaluation if it comes to an end, and to none once that evaluation has
none. -/
def Asks {α : Type} (x : Evaluator → Run α) (ev : Evaluator) (m : Machine) (d : Datum)
    (n : Machine) : Prop :=
  x ev m ≠ none ∧ ∀ ev' : Evaluator, ev' d n = none →
    (∀ e k, (e, k) ≠ (d, n) → ev' e k = ev e k) → x ev' m = none

/-- A computation asks for the evaluation that it begins with. -/
theorem asks_first {α : Type} {x : Evaluator → Run α} {ev : Evaluator} {m : Machine} {d : Datum}
    (ends : x ev m ≠ none) {f : Evaluator → Datum → Run α}
    (first : ∀ ev, x ev m = (ev d >>= f ev) m) : Asks x ev m d m := by
  refine ⟨ends, ?_⟩
  intro ev' silent _
  rw [first, Run.bind_apply, silent]

namespace Run

variable {α β : Type} {L : Stop × World → Option (Stop × World) → Prop} {φ : α → α → Prop}
  {ψ : β → β → Prop}

/-- How the ends of two computations compare whose evaluators part: they agree, or one has stopped
and the other has stopped in another way or has no end. -/
inductive Parted (L : Stop × World → Option (Stop × World) → Prop) (φ : α → α → Prop) :
    Option (Except Stop α × Machine) → Option (Except Stop α × Machine) → Prop
  | outOfFuel : Parted L φ none none
  | ok {a b : α} (m : Machine) : φ a b → Parted L φ (some (.ok a, m)) (some (.ok b, m))
  | error (e : Stop) (m : Machine) : Parted L φ (some (.error e, m)) (some (.error e, m))
  | lost {e : Stop} {m : Machine} : L (e, m.world) none → Parted L φ (some (.error e, m)) none
  | other {e e' : Stop} {m m' : Machine} : L (e, m.world) (some (e', m'.world)) →
      Parted L φ (some (.error e, m)) (some (.error e', m'))

def Parts (L : Stop × World → Option (Stop × World) → Prop) (φ : α → α → Prop) (x y : Run α) :
    Prop := ∀ m, Parted L φ (x m) (y m)

theorem Parts.bind {x y : Run α} {f g : α → Run β} (first : Parts L φ x y)
    (rest : ∀ a b, φ a b → Parts L ψ (f a) (g b)) : Parts L ψ (x >>= f) (y >>= g) := by
  intro m
  have parted := first m
  rw [bind_apply, bind_apply]
  generalize x m = o at parted ⊢
  generalize y m = p at parted ⊢
  cases parted with
  | outOfFuel => exact .outOfFuel
  | ok m' related => exact rest _ _ related m'
  | error e m' => exact .error e m'
  | lost h => exact .lost h
  | other h => exact .other h

/-- A computation that evaluates nothing. -/
theorem parts_same {x : Run α} (related : ∀ a, φ a a) : Parts L φ x x := by
  intro m
  cases x m with
  | none => exact .outOfFuel
  | some p =>
    obtain ⟨r, m'⟩ := p
    cases r with
    | ok a => exact .ok m' (related a)
    | error e => exact .error e m'

/-- What is done to the environment at whatever end leaves the world. -/
theorem Parted.map {o p : Option (Except Stop α × Machine)} (parted : Parted L φ o p)
    (restore : Env → Env) :
    Parted L φ (o.map fun q => (q.1, { q.2 with env := restore q.2.env }))
      (p.map fun q => (q.1, { q.2 with env := restore q.2.env })) := by
  cases parted with
  | outOfFuel => exact .outOfFuel
  | ok m' related => exact .ok _ related
  | error e m' => exact .error e _
  | lost h => exact .lost h
  | other h => exact .other h

theorem Parts.inScope {x y : Run α} (inner : Parts L φ x y) :
    Parts L φ (inScope x) (inScope y) := by
  intro m
  rw [inScope_apply, inScope_apply]
  exact (inner _).map Env.pop

theorem Parts.withFrames {x y : Run α} (inner : Parts L φ x y) (frames : List Bindings) :
    Parts L φ (withFrames frames x) (withFrames frames y) := by
  intro m
  rw [withFrames_apply, withFrames_apply]
  exact (inner _).map fun env => { env with frames := m.env.frames }

end Run

open Run in
/-- Computations with evaluators that part. -/
def Likeness.parting (L : Stop × World → Option (Stop × World) → Prop) : Likeness where
  Related := Parts L
  Fuels := Eq
  pure related _ := .ok _ related
  bind := Parts.bind
  stop e _ := .error e _
  spent := by
    rintro _ _ k y rfl spent
    rw [spent rfl]
    exact fun _ => .outOfFuel
  burn := Congruence.burn_eq
  lookup _ := parts_same fun _ => rfl
  bindGlobal _ _ := parts_same fun _ => trivial
  assignTo _ _ := parts_same fun _ => trivial
  inScope := Parts.inScope
  spawned _ _ _ inner :=
    (parts_same (φ := Eq) fun _ => rfl).bind fun _ _ _ => inner.withFrames _
  write _ := parts_same fun _ => trivial
  note _ _ := parts_same fun _ => trivial
  world := parts_same .refl
  readLine _ := parts_same fun _ => rfl
  prompt := parts_same fun _ => rfl

def Congruence.parting (L : Stop × World → Option (Stop × World) → Prop) : Congruence :=
  (Likeness.parting L).congruence

/-- A computation that behaves alike with evaluators that behave alike until they part. -/
def PartsWithEvaluator {α : Type} (x : Evaluator → Run α) : Prop :=
  ∀ L ev ev', (Congruence.parting L).Evaluators ev ev' → (x ev).Parts L Eq (x ev')

/-- What a computation asks for cannot stop without stopping the computation. -/
theorem Asks.stops {α : Type} {x : Evaluator → Run α} (parts : PartsWithEvaluator x)
    {ev : Evaluator} {m : Machine} {d : Datum} {n n' : Machine} {s : Stop}
    (asks : Asks x ev m d n) (stopped : ev d n = some (.error s, n')) :
    ∃ m', x ev m = some (.error s, m') := by
  classical
  let ev' : Evaluator := fun e k => if (e, k) = (d, n) then none else ev e k
  have silent : ev' d n = none := if_pos rfl
  have elsewhere : ∀ e k, (e, k) ≠ (d, n) → ev' e k = ev e k := fun e k other => if_neg other
  have evals : (Congruence.parting fun p o => p.1 = s ∧ o = none).Evaluators ev ev' := by
    rintro e _ rfl k
    by_cases here : (e, k) = (d, n)
    · cases here
      rw [stopped, silent]
      exact .lost ⟨rfl, rfl⟩
    · rw [elsewhere e k here]
      exact Run.parts_same (fun _ => rfl) k
  have parted := parts _ ev ev' evals m
  rw [asks.2 ev' silent elsewhere] at parted
  have ends := asks.1
  generalize x ev m = o at parted ends ⊢
  cases parted with
  | outOfFuel => exact absurd rfl ends
  | @lost _ m' h =>
    obtain ⟨rfl, _⟩ := h
    exact ⟨m', rfl⟩

/-- A table as a datum. -/
def Bindings.code (b : Bindings) : Datum :=
  .ofList (b.entries.map fun e => .pair (.symbol e.1) e.2)

def Env.code (a : Env) : Datum := .pair (.ofList (a.frames.map Bindings.code)) a.globals.code

theorem ofList_injective : Function.Injective Datum.ofList := by
  intro ds es same
  have elements := congrArg Datum.elements same
  rwa [elements_ofList, elements_ofList] at elements

theorem Bindings.code_injective : Function.Injective Bindings.code := by
  rintro ⟨entries⟩ ⟨entries'⟩ same
  have pairs : Function.Injective fun e : Text × Datum => Datum.pair (.symbol e.1) e.2 := by
    rintro ⟨x, v⟩ ⟨y, w⟩ equal
    cases equal
    rfl
  exact congrArg Bindings.mk (List.map_injective_iff.mpr pairs (ofList_injective same))

theorem Env.code_injective : Function.Injective Env.code := by
  rintro ⟨frames, globals⟩ ⟨frames', globals'⟩ same
  obtain ⟨stack, table⟩ := Datum.pair.inj same
  obtain rfl := List.map_injective_iff.mpr Bindings.code_injective (ofList_injective stack)
  obtain rfl := Bindings.code_injective table
  rfl

/-- A stop that tells which expression was evaluated in which environment. Nothing raises it. -/
def mark (d : Datum) (n : Machine) : Stop := .fault (.native (.nonFunction (.pair d n.env.code)))

theorem eq_of_mark {d e : Datum} {n k : Machine} (same : mark d n = mark e k)
    (world : n.world = k.world) : (d, n) = (e, k) := by
  obtain ⟨env, w⟩ := n
  obtain ⟨env', w'⟩ := k
  simp only [mark, Stop.fault.injEq, Fault.native.injEq, Fault.nonFunction.injEq,
    Datum.pair.injEq] at same
  obtain ⟨rfl, codes⟩ := same
  obtain rfl := Env.code_injective codes
  obtain rfl : w = w' := world
  rfl

/-- The evaluator whose faults tell where they come from. -/
def marked (ev : Evaluator) : Evaluator := fun d n =>
  match ev d n with
  | some (.error (.fault _), _) => some (.error (mark d n), n)
  | r => r

theorem marked_cases (ev : Evaluator) (d : Datum) (n : Machine) :
    (∃ f n', ev d n = some (.error (.fault f), n') ∧
      marked ev d n = some (.error (mark d n), n)) ∨
    (∀ f n', ev d n ≠ some (.error (.fault f), n')) ∧ marked ev d n = ev d n := by
  by_cases fault : ∃ f n', ev d n = some (.error (.fault f), n')
  · obtain ⟨f, n', failed⟩ := fault
    exact Or.inl ⟨f, n', failed, by rw [marked, failed]⟩
  · have other : ∀ f n', ev d n ≠ some (.error (.fault f), n') := fun f n' h => fault ⟨f, n', h⟩
    refine Or.inr ⟨other, ?_⟩
    rw [marked]
    split
    next f n' failed => exact absurd failed (other f n')
    · rfl

theorem native_of_marked {ev : Evaluator} {d : Datum} {n n' : Machine} {f : Fault}
    (failed : marked ev d n = some (.error (.fault f), n')) : ∃ c, f = .native c := by
  rcases marked_cases ev d n with ⟨g, k, _, told⟩ | ⟨other, same⟩
  · rw [told] at failed
    cases failed
    exact ⟨_, rfl⟩
  · rw [same] at failed
    exact absurd failed (other f n')

/-- Every fault of an evaluator is a report. -/
def Evaluator.Reports (ev : Evaluator) : Prop :=
  ∀ d m f m', ev d m = some (.error (.fault f), m') → ∃ kind cause, f = .reported kind cause

/-- A computation that ends in no faults but its own and those of its evaluator. -/
def RaisesOrForwards {α : Type} (x : Evaluator → Run α) : Prop :=
  ∀ ev m f m', x ev m = some (.error (.fault f), m') → (∃ a, f = .invalidArguments a) ∨ Core f ∨
    ∃ d n n', ev d n = some (.error (.fault f), n')

theorem raisesOrForwards_of_fulfils {α : Type} {φ : α → α → Prop} {x : Evaluator → Run α}
    (fulfils : ∀ (P : Fault → Prop) (invalid : ∀ a, P (.invalidArguments a))
      (core : ∀ f, Core f → P f) ev,
      (Promise.faults_kept invalid core).congruence.Evaluators ev ev →
        (x ev).Fulfils (.faults P) φ) : RaisesOrForwards x := by
  intro ev m f m' failed
  have known := fulfils (fun f => (∃ a, f = .invalidArguments a) ∨ Core f ∨
      ∃ d n n', ev d n = some (.error (.fault f), n'))
    (fun a => Or.inl ⟨a, rfl⟩) (fun f core => Or.inr (Or.inl core)) ev
    (fun d _ _ => Run.fulfils_faults (fun _ => rfl)
      fun n f n' h => Or.inr (Or.inr ⟨d, n, n', h⟩))
  exact known.fault failed

section Origin

variable {α : Type} {x : Evaluator → Run α} (parts : PartsWithEvaluator x)
  (raises : RaisesOrForwards x) {ev : Evaluator} (reports : ev.Reports)

include raises in
/-- A computation whose evaluator reports its faults does not end in a mark. -/
theorem not_native (reports : ev.Reports) {m m' : Machine} {c : Fault} :
    x ev m ≠ some (.error (.fault (.native c)), m') := by
  intro failed
  rcases raises ev m _ m' failed with ⟨_, own⟩ | core | ⟨d, n, n', within⟩
  · cases own
  · cases core
  · obtain ⟨_, _, reported⟩ := reports d n _ n' within
    cases reported

include parts raises reports in
/-- Where a mark comes from has been asked for. -/
theorem asks_of_marked {d : Datum} {m m' n n' : Machine} {f : Fault}
    (failing : ev d n = some (.error (.fault f), n'))
    (told : x (marked ev) m = some (.error (mark d n), m')) (world : m'.world = n.world)
    {ev' : Evaluator} (silent : ev' d n = none)
    (elsewhere : ∀ e k, (e, k) ≠ (d, n) → ev' e k = ev e k) : x ev' m = none := by
  -- Without the one answer the run can go on only if it met another mark, and then it ended there.
  let L (p : Stop × World) (o : Option (Stop × World)) : Prop :=
    ∃ e k, p = (mark e k, k.world) ∧ ∀ q, o = some q → (e, k) ≠ (d, n)
  have evals : (Congruence.parting L).Evaluators (marked ev) ev' := by
    rintro e _ rfl k
    rcases marked_cases ev e k with ⟨g, k', h, told⟩ | ⟨other, same⟩
    · rw [told]
      by_cases here : (e, k) = (d, n)
      · cases here
        rw [silent]
        exact .lost ⟨d, n, rfl, by rintro _ ⟨⟩⟩
      · rw [elsewhere e k here, h]
        exact .other ⟨e, k, rfl, fun _ _ => here⟩
    · have elsewhere' : (e, k) ≠ (d, n) := by
        rintro ⟨⟩
        exact other f n' failing
      rw [same, elsewhere e k elsewhere']
      exact Run.parts_same (fun _ => rfl) k
  have reports' : ev'.Reports := by
    intro e k g k' failed
    by_cases here : (e, k) = (d, n)
    · cases here
      rw [silent] at failed
      cases failed
    · rw [elsewhere e k here] at failed
      exact reports e k g k' failed
  have parted := parts L (marked ev) ev' evals m
  rw [told] at parted
  generalize ends : x ev' m = o at parted
  cases parted with
  | error => exact absurd ends (not_native raises reports')
  | lost => rfl
  | other h =>
    obtain ⟨e, k, same, elsewhere⟩ := h
    obtain ⟨marks, worlds⟩ := Prod.mk.inj same
    exact absurd (eq_of_mark marks.symm (worlds.symm.trans world)) (elsewhere _ rfl)

include parts raises reports in
/-- A fault that a computation does not raise comes from an evaluation that it asks for. -/
theorem asks_of_fault {m m' : Machine} {f : Fault}
    (failed : x ev m = some (.error (.fault f), m')) :
    (∃ a, f = .invalidArguments a) ∨ Core f ∨
      ∃ d n n', Asks x ev m d n ∧ ev d n = some (.error (.fault f), n') := by
  -- The same run with marked faults ends in a mark, and the mark names the evaluation.
  let L (p : Stop × World) (o : Option (Stop × World)) : Prop :=
    ∃ d n g n', ev d n = some (.error (.fault g), n') ∧ p.1 = .fault g ∧
      o = some (mark d n, n.world)
  have evals : (Congruence.parting L).Evaluators ev (marked ev) := by
    rintro e _ rfl k
    rcases marked_cases ev e k with ⟨g, k', h, told⟩ | ⟨_, same⟩
    · rw [told, h]
      exact .other ⟨e, k, g, k', h, rfl, rfl⟩
    · rw [same]
      exact Run.parts_same (fun _ => rfl) k
  have parted := parts L ev (marked ev) evals m
  rw [failed] at parted
  generalize told : x (marked ev) m = o at parted
  cases parted with
  | error =>
    rcases raises _ m f m' told with own | core | ⟨d, n, n', within⟩
    · exact Or.inl own
    · exact Or.inr (Or.inl core)
    · obtain ⟨c, rfl⟩ := native_of_marked within
      exact absurd failed (not_native raises reports)
  | lost h =>
    obtain ⟨_, _, _, _, _, _, ⟨⟩⟩ := h
  | other h =>
    obtain ⟨d, n, g, n', failing, ⟨⟩, same⟩ := h
    obtain ⟨rfl, world⟩ := Prod.mk.inj (Option.some.inj same)
    refine Or.inr (Or.inr ⟨d, n, n', ⟨?_, ?_⟩, failing⟩)
    · rw [failed]
      exact Option.some_ne_none _
    · intro ev' silent elsewhere
      exact asks_of_marked parts raises reports failing told world silent elsewhere

end Origin

end FexprLisp
