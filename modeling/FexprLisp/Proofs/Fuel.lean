import FexprLisp.Proofs.Evaluation
import FexprLisp.Proofs.Runs

/-!
# Fuel

More fuel changes no end. So an expression comes to one end on a machine, whatever the fuel that it
was given, or it diverges.
-/

namespace FexprLisp

namespace Run

variable {α β : Type} {φ : α → α → Prop} {ψ : β → β → Prop}

/-- Every end of the first computation is an end of the second, with a result that is related. -/
def Below (φ : α → α → Prop) (x y : Run α) : Prop :=
  ∀ m r m', x m = some (r, m') → ∃ s, y m = some (s, m') ∧ SameEnd Eq φ r s

theorem below_same {x : Run α} (related : ∀ a, φ a a) : Below φ x x := by
  intro m r m' h
  refine ⟨r, h, ?_⟩
  cases r with
  | ok a => exact .ok (related a)
  | error e => exact .error rfl

theorem below_outOfFuel {y : Run α} : Below φ outOfFuel y := by
  intro m r m' h
  cases h

theorem Below.bind {x y : Run α} {f g : α → Run β} (first : Below φ x y)
    (rest : ∀ a b, φ a b → Below ψ (f a) (g b)) : Below ψ (x >>= f) (y >>= g) := by
  intro m r m' h
  rw [bind_apply] at h
  split at h
  · cases h
  next a m₁ hx =>
    obtain ⟨s, hy, same⟩ := first m _ m₁ hx
    cases same with
    | ok related =>
      obtain ⟨s', ends, same'⟩ := rest _ _ related m₁ r m' h
      exact ⟨s', (bind_of_ok hy).trans ends, same'⟩
  next e m₁ hx =>
    cases h
    obtain ⟨s, hy, same⟩ := first m _ _ hx
    cases same with
    | error same => exact ⟨_, bind_of_error hy, .error same⟩

theorem Below.inScope {x y : Run α} (inner : Below φ x y) :
    Below φ (inScope x) (inScope y) := by
  intro m r m' h
  obtain ⟨m₁, hx, rfl⟩ := inScope_eq_some h
  obtain ⟨s, hy, same⟩ := inner _ r m₁ hx
  exact ⟨s, by rw [Run.inScope, hy], same⟩

theorem Below.withFrames {x y : Run α} (inner : Below φ x y) (frames : List Bindings) :
    Below φ (withFrames frames x) (withFrames frames y) := by
  intro m r m' h
  obtain ⟨m₁, hx, rfl⟩ := withFrames_eq_some h
  obtain ⟨s, hy, same⟩ := inner _ r m₁ hx
  exact ⟨s, by rw [Run.withFrames, hy], same⟩

theorem Below.escaping {x y : Run α} (inner : Below φ x y) :
    Below φ (mapFault .escaping x) (mapFault .escaping y) := by
  intro m r m' h
  rw [mapFault_escaping] at h
  obtain ⟨⟨r', m₁⟩, hx, ends⟩ := Option.map_eq_some_iff.mp h
  obtain ⟨s, hy, same⟩ := inner m r' m₁ hx
  cases ends
  refine ⟨s.mapError Stop.escaping, by rw [mapFault_escaping, hy]; rfl, ?_⟩
  cases same with
  | ok related => exact .ok related
  | error same => exact .error (congrArg Stop.escaping same)

end Run

open Run in
/-- That more fuel changes no end. -/
def Likeness.fuel : Likeness where
  Related := Below
  Fuels := (· ≤ ·)
  pure related := fun m r m' h => by
    cases h
    exact ⟨_, rfl, .ok related⟩
  bind := Below.bind
  stop e := by
    intro m r m' h
    cases h
    exact ⟨_, rfl, .error rfl⟩
  spent _ _ := below_outOfFuel
  burn := by
    intro n k less
    cases k with
    | zero => cases less
    | succ k => exact ⟨k, rfl, Nat.le_of_succ_le_succ less⟩
  lookup _ := below_same fun _ => rfl
  bindGlobal _ _ := below_same fun _ => trivial
  assignTo _ _ := below_same fun _ => trivial
  inScope := Below.inScope
  spawned _ _ _ inner :=
    (below_same (φ := Eq) fun _ => rfl).bind fun _ _ _ => inner.withFrames _
  write _ := below_same fun _ => trivial
  note _ _ := below_same fun _ => trivial
  world := below_same .refl
  readLine _ := below_same fun _ => rfl
  prompt := below_same fun _ => rfl

def Congruence.fuel : CallCongruence where
  toCongruence := Likeness.fuel.congruence
  outside _ := Likeness.fuel.readsOutside
  escaping := Run.Below.escaping

/-- A host none of whose functions ends otherwise when the evaluator has more fuel. -/
def Host.FuelBlind (host : Host) : Prop := Congruence.fuel.Hosted host

theorem Host.FuelBlind.below_eval {host : Host} (blind : host.FuelBlind) {n k : Nat}
    (less : n ≤ k) (d : Datum) : (eval host n d).Below Eq (eval host k d) :=
  Congruence.fuel.eval blind less d d rfl

theorem below_eval {n k : Nat} (less : n ≤ k) (d : Datum) :
    (eval Host.empty n d).Below Eq (eval Host.empty k d) :=
  Host.FuelBlind.below_eval Congruence.hosted_empty less d

/-- More fuel leaves an end as it is. -/
theorem eval_mono {n k : Nat} (less : n ≤ k) {d : Datum} {m m' : Machine} {r : Except Stop Datum}
    (h : eval Host.empty n d m = some (r, m')) : eval Host.empty k d m = some (r, m') := by
  obtain ⟨s, ends, same⟩ := below_eval less d m r m' h
  rw [ends, same.eq]

/-- The end that an expression comes to, if it has enough fuel. -/
def EndsIn (d : Datum) (m : Machine) (r : Except Stop Datum) (m' : Machine) : Prop :=
  ∃ fuel, eval Host.empty fuel d m = some (r, m')

/-- An expression without an end: no fuel is enough for it. -/
def Diverges (d : Datum) (m : Machine) : Prop := ∀ fuel, eval Host.empty fuel d m = none

/-- An expression has one end at most. -/
theorem EndsIn.unique {d : Datum} {m m' n' : Machine} {r s : Except Stop Datum}
    (ends : EndsIn d m r m') (ends' : EndsIn d m s n') : r = s ∧ m' = n' := by
  obtain ⟨n, h⟩ := ends
  obtain ⟨k, h'⟩ := ends'
  have one := eval_mono (Nat.le_max_left n k) h
  have other := eval_mono (Nat.le_max_right n k) h'
  rw [one] at other
  cases other
  exact ⟨rfl, rfl⟩

theorem diverges_iff {d : Datum} {m : Machine} :
    Diverges d m ↔ ∀ r m', ¬ EndsIn d m r m' := by
  constructor
  · rintro diverges r m' ⟨fuel, h⟩
    rw [diverges fuel] at h
    cases h
  · intro endless fuel
    cases h : eval Host.empty fuel d m with
    | none => rfl
    | some p => exact absurd ⟨fuel, h⟩ (endless p.1 p.2)

/-- Of two expressions that come to an end together either diverges if the other does. -/
theorem diverges_iff_diverges {d d' : Datum} {m n : Machine}
    (first : ∀ r m', EndsIn d m r m' → ∃ s n', EndsIn d' n s n')
    (second : ∀ s n', EndsIn d' n s n' → ∃ r m', EndsIn d m r m') :
    Diverges d m ↔ Diverges d' n := by
  rw [diverges_iff, diverges_iff]
  constructor
  · intro endless s n' ends
    obtain ⟨r, m', ends'⟩ := second s n' ends
    exact endless r m' ends'
  · intro endless r m' ends
    obtain ⟨s, n', ends'⟩ := first r m' ends
    exact endless s n' ends'

end FexprLisp
