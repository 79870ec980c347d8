import FexprLisp.Proofs.Runs

/-!
# Causes

The layers around a fault change neither its cause nor its message. Two computations are alike if
they come to the same but for the layers around a fault, so that calls of native functions may be
added or left out around a part of a computation.
-/

namespace FexprLisp

namespace Fault

theorem root_escaping (f : Fault) : f.escaping.root = f.root := by
  cases f with
  | native c => cases c <;> rfl
  | _ => rfl

theorem message_escaping (f : Fault) : f.escaping.message = f.message := by
  cases f <;> rfl

end Fault

namespace Stop

/-- The same stop, or two faults with one cause and one message. -/
inductive SameCause : Stop → Stop → Prop
  | same (e : Stop) : SameCause e e
  | fault {f g : Fault} : f.root = g.root → f.message = g.message →
      SameCause (.fault f) (.fault g)

theorem SameCause.symm {e e' : Stop} (same : SameCause e e') : SameCause e' e := by
  cases same with
  | same e => exact .same e
  | fault root message => exact .fault root.symm message.symm

theorem SameCause.trans {e₁ e₂ e₃ : Stop} (first : SameCause e₁ e₂) (second : SameCause e₂ e₃) :
    SameCause e₁ e₃ := by
  cases first with
  | same e => exact second
  | fault root message =>
    cases second with
    | same e => exact .fault root message
    | fault root' message' => exact .fault (root.trans root') (message.trans message')

theorem sameCause_escaping (e : Stop) : SameCause e.escaping e := by
  cases e with
  | fault f => exact .fault f.root_escaping f.message_escaping
  | _ => exact .same _

end Stop

namespace Run

variable {α β : Type} {N N' : Machine → Machine → Prop}

/-- The same value, or stops with one cause. -/
abbrev SameResult : Except Stop α → Except Stop α → Prop := SameEnd Stop.SameCause Eq

theorem SameResult.refl (r : Except Stop α) : SameResult r r := by
  cases r with
  | ok a => exact .ok rfl
  | error e => exact .error (.same e)

theorem SameResult.symm {r s : Except Stop α} (same : SameResult r s) : SameResult s r := by
  cases same with
  | ok same => exact .ok same.symm
  | error same => exact .error same.symm

theorem SameResult.trans {r s t : Except Stop α} (first : SameResult r s)
    (second : SameResult s t) : SameResult r t := by
  cases first with
  | ok same => exact same ▸ second
  | error same =>
    cases second with
    | error same' => exact .error (same.trans same')

theorem sameResult_escaping (r : Except Stop α) : SameResult (r.mapError Stop.escaping) r := by
  cases r with
  | ok a => exact .ok rfl
  | error e => exact .error e.sameCause_escaping

/-- Ends alike on machines that `N` relates, or no end at all. -/
inductive Alike (N : Machine → Machine → Prop) : Option (Except Stop α × Machine) →
    Option (Except Stop α × Machine) → Prop
  | outOfFuel : Alike N none none
  | ends {r s : Except Stop α} {m n : Machine} : SameResult r s → N m n →
      Alike N (some (r, m)) (some (s, n))

/-- Equal outcomes are alike. -/
theorem alike_refl (machines : ∀ m, N m m) (o : Option (Except Stop α × Machine)) :
    Alike N o o := by
  cases o with
  | none => exact .outOfFuel
  | some p => exact .ends (.refl p.1) (machines p.2)

theorem Alike.of_second {o : Option (Except Stop α × Machine)} {s : Except Stop α} {n : Machine}
    (alike : Alike Eq o (some (s, n))) : ∃ r, o = some (r, n) ∧ SameResult r s := by
  cases alike with
  | ends same machines => exact ⟨_, by rw [machines], same⟩

theorem Alike.of_first {o : Option (Except Stop α × Machine)} {r : Except Stop α} {m : Machine}
    (alike : Alike Eq (some (r, m)) o) : ∃ s, o = some (s, m) ∧ SameResult r s := by
  cases alike with
  | ends same machines => exact ⟨_, by rw [machines], same⟩

/-- Computations that are alike go on alike. -/
theorem Alike.bind {x y : Run α} {f g : α → Run β} {m n : Machine}
    (first : Alike N (x m) (y n)) (stop : ∀ k l, N k l → N' k l)
    (rest : ∀ a k l, N k l → x m = some (.ok a, k) → y n = some (.ok a, l) →
      Alike N' (f a k) (g a l)) : Alike N' ((x >>= f) m) ((y >>= g) n) := by
  rw [bind_apply, bind_apply]
  generalize x m = o at first rest ⊢
  generalize y n = p at first rest ⊢
  cases first with
  | outOfFuel => exact .outOfFuel
  | ends same machines =>
    cases same with
    | ok same =>
      subst same
      exact rest _ _ _ machines rfl rfl
    | error same => exact .ends (.error same) (stop _ _ machines)

/-- A call of a native function around the first of two computations. -/
theorem Alike.escaping {x : Run α} {m : Machine} {o : Option (Except Stop α × Machine)}
    (alike : Alike N (x m) o) : Alike N (mapFault .escaping x m) o := by
  rw [mapFault_escaping]
  generalize x m = p at alike ⊢
  cases alike with
  | outOfFuel => exact .outOfFuel
  | ends same machines => exact .ends ((sameResult_escaping _).trans same) machines

/-- A call of a native function around the second. -/
theorem Alike.escaping_right {y : Run α} {n : Machine} {o : Option (Except Stop α × Machine)}
    (alike : Alike N o (y n)) : Alike N o (mapFault .escaping y n) := by
  rw [mapFault_escaping]
  generalize y n = p at alike ⊢
  cases alike with
  | outOfFuel => exact .outOfFuel
  | ends same machines => exact .ends (same.trans (sameResult_escaping _).symm) machines

end Run

end FexprLisp
