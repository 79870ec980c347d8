import FexprLisp.Proofs.Evaluation
import FexprLisp.Proofs.Runs

/-!
# Lines of the input

An evaluation takes lines off the front of the input and leaves the rest of them. It changes neither
the settings nor the files.
-/

namespace FexprLisp

theorem length_of_nextLine {t line rest : Text} (h : nextLine? t = some (line, rest)) :
    rest.length < t.length := by
  cases t with
  | nil => cases h
  | cons c t =>
    rw [nextLine?] at h
    · cases h
      have shorter := (List.dropWhile_sublist (· ≠ '\n') (l := c :: t)).length_le
      rw [List.length_tail]
      rw [List.length_cons] at shorter ⊢
      omega
    · rintro ⟨⟩

/-- The lines that reading takes until the input is at its end. -/
def inputLines (t : Text) : List Text :=
  match _taken : nextLine? t with
  | none => []
  | some (line, rest) => line :: inputLines rest
termination_by t.length
decreasing_by exact length_of_nextLine ‹_›

theorem inputLines_of_some {t line rest : Text} (h : nextLine? t = some (line, rest)) :
    inputLines t = line :: inputLines rest := by
  rw [inputLines]
  split <;> simp_all

theorem inputLines_of_none {t : Text} (h : nextLine? t = none) : inputLines t = [] := by
  rw [inputLines]
  split <;> simp_all

/-- What evaluation may make of a world. -/
structure World.Takes (w w' : World) : Prop where
  settings : w'.settings = w.settings
  entry : w'.entry = w.entry
  lines : inputLines w'.input <:+ inputLines w.input

theorem World.Takes.refl (w : World) : w.Takes w := ⟨rfl, rfl, List.suffix_refl _⟩

theorem World.Takes.trans {w₁ w₂ w₃ : World} (first : w₁.Takes w₂) (second : w₂.Takes w₃) :
    w₁.Takes w₃ :=
  ⟨second.settings.trans first.settings, second.entry.trans first.entry,
    second.lines.trans first.lines⟩

namespace Run

variable {α β : Type} {φ : α → α → Prop} {ψ : β → β → Prop}

/-- Every end of a computation leaves a world that lines were taken of, and a result that is related
to some other. -/
def Takes (φ : α → α → Prop) (x : Run α) : Prop :=
  ∀ m r m', x m = some (r, m') → m.world.Takes m'.world ∧ ∀ a, r = .ok a → ∃ b, φ a b

theorem Takes.bind {x : Run α} {f : α → Run β} (first : x.Takes φ)
    (rest : ∀ a b, φ a b → (f a).Takes ψ) : (x >>= f).Takes ψ := by
  intro m r m' h
  rw [bind_apply] at h
  split at h
  · cases h
  next a m₁ hx =>
    obtain ⟨taken, values⟩ := first m _ m₁ hx
    obtain ⟨b, related⟩ := values a rfl
    obtain ⟨taken', values'⟩ := rest a b related m₁ r m' h
    exact ⟨taken.trans taken', values'⟩
  next e m₁ hx =>
    cases h
    obtain ⟨taken, _⟩ := first m _ _ hx
    exact ⟨taken, by rintro _ ⟨⟩⟩

theorem takes_pure {a b : α} (h : φ a b) : (Pure.pure a : Run α).Takes φ := by
  intro m r m' run
  cases run
  refine ⟨.refl _, ?_⟩
  rintro _ ⟨⟩
  exact ⟨b, h⟩

theorem takes_stop (e : Stop) : (stop e : Run α).Takes φ := by
  intro m r m' run
  cases run
  exact ⟨.refl _, by rintro _ ⟨⟩⟩

theorem takes_ofExcept {e : Except Fault α} (related : ∀ a, φ a a) : (ofExcept e).Takes φ := by
  cases e with
  | ok a => exact takes_pure (related a)
  | error f => exact takes_stop _

theorem takes_env {f : Env → Run α} (rest : ∀ e, (f e).Takes φ) : (env >>= f).Takes φ :=
  fun m r m' h => rest m.env m r m' h

/-- A step that gives no value and changes a world as evaluation may. -/
theorem takes_unit {x : Run Unit}
    (worlds : ∀ m r m', x m = some (r, m') → m.world.Takes m'.world) :
    x.Takes fun _ _ => True :=
  fun m r m' h => ⟨worlds m r m' h, fun _ _ => ⟨(), trivial⟩⟩

theorem takes_write (t : Text) : (write t).Takes fun _ _ => True := by
  refine takes_unit fun m r m' run => ?_
  cases run
  exact ⟨rfl, rfl, List.suffix_refl _⟩

theorem takes_note (source : LogSource) (t : Text) :
    (note source t).Takes fun _ _ => True := by
  refine takes_unit fun m r m' run => ?_
  cases run
  exact ⟨rfl, rfl, List.suffix_refl _⟩

theorem takes_world : world.Takes World.SameOutside := by
  intro m r m' run
  cases run
  exact ⟨.refl _, fun a _ => ⟨a, .refl a⟩⟩

theorem takes_bindGlobal (name : Text) (value : Datum) :
    (Forms.bindGlobal name value).Takes fun _ _ => True := by
  refine takes_unit fun m r m' run => ?_
  cases h : m.env.bindGlobal name value with
  | ok b =>
    rw [bindGlobal_of_ok h] at run
    cases run
    exact .refl _
  | error f =>
    rw [bindGlobal_of_error h] at run
    cases run
    exact .refl _

theorem takes_assignTo (name : Text) (value : Datum) :
    (Forms.assignTo name value).Takes fun _ _ => True := by
  refine takes_unit fun m r m' run => ?_
  cases h : m.env.assign? name value with
  | some b =>
    rw [assignTo_of_some h] at run
    cases run
    exact .refl _
  | none =>
    rw [assignTo_of_none h] at run
    cases run
    exact .refl _

theorem Takes.inScope {x : Run α} (inner : x.Takes φ) : (inScope x).Takes φ := by
  intro m r m' h
  obtain ⟨m₁, hx, rfl⟩ := inScope_eq_some h
  have taken := inner _ r m₁ hx
  exact taken

theorem Takes.withFrames {x : Run α} (inner : x.Takes φ) (frames : List Bindings) :
    (withFrames frames x).Takes φ := by
  intro m r m' h
  obtain ⟨m₁, hx, rfl⟩ := withFrames_eq_some h
  have taken := inner _ r m₁ hx
  exact taken

theorem Takes.escaping {x : Run α} (inner : x.Takes φ) : (mapFault .escaping x).Takes φ := by
  intro m r m' h
  rw [mapFault_escaping] at h
  obtain ⟨⟨r', m₁⟩, hx, ends⟩ := Option.map_eq_some_iff.mp h
  cases ends
  obtain ⟨taken, values⟩ := inner m r' m₁ hx
  refine ⟨taken, ?_⟩
  intro a same
  cases r' with
  | ok _ =>
    cases same
    exact values a rfl
  | error _ => cases same

/-- A line is read off the front of the input, behind the prompt. -/
theorem readLine_apply (prompt : Text) (m : Machine) :
    Console.readLine prompt m = match nextLine? m.world.input with
      | some (line, rest) =>
        some (.ok line, { m with world := { m.world.write prompt with input := rest } })
      | none => some (.error .endOfInput, { m with world := m.world.write prompt }) := by
  cases h : nextLine? m.world.input with
  | none => simp [Console.readLine, bind_apply, write, Run.world, World.write, h, stop]
  | some taken => simp [Console.readLine, bind_apply, write, Run.world, World.write, h, setWorld]

theorem takes_readLine (prompt : Text) : (Console.readLine prompt).Takes Eq := by
  intro m r m' h
  rw [readLine_apply] at h
  split at h
  next line rest found =>
    cases h
    refine ⟨⟨rfl, rfl, ?_⟩, fun a _ => ⟨a, rfl⟩⟩
    rw [inputLines_of_some found]
    exact List.suffix_cons _ _
  · cases h
    exact ⟨⟨rfl, rfl, List.suffix_refl _⟩, by rintro _ ⟨⟩⟩

theorem takes_defaultPrompt : Console.defaultPrompt.Takes Eq := by
  refine takes_env fun e => ?_
  split
  · exact takes_ofExcept fun _ => rfl
  · exact takes_pure rfl

end Run

open Run in
/-- That evaluation takes lines; the other side plays no part. -/
def Likeness.lines : Likeness where
  Related φ x _ := x.Takes φ
  Fuels := Eq
  pure := takes_pure
  bind first rest := first.bind rest
  stop := takes_stop
  spent _ _ := by
    intro m r m' h
    cases h
  burn := Congruence.burn_eq
  lookup _ := takes_env fun _ => takes_ofExcept fun _ => rfl
  bindGlobal := takes_bindGlobal
  assignTo := takes_assignTo
  inScope := Takes.inScope
  spawned frame _ _ inner := by
    have noted : Console.spawnNote.Takes fun _ _ => True := takes_env fun _ => takes_note _ _
    exact noted.bind fun _ _ _ => inner.withFrames [frame]
  write := takes_write
  note := takes_note
  world := takes_world
  readLine := takes_readLine
  prompt := takes_defaultPrompt

def Congruence.lines : CallCongruence where
  toCongruence := Likeness.lines.congruence
  outside _ := Likeness.lines.readsOutside
  escaping inner := inner.escaping

theorem takes_eval (fuel : Nat) (d : Datum) : (eval Host.empty fuel d).Takes Eq :=
  Congruence.lines.eval Congruence.hosted_empty rfl d d rfl

end FexprLisp
