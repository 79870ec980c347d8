import FexprLisp.Proofs.Correspondence
import FexprLisp.Proofs.Fuel
import FexprLisp.Proofs.Scope

/-!
# The view of a stack of frames

A program sees of its frames only which value each name has, not which frame holds it. Environments
that show the same values and globals are told apart by no expression, as long as both have a frame
to make locals in, or neither has one.
-/

namespace FexprLisp

namespace Bindings

/-- The same values under the same names, in whatever order. -/
structure Same (b c : Bindings) : Prop where
  find? (x : Text) : b.find? x = c.find? x
  size : b.size = c.size

theorem Same.refl (b : Bindings) : Same b b := ⟨fun _ => rfl, rfl⟩

theorem Same.symm {b c : Bindings} (same : Same b c) : Same c b :=
  ⟨fun x => (same.find? x).symm, same.size.symm⟩

theorem Same.holds {b c : Bindings} (same : Same b c) (x : Text) : b.holds x = c.holds x := by
  rw [Bindings.holds, Bindings.holds, same.find?]

theorem size_put (b : Bindings) (x : Text) (v : Datum) :
    (b.put x v).size = b.size + if b.holds x then 0 else 1 := by
  have length : ∀ c : Bindings, c.size = c.names.length := fun c => by simp [size, names]
  rw [length, length]
  by_cases held : b.holds x = true
  · rw [names_put_of_mem ((b.holds_iff x).mp held), if_pos held, Nat.add_zero]
  · have missing := not_mem_names (Bool.eq_false_iff.mpr held)
    rw [names_put_of_not_mem missing, if_neg held, List.length_append]
    rfl

theorem Same.put {b c : Bindings} (same : Same b c) (x : Text) (v : Datum) :
    Same (b.put x v) (c.put x v) := by
  constructor
  · intro y
    rw [find?_put, find?_put, same.find?]
  · rw [size_put, size_put, same.size, same.holds]

end Bindings

namespace Env

/-- Equal globals, and each name has the same local value or none in both. -/
structure ViewEqual (a b : Env) : Prop where
  locals (x : Text) : local? a.frames x = local? b.frames x
  globals : a.globals.Same b.globals

/-- Equal views of stacks that both have a frame, or both have none. -/
structure SameView (a b : Env) : Prop extends ViewEqual a b where
  bottom : a.frames = [] ↔ b.frames = []

theorem SameView.symm {a b : Env} (view : SameView a b) : SameView b a :=
  ⟨⟨fun x => (view.locals x).symm, view.globals.symm⟩, view.bottom.symm⟩

theorem SameView.find? {a b : Env} (view : SameView a b) (x : Text) : a.find? x = b.find? x := by
  rw [Env.find?, Env.find?, view.locals, view.globals.find?]

theorem SameView.push {a b : Env} (view : SameView a b) : SameView a.push b.push := by
  refine ⟨⟨?_, view.globals⟩, by simp [Env.push]⟩
  intro x
  rw [Env.push, Env.push, local?_cons, local?_cons, view.locals]

/-- Both environments use the same frames for a while. -/
theorem SameView.withFrames {a b : Env} (view : SameView a b) (frames : List Bindings) :
    SameView { a with frames } { b with frames } :=
  ⟨⟨fun _ => rfl, view.globals⟩, Iff.rfl⟩

theorem SameView.restore {a b a' b' : Env} (before : SameView a b) (after : SameView a' b') :
    SameView { a' with frames := a.frames } { b' with frames := b.frames } :=
  ⟨⟨before.locals, after.globals⟩, before.bottom⟩

theorem SameView.putGlobal {a b : Env} (view : SameView a b) (x : Text) (v : Datum) :
    SameView { a with globals := a.globals.put x v } { b with globals := b.globals.put x v } :=
  ⟨⟨view.locals, view.globals.put x v⟩, view.bottom⟩

theorem SameView.assign {a b : Env} (view : SameView a b) (x : Text) (v : Datum) :
    Option.Rel SameView (a.assign? x v) (b.assign? x v) := by
  have together : (assignLocal? x v a.frames).isSome = (assignLocal? x v b.frames).isSome := by
    rw [assignLocal_isSome, assignLocal_isSome, view.locals]
  rw [Env.assign?, Env.assign?, view.globals.holds]
  cases ha : assignLocal? x v a.frames with
  | some fs =>
    rw [ha] at together
    obtain ⟨gs, hb⟩ := Option.isSome_iff_exists.mp together.symm
    rw [hb]
    refine .some ⟨⟨?_, view.globals⟩, ?_⟩
    · intro y
      rw [local?_of_assignLocal ha, local?_of_assignLocal hb, view.locals]
    · have empty := eq_nil_iff_of_names (names_assignLocal ha)
      have empty' := eq_nil_iff_of_names (names_assignLocal hb)
      exact empty.trans (view.bottom.trans empty'.symm)
  | none =>
    rw [ha] at together
    have hb : assignLocal? x v b.frames = none := by
      simpa using together.symm
    rw [hb]
    dsimp only
    split
    · exact .some (view.putGlobal x v)
    · -- A new local needs a frame; there are some in both or in neither.
      rw [bindLocal?, bindLocal?]
      cases frames : a.frames with
      | nil =>
        rw [view.bottom.mp frames]
        exact .none
      | cons f fs =>
        cases frames' : b.frames with
        | nil => rw [view.bottom.mpr frames'] at frames; cases frames
        | cons g gs =>
          refine .some ⟨⟨?_, view.globals⟩, by simp⟩
          intro y
          have same := view.locals y
          rw [frames, frames'] at same
          rw [local?_cons_put, local?_cons_put, same]

/-- Once a frame is popped, the names that were bound under it show what they showed above it. -/
theorem Grows.local?_pop {a b : Env} (grows : Grows a.push b) (x : Text) :
    local? b.pop.frames x = if (local? a.frames x).isSome then local? b.frames x else none := by
  have names := grows.names_pop
  obtain ⟨frames, globals⟩ := b
  cases grows.frames with
  | @inner _ g _ gs added head new _ =>
    change local? gs x = _
    change gs.map Bindings.names = _ at names
    split
    next bound =>
      -- What the popped frame bound was bound in none of the others.
      have other : x ∉ g.names := by
        intro mem
        rw [head] at mem
        have unbound := new x ((List.mem_append.mp mem).resolve_left List.not_mem_nil)
        obtain ⟨f, hf, hx⟩ := (local?_isSome a.frames x).mp bound
        exact (not_mem_of_unbound unbound).1 f (List.mem_cons_of_mem _ hf) hx
      have missing := Bindings.find?_of_not_holds (mt (g.holds_iff x).mp other)
      rw [local?_cons, missing]
      rfl
    next unbound =>
      refine Option.not_isSome_iff_eq_none.mp fun bound => unbound ?_
      rw [local?_isSome] at bound ⊢
      exact exists_mem_of_names names.symm bound

/-- Two runs in frames of their own show the same once these are popped. -/
theorem SameView.pop {a b a' b' : Env} (before : SameView a b) (after : SameView a' b')
    (grows : Grows a.push a') (grows' : Grows b.push b') : SameView a'.pop b'.pop := by
  have empty := eq_nil_iff_of_names grows.names_pop
  have empty' := eq_nil_iff_of_names grows'.names_pop
  refine ⟨⟨?_, after.globals⟩, empty.trans (before.bottom.trans empty'.symm)⟩
  intro x
  rw [grows.local?_pop, grows'.local?_pop, before.locals, after.locals]

end Env

/-- Two machines that no program tells apart. -/
structure Machine.SameView (m n : Machine) : Prop where
  env : m.env.SameView n.env
  world : m.world = n.world

/-- That a program sees only the view. -/
def Resemblance.view : Resemblance where
  Stage := Unit
  alone := ()
  Envs _ := Env.SameView
  find? x view := view.find? x
  size view := view.globals.size
  holds x view := view.globals.holds x
  putGlobal x v view := view.putGlobal x v
  assign x v view := view.assign x v
  push view := view.push
  pop before after grows grows' := before.pop after grows grows'
  enter frame view := view.withFrames [frame]
  leave before after := before.restore after

/-- What ends on one machine ends alike on the other. -/
theorem ends_of_sameView {m n : Machine} (view : m.SameView n) {fuel : Nat} {d : Datum}
    {r : Except Stop Datum} {m' : Machine} (h : eval Host.empty fuel d m = some (r, m')) :
    ∃ n', eval Host.empty fuel d n = some (r, n') ∧ m'.SameView n' := by
  have met := Resemblance.view.meets_eval (i := ()) view.env view.world fuel d
  rw [h] at met
  generalize eval Host.empty fuel d n = p at met
  cases met with
  | @ends _ s _ n' result after _ _ =>
    obtain rfl := result.eq
    exact ⟨n', rfl, after.env, after.world⟩

theorem Machine.SameView.symm {m n : Machine} (view : m.SameView n) : n.SameView m :=
  ⟨view.env.symm, view.world.symm⟩

theorem diverges_of_sameView {m n : Machine} (view : m.SameView n) {d : Datum}
    (h : Diverges d m) : Diverges d n := by
  intro fuel
  cases run : eval Host.empty fuel d n with
  | none => rfl
  | some e =>
    obtain ⟨m', ends, _⟩ := ends_of_sameView view.symm run
    rw [h fuel] at ends
    cases ends

/-- Environments with the same view, in the same world, are told apart by no expression: it ends on
both or on neither, in the same value or stop, with the same world and the same view after it. -/
theorem eval_sameView (d : Datum) (m n : Machine) (view : m.env.SameView n.env)
    (world : m.world = n.world) :
    (Diverges d m ↔ Diverges d n) ∧
      (∀ fuel r m', eval Host.empty fuel d m = some (r, m') →
        ∃ n', eval Host.empty fuel d n = some (r, n') ∧ m'.world = n'.world ∧
          m'.env.SameView n'.env) ∧
      ∀ fuel r n', eval Host.empty fuel d n = some (r, n') →
        ∃ m', eval Host.empty fuel d m = some (r, m') ∧ m'.world = n'.world ∧
          m'.env.SameView n'.env := by
  have same : m.SameView n := ⟨view, world⟩
  refine ⟨⟨diverges_of_sameView same, diverges_of_sameView same.symm⟩, ?_, ?_⟩
  · intro fuel r m' h
    obtain ⟨n', ends, after⟩ := ends_of_sameView same h
    exact ⟨n', ends, after.world, after.env⟩
  · intro fuel r n' h
    obtain ⟨m', ends, after⟩ := ends_of_sameView same.symm h
    exact ⟨m', ends, after.world.symm, after.env.symm⟩

/-- Two frames that both bind one name, and a single frame with the same view. -/
def stacked : Machine :=
  { emptyMachine with env := ⟨[⟨[(['x'], .truth)]⟩, ⟨[(['x'], .nil), (['y'], .nil)]⟩], .empty⟩ }

def flat : Machine :=
  { emptyMachine with env := ⟨[⟨[(['y'], .nil), (['x'], .truth)]⟩], .empty⟩ }

theorem sameView_stacked_flat : stacked.env.SameView flat.env := by
  refine ⟨⟨?_, .refl _⟩, by simp [stacked, flat]⟩
  intro z
  by_cases hx : z = ['x']
  · subst hx
    rfl
  by_cases hy : z = ['y']
  · subst hy
    rfl
  · simp [stacked, flat, Env.local?, Bindings.find?, List.lookup_cons, beq_false_of_ne hx,
      beq_false_of_ne hy]

/-- A conditional changes a binding of the outer frame, and the same binding of the flat one. -/
theorem eval_sameView_stacked :
    let d : Datum := .ofList [.native (.builtin .ifThen), .symbol ['x'],
      .ofList [.native (.builtin .assign), .symbol ['y'], .truth]]
    stacked.env.SameView flat.env ∧ stacked.world = flat.world ∧ ∃ r m',
      eval Host.empty 3 d stacked = some (r, m') ∧
        ∃ n', eval Host.empty 3 d flat = some (r, n') ∧ m'.world = n'.world ∧
          m'.env.SameView n'.env := by
  intro d
  have same := eval_sameView d stacked flat sameView_stacked_flat rfl
  exact ⟨sameView_stacked_flat, rfl, _, _, rfl, same.2.1 3 _ _ rfl⟩

/-- A stack with no frame shows what an empty frame shows, and yet makes no locals. -/
theorem viewEqual_tells_no_frame :
    ¬ ∀ (d : Datum) (m n : Machine), m.env.ViewEqual n.env → m.world = n.world →
      ∀ fuel r m', eval Host.empty fuel d m = some (r, m') →
        ∃ n', eval Host.empty fuel d n = some (r, n') ∧ m'.world = n'.world ∧
          m'.env.ViewEqual n'.env := by
  intro all
  have view : emptyMachine.env.ViewEqual ⟨[], .empty⟩ := ⟨fun _ => rfl, .refl _⟩
  obtain ⟨n', ends, _⟩ := all (bindNil ['x']) emptyMachine { emptyMachine with env := ⟨[], .empty⟩ }
    view rfl 2 _ _ rfl
  have stops : eval Host.empty 2 (bindNil ['x']) { emptyMachine with env := ⟨[], .empty⟩ } =
      some (.error .noFrame, { emptyMachine with env := ⟨[], .empty⟩ }) := rfl
  rw [stops] at ends
  cases ends

end FexprLisp
