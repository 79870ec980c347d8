import FexprLisp.Proofs.Causes
import FexprLisp.Proofs.Joining
import FexprLisp.Proofs.View

/-!
# Unrolling of loops

A loop does what a conditional does that evaluates the condition, then the body and then the loop
again. The loop keeps one frame for all its rounds, and the conditional has a frame more for each
round, so locals are made at other depths. Two stacks that show the same over a number of equal
frames stay so in any evaluation; when the rounds are over, the equal frames are all that is left.
-/

namespace FexprLisp

namespace Env

theorem assignLocal?_append (tops shared : List Bindings) (x : Text) (v : Datum) :
    assignLocal? x v (tops ++ shared) = ((assignLocal? x v tops).map (· ++ shared)).or
      ((assignLocal? x v shared).map (tops ++ ·)) := by
  induction tops with
  | nil => simp [assignLocal?]
  | cons f fs ih =>
    rw [List.cons_append, assignLocal?, assignLocal?, ih]
    split
    · rfl
    · cases assignLocal? x v fs with
      | some gs => rfl
      | none => cases assignLocal? x v shared <;> rfl

/-- Stacks whose innermost frames show the same, at least one frame each, over `k` equal ones. -/
inductive Over (k : Nat) : Env → Env → Prop
  | above (tops tops' shared : List Bindings) {globals : Bindings} : tops ≠ [] → tops' ≠ [] →
      (∀ x, local? tops x = local? tops' x) → shared.length = k →
        Over k ⟨tops ++ shared, globals⟩ ⟨tops' ++ shared, globals⟩

theorem Over.locals {k : Nat} {a b : Env} (atop : Over k a b) (x : Text) :
    local? a.frames x = local? b.frames x := by
  cases atop with
  | above _ _ _ _ _ same _ => rw [local?_append, local?_append, same]

theorem Over.globals {k : Nat} {a b : Env} (atop : Over k a b) : a.globals = b.globals := by
  cases atop
  rfl

theorem Over.putGlobal {k : Nat} {a b : Env} (atop : Over k a b) (x : Text) (v : Datum) :
    Over k { a with globals := a.globals.put x v } { b with globals := b.globals.put x v } := by
  cases atop with
  | above _ _ _ some some' same depth => exact .above _ _ _ some some' same depth

theorem Over.push {k : Nat} {a b : Env} (atop : Over k a b) : Over k a.push b.push := by
  cases atop with
  | above tops tops' shared some some' same depth =>
    refine .above (.empty :: tops) (.empty :: tops') shared (by simp) (by simp) ?_ depth
    intro x
    rw [local?_cons, local?_cons, same]

theorem Over.assign {k : Nat} {a b : Env} (atop : Over k a b) (x : Text) (v : Datum) :
    Option.Rel (Over k) (a.assign? x v) (b.assign? x v) := by
  cases atop with
  | above tops tops' shared some some' same depth =>
    have together : (assignLocal? x v tops).isSome = (assignLocal? x v tops').isSome := by
      rw [assignLocal_isSome, assignLocal_isSome, same]
    rw [Env.assign?, Env.assign?, assignLocal?_append, assignLocal?_append]
    cases changed : assignLocal? x v tops with
    | some gs =>
      rw [changed] at together
      obtain ⟨gs', changed'⟩ := Option.isSome_iff_exists.mp together.symm
      rw [changed']
      have frames := mt (eq_nil_iff_of_names (names_assignLocal changed)).mp some
      have frames' := mt (eq_nil_iff_of_names (names_assignLocal changed')).mp some'
      refine .some (.above gs gs' shared frames frames' ?_ depth)
      intro y
      rw [local?_of_assignLocal changed, local?_of_assignLocal changed', same]
    | none =>
      rw [changed] at together
      have unchanged : assignLocal? x v tops' = none := by simpa using together.symm
      rw [unchanged]
      cases deeper : assignLocal? x v shared with
      | some gs =>
        have length := congrArg List.length (names_assignLocal deeper)
        rw [List.length_map, List.length_map] at length
        exact .some (.above tops tops' gs some some' same (length.trans depth))
      | none =>
        dsimp only [Option.map_none, Option.none_or]
        split
        · exact .some (.above tops tops' shared some some' same depth)
        · -- A new local goes to the innermost frame, which is none of the equal ones.
          cases tops with
          | nil => exact absurd rfl some
          | cons f fs =>
            cases tops' with
            | nil => exact absurd rfl some'
            | cons g gs =>
              refine .some (.above (f.put x v :: fs) (g.put x v :: gs) shared (by simp) (by simp)
                ?_ depth)
              intro y
              rw [local?_cons_put, local?_cons_put, same]

/-- Growth above frames that are as many as before. -/
theorem Grows.above (tops : List Bindings) {tops' shared shared' : List Bindings}
    {globals globals' : Bindings}
    (grows : Grows ⟨tops ++ shared, globals⟩ ⟨tops' ++ shared', globals'⟩)
    (depth : shared'.length = shared.length) (some : tops ≠ []) :
    Grows ⟨tops, globals⟩ ⟨tops', globals'⟩ := by
  have length := grows.frames.length
  simp only [List.length_append] at length
  cases tops with
  | nil => exact absurd rfl some
  | cons f fs =>
    cases tops' with
    | nil =>
      simp only [List.length_cons, List.length_nil] at length
      omega
    | cons g gs =>
      refine ⟨?_, grows.globals⟩
      cases grows.frames with
      | inner added head new tail =>
        have names : (gs ++ shared').map Bindings.names = (fs ++ shared).map Bindings.names := tail
        rw [List.map_append, List.map_append] at names
        refine .inner added head ?_ (List.append_inj_left' names (by simp [depth]))
        intro x hx
        have unbound := Bool.eq_false_iff.mp (new x hx)
        refine Bool.eq_false_iff.mpr fun bound => unbound ?_
        rw [isBound_iff] at bound ⊢
        rcases bound with ⟨f', mem, held⟩ | held
        · exact Or.inl ⟨f', List.mem_append_left _ mem, held⟩
        · exact Or.inr held

/-- What shows of the innermost frames once one is popped that was pushed. -/
theorem Over.pop {k : Nat} {a b a' b' : Env} (before : Over k a b) (after : Over k a' b')
    (grows : Grows a.push a') (grows' : Grows b.push b') : Over k a'.pop b'.pop := by
  cases before with
  | @above fs gs shared globals some some' same depth =>
    cases after with
    | @above fs' gs' shared' globals' left left' same' depth' =>
      have equal := depth'.trans depth.symm
      have above : Grows (Env.push ⟨fs, globals⟩) ⟨fs', globals'⟩ :=
        Grows.above (.empty :: fs) grows equal (by simp)
      have above' : Grows (Env.push ⟨gs, globals⟩) ⟨gs', globals'⟩ :=
        Grows.above (.empty :: gs) grows' equal (by simp)
      have rest := mt (eq_nil_iff_of_names above.names_pop).mp some
      have rest' := mt (eq_nil_iff_of_names above'.names_pop).mp some'
      have shown : ∀ x, local? fs'.tail x = local? gs'.tail x := by
        intro x
        have alike : (if (local? fs x).isSome then local? fs' x else none) =
            if (local? gs x).isSome then local? gs' x else none := by
          rw [same, same']
        exact (above.local?_pop x).trans (alike.trans (above'.local?_pop x).symm)
      have apart : Env.pop ⟨fs' ++ shared', globals'⟩ = ⟨fs'.tail ++ shared', globals'⟩ := by
        rw [Env.pop, List.tail_append_of_ne_nil left]
      have apart' : Env.pop ⟨gs' ++ shared', globals'⟩ = ⟨gs'.tail ++ shared', globals'⟩ := by
        rw [Env.pop, List.tail_append_of_ne_nil left']
      rw [apart, apart']
      exact .above _ _ _ rest rest' shown depth'

end Env

/-- That a program sees no difference in the frames over some that are equal. -/
def Resemblance.atop : Resemblance where
  Stage := Nat
  alone := 0
  Envs := Env.Over
  find? x atop := by rw [Env.find?, Env.find?, atop.locals, atop.globals]
  size atop := by rw [atop.globals]
  holds x atop := by rw [atop.globals]
  putGlobal x v atop := atop.putGlobal x v
  assign x v atop := atop.assign x v
  push atop := atop.push
  pop before after grows grows' := before.pop after grows grows'
  enter frame atop := by
    rw [atop.globals]
    exact .above [frame] [frame] [] (by simp) (by simp) (fun _ => rfl) rfl
  leave before after := by
    rw [after.globals]
    cases before with
    | above _ _ _ some some' same depth => exact .above _ _ _ some some' same depth

/-- Machines that are the same once their innermost frames are popped. -/
structure Machine.SamePopped (m n : Machine) : Prop where
  env : m.env.pop = n.env.pop
  world : m.world = n.world

theorem Machine.SamePopped.refl (m : Machine) : m.SamePopped m := ⟨rfl, rfl⟩

/-- A frame more makes no difference to a computation in a frame that is popped after it. -/
theorem alike_inScope {x : Run Datum} (same : Resemblance.atop.correspondence.Corresponds Eq x x)
    {m : Machine} (some : m.env.frames ≠ []) :
    Run.Alike Machine.SamePopped (Run.inScope x m) (x m) := by
  obtain ⟨⟨frames, globals⟩, world⟩ := m
  cases frames with
  | nil => exact absurd rfl some
  | cons f fs =>
    have atop : Env.Over fs.length (Env.push ⟨f :: fs, globals⟩) ⟨f :: fs, globals⟩ :=
      .above [.empty, f] [f] fs (by simp) (by simp) (fun _ => rfl) rfl
    have met := same fs.length ⟨Env.push ⟨f :: fs, globals⟩, world⟩
      ⟨⟨f :: fs, globals⟩, world⟩ ⟨atop, rfl⟩
    rw [Run.inScope]
    generalize x ⟨Env.push ⟨f :: fs, globals⟩, world⟩ = o at met ⊢
    generalize x ⟨⟨f :: fs, globals⟩, world⟩ = p at met ⊢
    cases met with
    | outOfFuel => exact .outOfFuel
    | @ends r s m' n' result after grows grows' =>
      obtain rfl := result.eq
      obtain ⟨after, worlds⟩ := after
      obtain ⟨env, w⟩ := m'
      obtain ⟨env', w'⟩ := n'
      have length := grows.frames.length
      have length' := grows'.frames.length
      cases after with
      | above tops tops' shared left left' shown depth =>
        -- One frame is left over the equal ones, or two where one is still to be popped.
        simp only [List.length_append, List.length_cons, Env.push] at length length'
        obtain ⟨g, g', rfl⟩ : ∃ g g', tops = [g, g'] := List.length_eq_two.mp (by omega)
        obtain ⟨h, rfl⟩ : ∃ h, tops' = [h] := List.length_eq_one_iff.mp (by omega)
        exact .ends (.refl r) ⟨rfl, worlds⟩

/-- Scopes around computations that are alike but for the innermost frame. -/
theorem alike_scopes {x y : Run Datum} {m : Machine}
    (inner : Run.Alike Machine.SamePopped (x { m with env := m.env.push })
      (y { m with env := m.env.push })) : Run.Alike Eq (Run.inScope x m) (Run.inScope y m) := by
  rw [Run.inScope, Run.inScope]
  generalize x { m with env := m.env.push } = o at inner ⊢
  generalize y { m with env := m.env.push } = p at inner ⊢
  cases inner with
  | outOfFuel => exact .outOfFuel
  | @ends r s m' n' same popped =>
    refine .ends same ?_
    rw [popped.env, popped.world]

section Rounds

variable {ev ev' : Evaluator} {cond : Datum} {forms : List Datum}

/-- One round of a loop: the condition, and if it holds the body and what comes after it. -/
def round (ev ev' : Evaluator) (cond : Datum) (forms : List Datum) (rest : Run Unit) : Run Unit := do
  if (← ev cond).isTrue then
    let _ ← Arguments.sequence ev' forms
    rest
  else pure ()

theorem loop_succ (fuel : Nat) : Forms.loop ev cond forms (fuel + 1) =
    round ev ev cond forms (Forms.loop ev cond forms fuel) := rfl

theorem below_round {n n' k k' : Nat} (less : n ≤ n') (less' : k ≤ k') {rest rest' : Run Unit}
    (below : rest.Below (fun _ _ => True) rest') :
    (round (eval Host.empty n) (eval Host.empty k) cond forms rest).Below (fun _ _ => True)
      (round (eval Host.empty n') (eval Host.empty k') cond forms rest') := by
  refine (below_eval less cond).bind ?_
  rintro v _ rfl
  have evals : Likeness.fuel.congruence.Evaluators (eval Host.empty k) (eval Host.empty k') :=
    Congruence.fuel.eval Congruence.hosted_empty less'
  split
  · exact (Congruence.sequence evals (Matching.identity_refl forms)).bind fun _ _ _ => below
  · exact Run.below_same fun _ => trivial

theorem below_loop {n n' k k' : Nat} (less : n ≤ n') (less' : k ≤ k') :
    (Forms.loop (eval Host.empty n) cond forms k).Below (fun _ _ => True)
      (Forms.loop (eval Host.empty n') cond forms k') :=
  Congruence.loop (C := Likeness.fuel.congruence)
    (Congruence.fuel.eval Congruence.hosted_empty less) rfl (Matching.identity_refl forms) less'

/-- What a call of a loop makes of its rounds. -/
def looping (rounds : Run Unit) : Run Datum :=
  .mapFault .escaping (Run.inScope (rounds >>= fun _ => pure .nil))

theorem below_looping {x y : Run Unit} (below : x.Below (fun _ _ => True) y) :
    (looping x).Below Eq (looping y) :=
  (below.bind fun _ _ _ => Run.below_same fun _ => rfl).inScope.escaping

theorem nil_of_looping {rounds : Run Unit} {m n : Machine} {v : Datum}
    (h : looping rounds m = some (.ok v, n)) : v = .nil := by
  rw [looping, Run.mapFault_escaping] at h
  obtain ⟨⟨r, k⟩, inner, ends⟩ := Option.map_eq_some_iff.mp h
  obtain ⟨l, ran, _⟩ := Run.inScope_eq_some inner
  rw [Run.bind_apply] at ran
  split at ran <;> cases ran <;> cases ends
  rfl

end Rounds

/-- The loop with the function that loops itself at its head. -/
def whileForm (cond : Datum) (forms : List Datum) : Datum :=
  .pair (.native (.builtin .whileLoop)) (.ofList (cond :: forms))

/-- The conditional that evaluates the body and then the loop. -/
def unrolledForm (cond : Datum) (forms : List Datum) : Datum :=
  .ofList [.native (.builtin .ifThen), cond,
    .ofList (.native (.builtin .evaluate) ::
      (forms.map .quoted ++ [.quoted (whileForm cond forms)]))]

theorem inScope_bind_pure {α β : Type} (x : Run α) (f : α → β) :
    (Run.inScope x >>= fun a => pure (f a)) = Run.inScope (x >>= fun a => pure (f a)) := by
  funext m
  rw [Run.bind_apply, Run.inScope, Run.inScope, Run.bind_apply]
  rcases x { m with env := m.env.push } with _ | ⟨_ | _, _⟩ <;> rfl

section Forms

variable {cond : Datum} {forms : List Datum}

theorem whileLoop_ofList (ev : Evaluator) (fuel : Nat) :
    .mapFault .escaping (Forms.whileLoop ev fuel (.ofList (cond :: forms))) =
      looping (Forms.loop ev cond forms fuel) := by
  rw [Forms.whileLoop, oneAndRest_ofList, looping, ← inScope_bind_pure]
  rfl

theorem eval_whileForm (fuel : Nat) : eval Host.empty (fuel + 2) (whileForm cond forms) =
    looping (Forms.loop (eval Host.empty (fuel + 1)) cond forms (fuel + 1)) := by
  rw [whileForm, eval_builtin, Builtin.run, whileLoop_ofList]

theorem values_quoted (fuel : Nat) (ds : List Datum) :
    Arguments.values (eval Host.empty (fuel + 1)) (ds.map .quoted) = pure ds := by
  induction ds with
  | nil => rfl
  | cons d ds ih =>
    rw [List.map_cons, Arguments.values, ih]
    rfl

theorem evaluate_ofList (ev : Evaluator) {ds : List Datum} (some : ds ≠ []) :
    Forms.evaluate ev (.ofList ds) = Arguments.values ev ds >>= Arguments.sequence ev := by
  cases ds with
  | nil => exact absurd rfl some
  | cons d ds =>
    rw [Forms.evaluate, oneAndRest_ofList]
    rfl

/-- Quoted forms are evaluated one after the other. -/
theorem eval_evaluate_quoted (fuel : Nat) (ds : List Datum) (d : Datum) :
    eval Host.empty (fuel + 3) (.ofList (.native (.builtin .evaluate) ::
      (ds.map .quoted ++ [.quoted d]))) =
      .mapFault .escaping (Arguments.sequence (eval Host.empty (fuel + 2)) ds >>= fun _ =>
        eval Host.empty (fuel + 2) d) := by
  have quoted : ds.map .quoted ++ [.quoted d] = (ds ++ [d]).map Datum.quoted := by simp
  have all : Forms.evaluate (eval Host.empty (fuel + 2)) (.ofList ((ds ++ [d]).map .quoted)) =
      Arguments.sequence (eval Host.empty (fuel + 2)) (ds ++ [d]) := by
    rw [evaluate_ofList _ (by simp), values_quoted]
    rfl
  calc
    _ = Run.mapFault .escaping (Forms.evaluate (eval Host.empty (fuel + 2))
        (.ofList (ds.map .quoted ++ [.quoted d]))) := rfl
    _ = Run.mapFault .escaping (Arguments.sequence (eval Host.empty (fuel + 2)) (ds ++ [d])) := by
      rw [quoted, all]
    _ = _ := by
      rw [sequence_append _ _ (by simp)]
      rfl

theorem eval_unrolledForm (fuel : Nat) :
    eval Host.empty (fuel + 4) (unrolledForm cond forms) =
      .mapFault .escaping (Run.inScope do
        if (← eval Host.empty (fuel + 3) cond).isTrue then
          .mapFault .escaping (Arguments.sequence (eval Host.empty (fuel + 2)) forms >>= fun _ =>
            looping (Forms.loop (eval Host.empty (fuel + 1)) cond forms (fuel + 1)))
        else pure .nil) := by
  rw [← eval_whileForm, ← eval_evaluate_quoted]
  rfl

theorem frames_ne_nil {m m' : Machine} (grows : m.env.Grows m'.env) (some : m.env.frames ≠ []) :
    m'.env.frames ≠ [] := by
  rw [← List.length_pos_iff, grows.frames.length, List.length_pos_iff]
  exact some

/-- A call of a loop whose first round has the fuel that it has in the conditional. -/
def firstApart (fuel : Nat) (cond : Datum) (forms : List Datum) : Run Datum :=
  looping (round (eval Host.empty (fuel + 3)) (eval Host.empty (fuel + 2)) cond forms
    (Forms.loop (eval Host.empty (fuel + 1)) cond forms (fuel + 1)))

theorem whileForm_below (fuel : Nat) :
    (eval Host.empty (fuel + 2) (whileForm cond forms)).Below Eq
      (firstApart fuel cond forms) := by
  rw [eval_whileForm, loop_succ]
  exact below_looping (below_round (by omega) (by omega) (below_loop (by omega) (by omega)))

theorem firstApart_below (fuel : Nat) :
    (firstApart fuel cond forms).Below Eq
      (eval Host.empty (fuel + 4) (whileForm cond forms)) := by
  rw [eval_whileForm, loop_succ]
  exact below_looping (below_round (by omega) (by omega) (below_loop (by omega) (by omega)))

theorem alike_unrolledForm (cond : Datum) (forms : List Datum) (fuel : Nat) (m : Machine) :
    Run.Alike Eq (eval Host.empty (fuel + 4) (unrolledForm cond forms) m)
      (firstApart fuel cond forms m) := by
  have evals : Resemblance.atop.correspondence.congruence.Evaluators (eval Host.empty (fuel + 1))
      (eval Host.empty (fuel + 1)) :=
    Resemblance.atop.callCongruence.eval Congruence.hosted_empty rfl
  have loops := Congruence.loop evals (rfl : cond = cond) (Matching.identity_refl forms)
    (rfl : fuel + 1 = fuel + 1)
  have stays : ∀ k l : Machine, k = l → k.SamePopped l := by
    rintro k _ rfl
    exact .refl k
  rw [eval_unrolledForm]
  refine (Run.Alike.escaping_right (alike_scopes ?_)).escaping
  rw [round, Run.bind_assoc]
  refine (Run.alike_refl (N := Eq) (fun _ => rfl) _).bind stays ?_
  rintro v k _ rfl tested _
  have some := frames_ne_nil (grows_eval _ _ _ _ _ tested).1 (List.cons_ne_nil _ _)
  split
  · rw [Run.bind_assoc]
    refine Run.Alike.escaping ((Run.alike_refl (N := Eq) (fun _ => rfl) _).bind stays ?_)
    rintro _ l _ rfl ran _
    have grows : Congruence.growth.Evaluators (eval Host.empty (fuel + 2))
        (eval Host.empty (fuel + 2)) := Congruence.growth.eval Congruence.hosted_empty rfl
    have grown := Congruence.sequence grows (Matching.identity_refl forms) k _ l trivial ran
    have again := loops.bind fun _ _ _ => Correspondence.corresponds_pure (rfl : Datum.nil = .nil)
    exact (alike_inScope again (frames_ne_nil grown.change some)).escaping
  · exact Run.alike_refl Machine.SamePopped.refl _

end Forms

/-- A loop and the conditional that evaluates its body and then the loop again: either has an end
if the other has one, and then both give `nil`, or they stop in the same way up to the layers around
a fault, which has the same cause and message. They leave the same environment, frame by frame, and
the same world. -/
theorem while_unrolls (cond : Datum) (forms : List Datum) (m : Machine) :
    (Diverges (whileForm cond forms) m ↔ Diverges (unrolledForm cond forms) m) ∧
    (∀ r n, EndsIn (whileForm cond forms) m r n → (∀ v, r = .ok v → v = .nil) ∧
      ∃ s, EndsIn (unrolledForm cond forms) m s n ∧ Run.SameResult s r) ∧
    ∀ s n, EndsIn (unrolledForm cond forms) m s n →
      ∃ r, EndsIn (whileForm cond forms) m r n ∧ Run.SameResult s r := by
  have unrolled : ∀ r n, EndsIn (whileForm cond forms) m r n →
      ∃ s, EndsIn (unrolledForm cond forms) m s n ∧ Run.SameResult s r := by
    rintro r n ⟨fuel, ends⟩
    obtain ⟨s, apart, same⟩ := whileForm_below fuel m r n (eval_mono (by omega) ends)
    obtain rfl := same.eq
    have alike := alike_unrolledForm cond forms fuel m
    rw [apart] at alike
    obtain ⟨s, ends', result⟩ := alike.of_second
    exact ⟨s, ⟨_, ends'⟩, result⟩
  have looped : ∀ s n, EndsIn (unrolledForm cond forms) m s n →
      ∃ r, EndsIn (whileForm cond forms) m r n ∧ Run.SameResult s r := by
    rintro s n ⟨fuel, ends⟩
    have alike := alike_unrolledForm cond forms fuel m
    rw [eval_mono (by omega) ends] at alike
    obtain ⟨r, apart, result⟩ := alike.of_first
    obtain ⟨r', ends', same⟩ := firstApart_below fuel m r n apart
    obtain rfl := same.eq
    exact ⟨r, ⟨_, ends'⟩, result⟩
  refine ⟨?_, ?_, looped⟩
  · refine diverges_iff_diverges (fun r n ends => ?_) fun s n ends => ?_
    · obtain ⟨s, ends', _⟩ := unrolled r n ends
      exact ⟨s, n, ends'⟩
    · obtain ⟨r, ends', _⟩ := looped s n ends
      exact ⟨r, n, ends'⟩
  · intro r n ends
    refine ⟨?_, unrolled r n ends⟩
    rintro v rfl
    obtain ⟨fuel, ends⟩ := ends
    have looping := eval_mono (Nat.le_add_right fuel 2) ends
    rw [eval_whileForm] at looping
    exact nil_of_looping looping

/-- A loop of one round, which changes a binding of a frame that was there before. -/
theorem while_unrolls_sample :
    let cond : Datum := .symbol ['x']
    let forms : List Datum := [bindNil ['x']]
    ∃ n, EndsIn (whileForm cond forms) stacked (.ok .nil) n ∧
      EndsIn (unrolledForm cond forms) stacked (.ok .nil) n := by
  intro cond forms
  obtain ⟨_, unrolled, _⟩ := while_unrolls cond forms stacked
  have ends : ∃ n, EndsIn (whileForm cond forms) stacked (.ok .nil) n := ⟨_, 4, rfl⟩
  obtain ⟨n, ends⟩ := ends
  obtain ⟨_, s, ends', same⟩ := unrolled _ _ ends
  cases same with
  | ok same =>
    subst same
    exact ⟨n, ends, ends'⟩

end FexprLisp
