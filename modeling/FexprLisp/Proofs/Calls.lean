import FexprLisp.Proofs.Fuel
import FexprLisp.Proofs.Logging
import FexprLisp.Proofs.Unrolling

/-!
# Calls of interpreted functions

A call evaluates all its arguments in the frames of the caller before it looks at how many there
are. Then the body is on its own with the globals and one frame that holds the parameters, and the
frames of the caller are put back at whatever end. An inclusion does with the forms of a file what a
call does with the body of a function without parameters.
-/

namespace FexprLisp

namespace Bindings

theorem find?_putAll (b : Bindings) (es : List (Text × Datum)) (x : Text) :
    (b.putAll es).find? x = (es.reverse.lookup x).or (b.find? x) := by
  induction es generalizing b with
  | nil => rfl
  | cons e es ih =>
    have last : ((b.put e.1 e.2).putAll es).find? x = _ := ih (b.put e.1 e.2)
    rw [List.reverse_cons, List.lookup_append, Option.or_assoc]
    refine last.trans (congrArg _ ?_)
    rw [find?_put, List.lookup_cons]
    by_cases same : x = e.1
    · simp [same]
    · simp [same, beq_false_of_ne same]

theorem names_put (b : Bindings) (x : Text) (v : Datum) :
    (b.put x v).names = if x ∈ b.names then b.names else b.names ++ [x] := by
  split
  next mem => exact names_put_of_mem mem v
  next missing => exact names_put_of_not_mem missing v

theorem nodup_putAll {b : Bindings} (distinct : b.names.Nodup) (es : List (Text × Datum)) :
    (b.putAll es).names.Nodup := by
  induction es generalizing b with
  | nil => exact distinct
  | cons e es ih =>
    refine ih ?_
    rw [names_put]
    split
    · exact distinct
    next missing =>
      refine List.nodup_append.mpr ⟨distinct, by simp, ?_⟩
      rintro x mem _ single rfl
      exact missing (List.mem_singleton.mp single ▸ mem)

/-- Which names are bound, and in which order, does not depend on the values. -/
theorem names_putAll {b c : Bindings} (names : b.names = c.names) {es fs : List (Text × Datum)}
    (same : es.map (·.1) = fs.map (·.1)) : (b.putAll es).names = (c.putAll fs).names := by
  induction es generalizing b c fs with
  | nil =>
    cases fs with
    | nil => exact names
    | cons f fs => cases same
  | cons e es ih =>
    cases fs with
    | nil => cases same
    | cons f fs =>
      obtain ⟨head, tail⟩ := List.cons.inj same
      have first : (b.put e.1 e.2).names = (c.put f.1 f.2).names := by
        rw [names_put, names_put, names, show e.1 = f.1 from head]
      exact ih first tail

/-- A table whose names are distinct holds under each name what it finds for it. -/
theorem entries_eq {b : Bindings} (distinct : b.names.Nodup) :
    b.entries = b.names.map fun x => (x, (b.find? x).getD .nil) := by
  obtain ⟨es⟩ := b
  induction es with
  | nil => rfl
  | cons e es ih =>
    obtain ⟨key, value⟩ := e
    obtain ⟨other, rest⟩ := List.nodup_cons.mp distinct
    have found : find? ⟨(key, value) :: es⟩ key = some value := by simp [find?]
    have behind : ∀ x ∈ names ⟨es⟩, find? ⟨(key, value) :: es⟩ x = find? ⟨es⟩ x := by
      intro x mem
      have apart : x ≠ key := fun same => other (same ▸ mem)
      simp [find?, List.lookup_cons, beq_false_of_ne apart]
    change (key, value) :: es = (key, _) :: (names ⟨es⟩).map _
    rw [found, List.map_congr_left fun x mem => by rw [behind x mem], ← ih rest]
    rfl

theorem eq_of_find? {b c : Bindings} (names : b.names = c.names) (distinct : b.names.Nodup)
    (same : ∀ x, b.find? x = c.find? x) : b = c := by
  refine congrArg Bindings.mk (?_ : b.entries = c.entries)
  rw [entries_eq distinct, entries_eq (names ▸ distinct), names, funext same]

end Bindings

namespace Eval

open Arguments

variable {ev : Evaluator} {params : List Text} {forms : List Datum}

/-- The value that a parameter has in the body: of those at its positions the last. -/
def argument? (params : List Text) (values : List Datum) (name : Text) : Option Datum :=
  (params.zip values).reverse.lookup name

theorem find?_putAll_zip (params : List Text) (values : List Datum) (x : Text) :
    (Bindings.empty.putAll (params.zip values)).find? x = argument? params values x := by
  rw [Bindings.find?_putAll, Bindings.find?_empty, Option.or_none, argument?]

/-- The frame of a body depends on the values that the parameters have in it and nothing else. -/
theorem frame_eq {vs ws : List Datum} (enough : params.length ≤ vs.length)
    (enough' : params.length ≤ ws.length)
    (same : ∀ x, argument? params vs x = argument? params ws x) :
    Bindings.empty.putAll (params.zip vs) = Bindings.empty.putAll (params.zip ws) := by
  refine Bindings.eq_of_find? (Bindings.names_putAll rfl ?_)
    (Bindings.nodup_putAll (b := .empty) List.nodup_nil _) fun x => ?_
  · exact (List.map_fst_zip enough).trans (List.map_fst_zip enough').symm
  · rw [find?_putAll_zip, find?_putAll_zip, same]

/-- The arguments of a call are evaluated like those of any other list; then the end is looked
at. -/
theorem operands_eq (args : Datum) : operands ev args = values ev args.elements >>= fun vs =>
    if args.isProper then pure vs else Run.fail (.badArguments .dottedPair) := by
  induction args with
  | nil => rfl
  | pair e rest _ ih =>
    rw [operands, Datum.elements, values, ih]
    simp only [Run.bind_assoc]
    congr 1
    funext v
    congr 1
    funext vs
    change _ = if rest.isProper then pure (v :: vs) else Run.fail (.badArguments .dottedPair)
    cases rest.isProper <;> rfl
  | _ => rfl

/-- The machine that a body starts on. -/
def entered (frame : Bindings) (m : Machine) : Machine :=
  ⟨⟨[frame], m.env.globals⟩, m.world.note .environment
    ("spawning evaluator over ".toList ++ natText m.env.globals.size ++ " globals".toList)⟩

theorem spawned_apply (frame : Bindings) (x : Run Datum) (m : Machine) :
    Console.spawned frame x m = (x (entered frame m)).map fun p =>
      (p.1, { p.2 with env := { p.2.env with frames := m.env.frames } }) :=
  Run.withFrames_apply [frame] x _

theorem entered_congr {m n : Machine} (globals : m.env.globals = n.env.globals)
    (world : m.world = n.world) (frame : Bindings) : entered frame m = entered frame n := by
  rw [entered, entered, globals, world]

/-- What a body comes to depends on its parameters, the globals and the world. The frames of the
caller are put back as they were. -/
theorem body_of_same {vs ws : List Datum} (enough : params.length ≤ vs.length)
    (enough' : params.length ≤ ws.length)
    (same : ∀ x, argument? params vs x = argument? params ws x) {m n : Machine}
    (globals : m.env.globals = n.env.globals) (world : m.world = n.world) :
    body ev params forms ws n = (body ev params forms vs m).map fun p =>
      (p.1, { p.2 with env := { p.2.env with frames := n.env.frames } }) := by
  rw [body, body, spawned_apply, spawned_apply, frame_eq enough enough' same,
    entered_congr globals world, Option.map_map]
  rfl

theorem keeps_body (values : List Datum) : (body ev params forms values).Keeps Env.frames :=
  Run.keeps_spawned _ _

end Eval

section Calls

open Arguments

variable {host : Host} {fuel : Nat} {head args : Datum} {params : List Text} {forms : List Datum}
  {m m₁ n : Machine} (function : eval host fuel head m = some (.ok (.func params forms), m₁))

include function

theorem eval_of_arguments_stop {s : Stop}
    (stopped : values (eval host fuel) args.elements m₁ = some (.error s, n)) :
    eval host (fuel + 1) (.pair head args) m = some (.error s, n) := by
  rw [eval_of_function function, Eval.applyFunction, Eval.operands_eq, Run.bind_assoc,
    Run.bind_of_error stopped]

/-- After the arguments the end of the list is looked at, then their number, and then the body
runs. -/
theorem eval_of_arguments {vs : List Datum}
    (evaluated : values (eval host fuel) args.elements m₁ = some (.ok vs, n)) :
    eval host (fuel + 1) (.pair head args) m =
      (if args.isProper then
        if vs.length < params.length then Run.fail (.badArguments .notEnough)
        else Eval.body (eval host fuel) params forms vs
      else Run.fail (.badArguments .dottedPair)) n := by
  rw [eval_of_function function, Eval.applyFunction, Eval.operands_eq, Run.bind_assoc,
    Run.bind_of_ok evaluated]
  cases args.isProper <;> rfl

end Calls

/-- Two expressions, each on a machine of its own: both diverge, or both come to an end, with the
same value or stops with one cause, on machines that `N` relates. -/
structure EndAlike (N : Machine → Machine → Prop) (d : Datum) (m : Machine) (d' : Datum)
    (n : Machine) : Prop where
  diverges : Diverges d m ↔ Diverges d' n
  first {r : Except Stop Datum} {m' : Machine} : EndsIn d m r m' →
    ∃ s n', EndsIn d' n s n' ∧ Run.SameResult r s ∧ N m' n'
  second {s : Except Stop Datum} {n' : Machine} : EndsIn d' n s n' →
    ∃ r m', EndsIn d m r m' ∧ Run.SameResult r s ∧ N m' n'

/-- It is enough to compare the ends with much fuel. -/
theorem endAlike_of_alike {N : Machine → Machine → Prop} {d d' : Datum} {m n : Machine} (k : Nat)
    (alike : ∀ fuel, k ≤ fuel →
      Run.Alike N (eval Host.empty fuel d m) (eval Host.empty fuel d' n)) :
    EndAlike N d m d' n := by
  have first : ∀ {r m'}, EndsIn d m r m' →
      ∃ s n', EndsIn d' n s n' ∧ Run.SameResult r s ∧ N m' n' := by
    rintro r m' ⟨fuel, ends⟩
    have met := alike (fuel + k) (Nat.le_add_left k fuel)
    rw [eval_mono (Nat.le_add_right fuel k) ends] at met
    generalize ended : eval Host.empty (fuel + k) d' n = o at met
    cases met with
    | ends same machines => exact ⟨_, _, ⟨_, ended⟩, same, machines⟩
  have second : ∀ {s n'}, EndsIn d' n s n' →
      ∃ r m', EndsIn d m r m' ∧ Run.SameResult r s ∧ N m' n' := by
    rintro s n' ⟨fuel, ends⟩
    have met := alike (fuel + k) (Nat.le_add_left k fuel)
    rw [eval_mono (Nat.le_add_right fuel k) ends] at met
    generalize ended : eval Host.empty (fuel + k) d m = o at met
    cases met with
    | ends same machines => exact ⟨_, _, ⟨_, ended⟩, same, machines⟩
  refine ⟨diverges_iff_diverges (fun r m' ends => ?_) fun s n' ends => ?_, first, second⟩
  · obtain ⟨s, n', ends', _⟩ := first ends
    exact ⟨s, n', ends'⟩
  · obtain ⟨r, m', ends', _⟩ := second ends
    exact ⟨r, m', ends'⟩

/-- The inclusion of the file that an expression names. -/
def includeForm (e : Datum) : Datum := .ofList [.native (.builtin .includeFile), e]

/-- The call of a function that has no parameters. -/
def thunkForm (forms : List Datum) : Datum := .ofList [.func [] forms]

/-- An expression names a file that is found and holds these forms; its evaluation leaves the
machine `m₁`. -/
def NamesFile (e : Datum) (m : Machine) (forms : List Datum) (m₁ : Machine) : Prop :=
  ∃ name path source, EndsIn e m (.ok (.ofText name)) m₁ ∧ name ≠ [] ∧
    m₁.world.resolve name = .ok path ∧ m₁.world.readFile path = .ok source ∧
    FexprLisp.read source = .ok forms

section Inclusion

variable {e : Datum} {forms : List Datum} {m m₁ : Machine}

theorem eval_thunkForm (fuel : Nat) (forms : List Datum) :
    eval Host.empty (fuel + 2) (thunkForm forms) =
      Console.spawned .empty (Arguments.sequence (eval Host.empty (fuel + 1)) forms) := rfl

theorem isString_ofText {t : Text} (some : t ≠ []) : (Datum.ofText t).isString = true := by
  cases t with
  | nil => exact absurd rfl some
  | cons c t => exact congrArg Option.isSome (Datum.text?_ofText (c :: t))

/-- A file that was found is noted in the log, and then its forms are on their own. -/
theorem includeFile_of_found {ev : Evaluator} {name source : Text} {path : Path} (some : name ≠ [])
    (named : ev e m = .some (.ok (.ofText name), m₁)) (resolved : m₁.world.resolve name = .ok path)
    (opened : m₁.world.readFile path = .ok source)
    (readable : FexprLisp.read source = .ok forms) :
    Console.includeFile ev (.ofList [e]) m = Console.spawned .empty (Arguments.sequence ev forms)
      (m₁.relogged (m₁.world.log ++ [⟨.system, "including ".toList ++ path.text⟩])) := by
  change (ev e >>= _) m = _
  rw [Run.bind_of_ok named, isString_ofText some, if_pos rfl, Datum.text?_ofText,
    Option.getD_some]
  change (Run.ofStop (m₁.world.resolve name) >>= _) m₁ = _
  rw [resolved]
  change (Run.ofStop (m₁.world.readFile path) >>= _) (m₁.relogged _) = _
  rw [opened]
  change (Run.ofExcept (FexprLisp.read source) >>= _) (m₁.relogged _) = _
  rw [readable]
  rfl

theorem alike_of_unlogged {α : Type} {o p : Option (Except Stop α × Machine)}
    (met : Run.Unlogged Eq o p) : Run.Alike Machine.SameButLog p o := by
  cases met with
  | outOfFuel => exact .outOfFuel
  | ends m log same =>
    rw [same.eq]
    exact .ends (.refl _) (Machine.SameButLog.symm ⟨log, rfl⟩)

/-- An inclusion and the call of a function with the same forms, the one with a record more in its
log. -/
theorem includeForm_endAlike (file : NamesFile e m forms m₁) :
    EndAlike Machine.SameButLog (includeForm e) m (thunkForm forms) m₁ := by
  obtain ⟨name, path, source, ⟨k, named⟩, some, resolved, opened, readable⟩ := file
  refine endAlike_of_alike (k + 2) fun fuel more => ?_
  obtain ⟨j, rfl⟩ := Nat.exists_eq_add_of_le' more
  have included := includeFile_of_found some
    (eval_mono (Nat.le_succ_of_le (Nat.le_add_left k j)) named) resolved opened readable
  have call : eval Host.empty (j + (k + 2)) (includeForm e) =
    .mapFault .escaping (Console.includeFile (eval Host.empty (j + k + 1)) (.ofList [e])) := rfl
  rw [call]
  refine Run.Alike.escaping ?_
  rw [included, ← eval_thunkForm]
  exact alike_of_unlogged (logBlind_eval _ _ m₁ _)

end Inclusion

/-- A machine on which every path is a file of one name. -/
def holding : Machine :=
  { emptyMachine with world := { emptyMachine.world with entry := fun _ => .file ⟨#[112]⟩ } }

theorem namesFile_holding :
    NamesFile (.quoted (.ofText ['f'])) holding [.symbol ['p']] holding := by
  have lexed : lex ['p'] = ⟨[⟨.atom, ['p']⟩], false⟩ := by cbv
  refine ⟨['f'], .ofText ['f'], ['p'], ⟨1, rfl⟩, by simp, rfl, rfl, ?_⟩
  rw [FexprLisp.read, readForms, lexed]
  rfl

end FexprLisp
