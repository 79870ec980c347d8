import FexprLisp.CommandLine
import FexprLisp.Proofs.Lines
import FexprLisp.Proofs.Unrolling

/-!
# The dialogue

Without a file the command runs a loop that is written in the language itself. As long as the names
that the loop calls keep their values, it does with the input what is written here as a dialogue: in
one frame over the default names, line after line, it takes a form, evaluates it and prints the
value, until the input or the program ends.
-/

namespace FexprLisp

namespace Dialogue

open CommandLine

/-- The first form on the next line, or `nil`. The prompt is written first, and the whole line has
to be readable. -/
def takeForm : Run Datum := do
  let prompt ← Console.defaultPrompt
  let w ← Run.world
  let line ← Console.readLine (← Run.ofExcept (Console.promptText w.settings prompt))
  let forms ← Run.ofExcept (FexprLisp.read line)
  pure (forms.headD .nil)

/-- Take a form, evaluate it and print its value. -/
def line (ev : Evaluator) : Run Unit := do
  let v ← ev (← takeForm)
  Run.write (Console.newline v.printed)

def rounds (ev : Evaluator) : Nat → Run Unit
  | 0 => pure ()
  | n + 1 => do
    line ev
    rounds ev n

/-- The default names, under a frame for the program and one for its loop. -/
def start (w : World) : Machine :=
  ⟨⟨[.empty, .empty], Interpreter.defaultGlobals⟩,
    w.note .interpreter "registering default environments".toList⟩

/-- A round for each line of the input, and one that meets its end. -/
def session (ev : Evaluator) (w : World) : Option (Except Stop Unit × Machine) :=
  rounds ev ((inputLines w.input).length + 1) (start w)

/-- What the stop of a session means for the process: a fault or a file error is told in red and
gives status one, and at the end of the input the line with the prompt is ended. -/
def ending : Stop → World → Ending
  | .fault f, w => ⟨.ok 1, w.output ++ alarm f.message, w.logText⟩
  | .file e, w => ⟨.ok 1, w.output ++ alarm e.message, w.logText⟩
  | .endOfInput, w => ⟨.ok 0, w.output ++ ['\n'], w.logText⟩
  | e, w => ⟨.error e, w.output, w.logText⟩

/-- The names that the loop evaluates in every round. -/
def loopNames : List Text := [['t'], "print".toList, "eval".toList, "read".toList]

/-- No line that is evaluated changes what the loop calls. -/
def Steady (w : World) : Prop :=
  ∀ fuel n m, rounds (eval Host.empty fuel) n (start w) = some (.ok (), m) →
    ∀ x ∈ loopNames, m.env.find? x = (start w).env.find? x

section Rounds

variable {ev : Evaluator} {m m' : Machine}

theorem rounds_add (ev : Evaluator) (n k : Nat) :
    rounds ev (n + k) = rounds ev n >>= fun _ => rounds ev k := by
  induction n with
  | zero => rw [Nat.zero_add]; rfl
  | succ n ih => rw [Nat.succ_add, rounds, rounds, ih, Run.bind_assoc]

/-- Rounds that have stopped go no further. -/
theorem rounds_of_stopped {n k : Nat} {e : Stop} (more : n ≤ k)
    (stopped : rounds ev n m = some (.error e, m')) : rounds ev k m = some (.error e, m') := by
  obtain ⟨j, rfl⟩ := Nat.exists_eq_add_of_le more
  rw [rounds_add, Run.bind_of_error stopped]

theorem below_line {n k : Nat} (less : n ≤ k) :
    (line (eval Host.empty n)).Below (fun _ _ => True) (line (eval Host.empty k)) := by
  refine (Run.below_same (φ := Eq) fun _ => rfl).bind ?_
  rintro d _ rfl
  refine (below_eval less d).bind ?_
  rintro v _ rfl
  exact Run.below_same fun _ => trivial

theorem below_rounds {n k : Nat} (less : n ≤ k) (count : Nat) :
    (rounds (eval Host.empty n) count).Below (fun _ _ => True)
      (rounds (eval Host.empty k) count) := by
  induction count with
  | zero => exact Run.below_same fun _ => trivial
  | succ count ih => exact (below_line less).bind fun _ _ _ => ih

/-- More fuel changes nothing about how rounds end. -/
theorem rounds_mono {n k count : Nat} (less : n ≤ k) {r : Except Stop Unit}
    (h : rounds (eval Host.empty n) count m = some (r, m')) :
    rounds (eval Host.empty k) count m = some (r, m') := by
  obtain ⟨s, ends, same⟩ := below_rounds less count m r m' h
  rw [ends]
  cases same with
  | ok _ => rfl
  | error same => rw [same]

/-- A form takes a line at least. -/
theorem lines_of_takeForm {d : Datum} (h : takeForm m = some (.ok d, m')) :
    (inputLines m'.world.input).length < (inputLines m.world.input).length := by
  obtain ⟨prompt, m₁, prompted, h⟩ := Run.bind_eq_ok h
  obtain ⟨taken, _⟩ := Run.takes_defaultPrompt m _ m₁ prompted
  have fewer := taken.lines.length_le
  obtain ⟨w, m₂, looked, h⟩ := Run.bind_eq_ok h
  cases looked
  obtain ⟨text, m₃, checked, h⟩ := Run.bind_eq_ok h
  obtain ⟨-, rfl⟩ := Run.ofExcept_eq_ok checked
  obtain ⟨first, m₄, taken, h⟩ := Run.bind_eq_ok h
  obtain ⟨forms, m₅, readable, h⟩ := Run.bind_eq_ok h
  obtain ⟨-, rfl⟩ := Run.ofExcept_eq_ok readable
  cases h
  rw [Run.readLine_apply] at taken
  split at taken
  next first rest found =>
    cases taken
    rw [inputLines_of_some found] at fewer
    exact fewer
  · cases taken

/-- A round takes a line at least. -/
theorem lines_of_line {fuel : Nat} {u : Unit}
    (h : line (eval Host.empty fuel) m = some (.ok u, m')) :
    (inputLines m'.world.input).length < (inputLines m.world.input).length := by
  obtain ⟨d, m₁, took, h⟩ := Run.bind_eq_ok h
  obtain ⟨v, m₂, evaluated, h⟩ := Run.bind_eq_ok h
  obtain ⟨taken, _⟩ := takes_eval fuel d m₁ _ m₂ evaluated
  cases h
  exact Nat.lt_of_le_of_lt taken.lines.length_le (lines_of_takeForm took)

/-- There are no more rounds than lines. -/
theorem lines_of_rounds {fuel n : Nat} {u : Unit}
    (h : rounds (eval Host.empty fuel) n m = some (.ok u, m')) :
    (inputLines m'.world.input).length + n ≤ (inputLines m.world.input).length := by
  induction n generalizing m with
  | zero =>
    cases h
    exact Nat.le_refl _
  | succ n ih =>
    obtain ⟨_, m₁, ran, h⟩ := Run.bind_eq_ok h
    have fewer := lines_of_line ran
    have rest := ih h
    omega

/-- A session meets the end of its input, if nothing else. -/
theorem session_ne_ok {fuel : Nat} {w : World} {u : Unit} :
    session (eval Host.empty fuel) w ≠ some (.ok u, m) := by
  intro h
  have fewer : (inputLines m.world.input).length + ((inputLines w.input).length + 1) ≤
      (inputLines w.input).length := lines_of_rounds h
  omega

/-- Any number of rounds that come to a stop come to the stop of the session. -/
theorem session_of_rounds {fuel n : Nat} {w : World} {e : Stop}
    (stopped : rounds (eval Host.empty fuel) n (start w) = some (.error e, m)) :
    session (eval Host.empty fuel) w = some (.error e, m) := by
  rcases Nat.le_total n ((inputLines w.input).length + 1) with less | more
  · exact rounds_of_stopped less stopped
  · obtain ⟨k, rfl⟩ := Nat.exists_eq_add_of_le more
    rw [rounds_add, Run.bind_apply] at stopped
    split at stopped
    · cases stopped
    next ended => exact absurd ended session_ne_ok
    next ended =>
      cases stopped
      exact ended

end Rounds

/-- The names that the loop calls mean what they do by default. -/
structure Resolves (env : Env) : Prop where
  truth : env.lookup ['t'] = .ok .truth
  print : env.lookup "print".toList = .ok (.native (.builtin .print))
  evaluate : env.lookup "eval".toList = .ok (.native (.builtin .evaluate))
  read : env.lookup "read".toList = .ok (.native (.builtin .read))

theorem lookup_congr {a b : Env} {x : Text} (same : a.find? x = b.find? x) :
    a.lookup x = b.lookup x := by
  rw [Env.lookup, Env.lookup, same]

theorem resolves_of_same {env : Env} {w : World}
    (same : ∀ x ∈ loopNames, env.find? x = (start w).env.find? x) : Resolves env where
  truth := (lookup_congr (same _ (by simp [loopNames]))).trans rfl
  print := (lookup_congr (same _ (by simp [loopNames]))).trans rfl
  evaluate := (lookup_congr (same _ (by simp [loopNames]))).trans rfl
  read := (lookup_congr (same _ (by simp [loopNames]))).trans rfl

section Loop

variable {m : Machine} {fuel : Nat}

/-- The form that reads, the one that evaluates what it reads, and the one that prints the
value. -/
def readForm : Datum := .ofList [.symbol "read".toList]

def evalForm : Datum := .ofList [.symbol "eval".toList, readForm]

def printForm : Datum := .ofList [.symbol "print".toList, evalForm]

def loopForm : Datum := .ofList [.symbol "while".toList, .symbol ['t'], printForm]

theorem eval_symbol {name : Text} {v : Datum} (bound : m.env.lookup name = .ok v) :
    eval Host.empty (fuel + 1) (.symbol name) m = some (.ok v, m) := by
  change Run.ofExcept (m.env.lookup name) m = _
  rw [bound]
  rfl

/-- A call of a builtin by a name that is bound to it. -/
theorem eval_named {name : Text} {b : Builtin} (bound : m.env.lookup name =
    .ok (.native (.builtin b))) (args : Datum) :
    eval Host.empty (fuel + 2) (.pair (.symbol name) args) m =
      Run.mapFault .escaping (b.run (eval Host.empty (fuel + 1)) (fuel + 1) args) m :=
  eval_of_callee (eval_symbol bound) rfl

theorem alike_readForm (resolves : Resolves m.env) :
    Run.Alike Eq (eval Host.empty (fuel + 2) readForm m) (takeForm m) := by
  have call : eval Host.empty (fuel + 2) readForm m = Run.mapFault .escaping takeForm m :=
    eval_named resolves.read .nil
  rw [call]
  exact (Run.alike_refl (fun _ => rfl) _).escaping

theorem alike_evalForm (resolves : Resolves m.env) :
    Run.Alike Eq (eval Host.empty (fuel + 3) evalForm m)
      ((takeForm >>= eval Host.empty (fuel + 2)) m) := by
  have single : Forms.evaluate (eval Host.empty (fuel + 2)) (.ofList [readForm]) =
      eval Host.empty (fuel + 2) readForm >>= eval Host.empty (fuel + 2) := by
    rw [evaluate_ofList _ (by simp), Arguments.values, Run.bind_assoc]
    rfl
  have call : eval Host.empty (fuel + 3) evalForm m = Run.mapFault .escaping
      (eval Host.empty (fuel + 2) readForm >>= eval Host.empty (fuel + 2)) m := by
    rw [← single]
    exact eval_named resolves.evaluate _
  rw [call]
  refine Run.Alike.escaping ((alike_readForm resolves).bind (fun _ _ same => same) ?_)
  rintro d k _ rfl _ _
  exact Run.alike_refl (fun _ => rfl) _

/-- The body of the loop is a round, up to the layers around a fault. -/
theorem alike_printForm (resolves : Resolves m.env) :
    Run.Alike Eq (eval Host.empty (fuel + 4) printForm m)
      ((line (eval Host.empty (fuel + 2)) >>= fun _ => pure .nil) m) := by
  have call : eval Host.empty (fuel + 4) printForm m =
      Run.mapFault .escaping (Console.print (eval Host.empty (fuel + 3)) (.ofList [evalForm])) m :=
    eval_named resolves.print _
  rw [call, line, ← Run.bind_assoc, Run.bind_assoc, Console.print, one_ofList]
  refine Run.Alike.escaping ((alike_evalForm resolves).bind (fun _ _ same => same) ?_)
  rintro v k _ rfl _ _
  exact Run.alike_refl (fun _ => rfl) _

theorem loop_of_true {ev : Evaluator} {cond : Datum} {forms : List Datum} {v : Datum}
    (holds : ev cond m = some (.ok v, m)) (some : v.isTrue = true) (n : Nat) :
    Forms.loop ev cond forms (n + 1) m =
      (Arguments.sequence ev forms >>= fun _ => Forms.loop ev cond forms n) m := by
  rw [Forms.loop, Run.bind_of_ok holds, if_pos some]

/-- The loop goes through rounds until they stop or the fuel is spent. -/
theorem alike_loop (fuel n : Nat)
    (steady : ∀ k m', rounds (eval Host.empty (fuel + 2)) k m = some (.ok (), m') →
      Resolves m'.env) :
    Run.Alike Eq ((Forms.loop (eval Host.empty (fuel + 4)) (.symbol ['t']) [printForm] n >>=
      fun _ => pure Datum.nil) m)
      ((rounds (eval Host.empty (fuel + 2)) n >>= fun _ => Run.outOfFuel) m) := by
  induction n generalizing m with
  | zero => exact .outOfFuel
  | succ n ih =>
    have resolves : Resolves m.env := steady 0 m rfl
    have holds : eval Host.empty (fuel + 4) (.symbol ['t']) m = some (.ok .truth, m) :=
      eval_symbol resolves.truth
    have apart : (rounds (eval Host.empty (fuel + 2)) (n + 1) >>= fun _ => Run.outOfFuel) =
        (line (eval Host.empty (fuel + 2)) >>= fun _ => pure Datum.nil) >>= fun _ =>
          rounds (eval Host.empty (fuel + 2)) n >>= fun _ => (Run.outOfFuel : Run Datum) := by
      rw [rounds, Run.bind_assoc, Run.bind_assoc]
      rfl
    rw [Run.bind_apply, loop_of_true holds rfl, ← Run.bind_apply, Run.bind_assoc, apart]
    refine (alike_printForm resolves).bind (fun _ _ same => same) ?_
    rintro v k _ rfl _ ran
    obtain ⟨_, k', ran, same⟩ := Run.bind_eq_ok ran
    cases same
    refine ih fun count m' later => steady (count + 1) m' ?_
    rw [rounds, Run.bind_of_ok ran]
    exact later

end Loop

section Program

variable {w : World} {fuel : Nat}

theorem register_append (es es' : List (Text × Datum)) :
    Interpreter.register (es ++ es') =
      Interpreter.register es >>= fun _ => Interpreter.register es' := by
  induction es with
  | nil => rfl
  | cons e es ih =>
    rw [List.cons_append, Interpreter.register, Interpreter.register, ih, Run.bind_assoc]

/-- Different names that are new are all bound. -/
theorem register_new {es : List (Text × Datum)} {frames : List Bindings} {globals : Bindings}
    (different : (es.map (·.1)).Nodup) (new : ∀ e ∈ es, globals.holds e.1 = false) :
    Interpreter.register es ⟨⟨frames, globals⟩, w⟩ =
      some (.ok (), ⟨⟨frames, globals.putAll es⟩, w⟩) := by
  induction es generalizing globals with
  | nil => rfl
  | cons e es ih =>
    obtain ⟨name, value⟩ := e
    rw [List.map_cons, List.nodup_cons] at different
    have unbound : globals.holds name = false := new _ List.mem_cons_self
    have bound : Env.bindGlobal ⟨frames, globals⟩ name value =
        .ok ⟨frames, globals.put name value⟩ := by
      rw [Env.bindGlobal, unbound]
      rfl
    rw [Interpreter.register, Run.bind_of_ok (Run.bindGlobal_of_ok bound)]
    refine ih different.2 fun e mem => ?_
    have other : e.1 ≠ name := fun same => different.1 (List.mem_map.mpr ⟨e, mem, same⟩)
    rw [Bindings.holds, Bindings.find?_put, if_neg other]
    exact new e (List.mem_cons_of_mem _ mem)

/-- The machine on which the loop is evaluated. -/
def registered (w : World) : Machine :=
  ⟨.fresh Interpreter.defaultGlobals,
    w.note .interpreter "registering default environments".toList⟩

theorem nodup_defaultNames : ((Interpreter.standardNames ++ Interpreter.mathsNames ++
    Interpreter.systemNames).map (·.1)).Nodup := by decide +kernel

theorem registerDefaults_fresh :
    Interpreter.registerDefaults ⟨.fresh .empty, w⟩ = some (.ok (), registered w) := by
  have all : Interpreter.register (Interpreter.standardNames ++ Interpreter.mathsNames ++
      Interpreter.systemNames) ⟨.fresh .empty, (registered w).world⟩ =
      some (.ok (), ⟨.fresh Interpreter.defaultGlobals, (registered w).world⟩) :=
    register_new nodup_defaultNames fun _ _ => rfl
  have noted : Run.note .interpreter "registering default environments".toList
      ⟨.fresh .empty, w⟩ = some (.ok (), ⟨.fresh .empty, (registered w).world⟩) := rfl
  rw [register_append, register_append, Run.bind_assoc] at all
  rw [Interpreter.registerDefaults, Run.bind_of_ok noted]
  exact all

theorem read_loopProgram : FexprLisp.read loopProgram = .ok [loopForm] := by
  have lexed : lex loopProgram = ⟨[.opening, ⟨.atom, "while".toList⟩, ⟨.atom, ['t']⟩, .opening,
      ⟨.atom, "print".toList⟩, .opening, ⟨.atom, "eval".toList⟩, .opening,
      ⟨.atom, "read".toList⟩, .closing, .closing, .closing, .closing], false⟩ := by cbv
  rw [FexprLisp.read, readForms, lexed]
  rfl

theorem program_none : program Host.empty fuel none ⟨.fresh .empty, w⟩ =
    eval Host.empty fuel loopForm (registered w) := by
  have looked : Run.world ⟨.fresh .empty, w⟩ = some (.ok w, ⟨.fresh .empty, w⟩) := rfl
  rw [program, Run.bind_of_ok looked]
  dsimp only
  rw [Run.bind_of_ok (Run.pure_apply _ _), Run.bind_of_ok registerDefaults_fresh,
    Interpreter.evalText, read_loopProgram]
  rfl

theorem run_nil : CommandLine.run Host.empty fuel [] w =
    (eval Host.empty fuel loopForm (registered w)).map fun p =>
      CommandLine.ending p.1 p.2.world := by
  rw [← program_none, CommandLine.run]
  exact Option.map_map _ _ _

/-- The program that runs without a file goes through rounds on the machine that a session starts
on, until they stop or the fuel is spent. -/
theorem alike_loopForm (fuel : Nat) (steady : Steady w) :
    Run.Alike (fun m n => m.world = n.world) (eval Host.empty (fuel + 5) loopForm (registered w))
      ((rounds (eval Host.empty (fuel + 2)) (fuel + 4) >>= fun _ => (Run.outOfFuel : Run Datum))
        (start w)) := by
  have call : eval Host.empty (fuel + 5) loopForm (registered w) = looping
      (Forms.loop (eval Host.empty (fuel + 4)) (.symbol ['t']) [printForm] (fuel + 4))
      (registered w) := by
    have bound : (registered w).env.lookup "while".toList =
        .ok (.native (.builtin .whileLoop)) := rfl
    rw [← whileLoop_ofList]
    exact eval_named bound _
  have pushed : { registered w with env := (registered w).env.push } = start w := rfl
  have loops := alike_loop (m := start w) fuel (fuel + 4) fun k m ran =>
    resolves_of_same (steady _ k m ran)
  rw [call, looping]
  refine Run.Alike.escaping ?_
  rw [Run.inScope_apply, pushed]
  generalize (Forms.loop _ _ _ _ >>= fun _ => pure Datum.nil) (start w) = o at loops ⊢
  generalize (rounds _ _ >>= fun _ => Run.outOfFuel) (start w) = p at loops ⊢
  cases loops with
  | outOfFuel => exact .outOfFuel
  | ends same machines =>
    subst machines
    exact .ends same rfl

/-- The layers around a fault make no difference to the process. -/
theorem ending_of_same {r : Except Stop Datum} {e : Stop} (same : Run.SameResult r (.error e))
    (w : World) : CommandLine.ending r w = ending e w := by
  cases same with
  | error same =>
    cases same with
    | same e => cases e <;> simp [CommandLine.ending, conclude, ending]
    | fault root message => simp [CommandLine.ending, conclude, ending, message]

/-- An input of one line with a quotation on it. -/
def quoting : World := { emptyMachine.world with input := "'a\n".toList }

theorem inputLines_quoting : inputLines quoting.input = [['\'', 'a']] := by
  have first : nextLine? quoting.input = some (['\'', 'a'], []) := rfl
  rw [inputLines_of_some first, inputLines_of_none rfl]

/-- The machine when its line has been read. -/
def asked : Machine :=
  ⟨(start quoting).env, { (start quoting).world with input := [], output := "> ".toList }⟩

/-- The machine when the line has been answered. -/
def answered : Machine := { asked with world := asked.world.write "a\n".toList }

theorem takeForm_quoting :
    takeForm (start quoting) = some (.ok (.quoted (.symbol ['a'])), asked) := by
  have lexed : lex ['\'', 'a'] = ⟨[.mark, ⟨.atom, ['a']⟩], false⟩ := by cbv
  have readable : FexprLisp.read ['\'', 'a'] = .ok [.quoted (.symbol ['a'])] := by
    rw [FexprLisp.read, readForms, lexed]
    rfl
  calc
    _ = (Run.ofExcept (FexprLisp.read ['\'', 'a']) >>= fun forms => pure (forms.headD .nil))
        asked := rfl
    _ = _ := by
      rw [readable]
      rfl

theorem rounds_quoting (fuel n : Nat) : rounds (eval Host.empty (fuel + 1)) (n + 1) (start quoting) =
    rounds (eval Host.empty (fuel + 1)) n answered := by
  rw [rounds, line, Run.bind_assoc, Run.bind_of_ok takeForm_quoting]
  rfl

theorem steady_quoting : Steady quoting := by
  intro fuel n m ran x _
  have few : (inputLines m.world.input).length + n ≤ (inputLines quoting.input).length :=
    lines_of_rounds ran
  rw [inputLines_quoting, List.length_singleton] at few
  cases n with
  | zero =>
    cases ran
    rfl
  | succ n =>
    obtain rfl : n = 0 := by omega
    have enough := rounds_mono (Nat.le_succ fuel) ran
    rw [rounds_quoting] at enough
    cases enough
    rfl

end Program

end Dialogue

end FexprLisp
