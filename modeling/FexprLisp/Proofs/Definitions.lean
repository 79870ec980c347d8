import FexprLisp.Proofs.Causes
import FexprLisp.Proofs.Constancy

/-!
# Definitions of functions

A function is defined under a global name by a form of its own, or by a definition whose value is a
call of the form that makes functions. The first splits its arguments by hand, the second goes
through the evaluator and puts a layer more around a complaint. They come to the same all the same:
either both bind the name to the same function, or both are refused for the same cause and change
nothing.
-/

namespace FexprLisp

/-- `(defunc x . rest)`, with the function itself at its head. -/
def defuncForm (x : Text) (rest : Datum) : Datum :=
  .pair (.native (.builtin .defunc)) (.pair (.symbol x) rest)

/-- `(func . rest)`. -/
def funcForm (rest : Datum) : Datum := .pair (.native (.builtin .func)) rest

/-- `(def x value)`. -/
def defineForm (x : Text) (value : Datum) : Datum :=
  .pair (.native (.builtin .define)) (.ofList [.symbol x, value])

/-- A list of parameters and a body, as arguments. -/
def signature (params : List Text) (body : List Datum) : Datum :=
  .ofList (.ofList (params.map .symbol) :: body)

/-! ### What makes a function -/

theorem ofList_of_parameters {d : Datum} {names : List Text}
    (h : Forms.parameters d = .ok names) : d = .ofList (names.map .symbol) := by
  induction d generalizing names with
  | nil =>
    cases h
    rfl
  | pair p rest _ ih =>
    cases p with
    | symbol name =>
      rw [Forms.parameters] at h
      cases tail : Forms.parameters rest with
      | error f =>
        rw [tail] at h
        cases h
      | ok names' =>
        rw [tail] at h
        cases h
        rw [ih tail]
        rfl
    | _ => cases h
  | _ => cases h

theorem ofList_of_makeFunction {p d : Datum} {body : List Datum}
    (h : Forms.makeFunction p body = .ok d) :
    ∃ params : List Text, p = .ofList (params.map .symbol) := by
  cases names : Forms.parameters p with
  | ok params => exact ⟨params, ofList_of_parameters names⟩
  | error f =>
    cases p with
    | nil => cases names
    | pair _ _ =>
      rw [Forms.makeFunction, names] at h
      cases h
    | _ => cases h

/-- Arguments are a signature and make its function, or they are none and there is a complaint. -/
theorem func_cases (args : Datum) :
    (∃ params body, args = signature params body ∧
      Forms.func args = pure (.func params body)) ∨
    ((∀ params body, args ≠ signature params body) ∧ ∃ f, Forms.func args = Run.fail f) := by
  by_cases formed : ∃ params body, args = signature params body
  · obtain ⟨params, body, rfl⟩ := formed
    exact Or.inl ⟨params, body, rfl, func_ofList params body⟩
  · refine Or.inr ⟨fun params body same => formed ⟨params, body, same⟩, ?_⟩
    cases items : Arguments.split args 1 none with
    | error f => exact ⟨f, by rw [Forms.func, Arguments.oneAndRest, items]; rfl⟩
    | ok ds =>
      obtain ⟨rfl, enough, _⟩ := split_eq_ok items
      cases ds with
      | nil => cases enough
      | cons p body =>
        rw [Forms.func, oneAndRest_ofList]
        cases function : Forms.makeFunction p body with
        | error f => exact ⟨f, congrArg Run.ofExcept function⟩
        | ok d =>
          obtain ⟨params, rfl⟩ := ofList_of_makeFunction function
          exact absurd ⟨params, body, rfl⟩ formed

/-! ### What binds it -/

variable {host : Host} {fuel : Nat} {x : Text} {rest v : Datum} {m : Machine} {f : Fault}

theorem bindGlobal_of_free (free : x ∉ m.env.globals.names) : Forms.bindGlobal x v m =
    some (.ok (), { m with env := { m.env with globals := m.env.globals.put x v } }) := by
  have unheld : ¬ m.env.globals.holds x = true := mt (Bindings.holds_iff _ _).mp free
  exact Run.bindGlobal_of_ok (by rw [Env.bindGlobal, if_neg unheld])

theorem eval_defuncForm : eval host (fuel + 3) (defuncForm x rest) =
    .mapFault .escaping (Forms.func rest >>= fun v => Forms.bindGlobal x v >>= fun _ => pure .nil) :=
  rfl

/-- The value of the definition is a call, with a layer of its own. -/
theorem eval_defineForm : eval host (fuel + 3) (defineForm x (funcForm rest)) =
    .mapFault .escaping (.mapFault .escaping (Forms.func rest) >>= fun v =>
      Forms.bindGlobal x v >>= fun _ => pure .nil) :=
  rfl

theorem alike_defuncForm (host : Host) (fuel : Nat) (x : Text) (rest : Datum) (m : Machine) :
    Run.Alike Eq (eval host (fuel + 3) (defuncForm x rest) m)
      (eval host (fuel + 3) (defineForm x (funcForm rest)) m) := by
  rw [eval_defuncForm, eval_defineForm]
  refine Run.Alike.escaping (Run.Alike.escaping_right ?_)
  refine Run.Alike.bind (Run.alike_refl (fun _ => rfl) _).escaping_right (fun _ _ same => same) ?_
  rintro v k _ rfl _ _
  exact Run.alike_refl (fun _ => rfl) _

theorem eval_defuncForm_of_free (host : Host) (fuel : Nat) (params : List Text) (body : List Datum)
    (free : x ∉ m.env.globals.names) :
    eval host (fuel + 3) (defuncForm x (signature params body)) m = some (.ok .nil,
      { m with env := { m.env with globals := m.env.globals.put x (.func params body) } }) := by
  have made : Forms.func (signature params body) m = some (.ok (.func params body), m) :=
    congrFun (func_ofList params body) m
  rw [eval_defuncForm, Run.mapFault, Run.bind_of_ok made, Run.bind_of_ok (bindGlobal_of_free free)]
  rfl

theorem eval_defuncForm_of_taken (host : Host) (fuel : Nat) (params : List Text) (body : List Datum)
    (taken : x ∈ m.env.globals.names) :
    eval host (fuel + 3) (defuncForm x (signature params body)) m =
      some (.error (.fault (.wrap (.unevaluable (.globalExists x)))), m) := by
  have made : Forms.func (signature params body) m = some (.ok (.func params body), m) :=
    congrFun (func_ofList params body) m
  have function : eval host (fuel + 2) (.native (.builtin .defunc)) m =
      some (.ok (.native (.builtin .defunc)), m) := rfl
  have found : Eval.callee host (fuel + 2) (.builtin .defunc) = some fun _ => Forms.defunc := rfl
  exact eval_of_callee_stops function found (defunc_of_taken taken made)

theorem eval_defuncForm_of_fail (host : Host) (fuel : Nat) (x : Text) (m : Machine)
    (fails : Forms.func rest = Run.fail f) :
    eval host (fuel + 3) (defuncForm x rest) m = some (.error (.fault f.escaping), m) := by
  rw [eval_defuncForm, fails]
  rfl

/-- Both forms end, on the same machine. They bind a signature's function to a name that is free; for
anything else they are refused, for one cause and with one message, and nothing has changed. -/
theorem defunc_is_define_of_func (host : Host) (fuel : Nat) (x : Text) (rest : Datum) (m : Machine) :
    ∃ r s m', eval host (fuel + 3) (defuncForm x rest) m = some (r, m') ∧
      eval host (fuel + 3) (defineForm x (funcForm rest)) m = some (s, m') ∧
      ((∃ params body, rest = signature params body ∧ x ∉ m.env.globals.names ∧
          r = .ok .nil ∧ s = .ok .nil ∧ m' = { m with
            env := { m.env with globals := m.env.globals.put x (.func params body) } }) ∨
        (((∀ params body, rest ≠ signature params body) ∨ x ∈ m.env.globals.names) ∧
          ∃ f g, r = .error (.fault f) ∧ s = .error (.fault g) ∧
            f.root = g.root ∧ f.message = g.message ∧ m' = m)) := by
  have alike := alike_defuncForm host fuel x rest m
  have refused {f : Fault}
      (ends : eval host (fuel + 3) (defuncForm x rest) m = some (.error (.fault f), m)) :
      ∃ g, eval host (fuel + 3) (defineForm x (funcForm rest)) m = some (.error (.fault g), m) ∧
        f.root = g.root ∧ f.message = g.message := by
    rw [ends] at alike
    obtain ⟨s, ends', same⟩ := alike.of_first
    cases same with
    | error same =>
      cases same with
      | same _ => exact ⟨f, ends', rfl, rfl⟩
      | fault root message => exact ⟨_, ends', root, message⟩
  rcases func_cases rest with ⟨params, body, rfl, _⟩ | ⟨unformed, f, fails⟩
  · by_cases taken : x ∈ m.env.globals.names
    · have ends := eval_defuncForm_of_taken host fuel params body taken
      obtain ⟨g, ends', root, message⟩ := refused ends
      exact ⟨_, _, m, ends, ends', Or.inr ⟨Or.inr taken, _, g, rfl, rfl, root, message, rfl⟩⟩
    · have ends := eval_defuncForm_of_free host fuel params body taken
      rw [ends] at alike
      obtain ⟨s, ends', same⟩ := alike.of_first
      cases same with
      | ok value =>
        exact ⟨_, _, _, ends, ends', Or.inl ⟨params, body, rfl, taken, rfl, by rw [value], rfl⟩⟩
  · have ends := eval_defuncForm_of_fail host fuel x m fails
    obtain ⟨g, ends', root, message⟩ := refused ends
    exact ⟨_, _, m, ends, ends', Or.inr ⟨Or.inl unformed, _, g, rfl, rfl, root, message, rfl⟩⟩

end FexprLisp
