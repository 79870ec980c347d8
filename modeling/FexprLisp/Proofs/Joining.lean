import FexprLisp.Proofs.RoundTrip
import FexprLisp.Proofs.Scope

/-!
# One text behind another

A newline ends the comment or the atom that a text ends in, so what is read and evaluated of two
texts with a newline between them is what is read and evaluated of the one and then of the other.
The exception is a first text that ends in a lone backslash, which would take the newline along.
-/

namespace FexprLisp

namespace Token

/-- What follows a token does not change where the gap before it ends. -/
theorem skipGap_append {s r : Text} {c : Char} (h : skipGap s = c :: r) (more : Text) :
    skipGap (s ++ more) = c :: (r ++ more) := by
  induction s using skipGap.induct (motive_1 := fun s => skipGap.skipComment s = c :: r →
    skipGap.skipComment (s ++ more) = c :: (r ++ more)) with
  | case1 h => cases h
  | case2 s ih h => exact ih h
  | case3 c' s inside ih h =>
    rw [skipGap.skipComment, if_neg inside] at h
    rw [List.cons_append, skipGap.skipComment, if_neg inside]
    exact ih h
  | case4 => cases h
  | case5 c' s blank ih =>
    rw [skipGap_blank s blank] at h
    rw [List.cons_append, skipGap_blank _ blank]
    exact ih h
  | case6 s _ ih => exact ih h
  | case7 c' s notBlank notComment =>
    have plain := Bool.eq_false_iff.mpr notBlank
    rw [skipGap_self s plain notComment] at h
    rw [List.cons_append, skipGap_self _ plain notComment, ← List.cons_append, h, List.cons_append]

/-- A text that is one gap ends in blanks or in a comment, and a newline ends the comment. -/
theorem skipGap_append_newline {s : Text} (h : skipGap s = []) (more : Text) :
    skipGap (s ++ '\n' :: more) = skipGap more := by
  induction s using skipGap.induct (motive_1 := fun s => skipGap.skipComment s = [] →
    skipGap.skipComment (s ++ '\n' :: more) = skipGap more) with
  | case1 _ => rfl
  | case2 s ih h => exact ih h
  | case3 c s inside ih h =>
    rw [skipGap.skipComment, if_neg inside] at h
    rw [List.cons_append, skipGap.skipComment, if_neg inside]
    exact ih h
  | case4 => exact skipGap_blank more isBlank_newline
  | case5 c s blank ih =>
    rw [skipGap_blank s blank] at h
    rw [List.cons_append, skipGap_blank _ blank]
    exact ih h
  | case6 s _ ih => exact ih h
  | case7 c s notBlank notComment =>
    rw [skipGap_self s (Bool.eq_false_iff.mpr notBlank) notComment] at h
    cases h

/-- A string is closed by the same quote whatever follows it. -/
theorem stringBody?_append_right {r s rest : Text} (h : stringBody? r = some (s, rest))
    (more : Text) : stringBody? (r ++ more) = some (s, rest ++ more) := by
  fun_induction stringBody? r generalizing s rest with
  | case1 => cases h
  | case2 r => cases h; rfl
  | case3 c r ih =>
    obtain ⟨⟨s', rest'⟩, hs, he⟩ := Option.map_eq_some_iff.mp h
    cases he
    simp [stringBody?, ih hs]
  | case4 => cases h
  | case5 c r notQuote notEscape notBackslash ih =>
    obtain ⟨⟨s', rest'⟩, hs, he⟩ := Option.map_eq_some_iff.mp h
    cases he
    rw [List.cons_append, stringBody?, if_neg notBackslash, ih hs]
    · rfl
    · exact notQuote
    · intro c' r' same _
      exact notBackslash same

/-- An atom goes as far as it did before, if a separator follows. A backslash that was left over
would take the first character of what follows. -/
theorem atomRun_append_right {r s rest more : Text} (h : atomRun r = (s, rest))
    (noBackslash : rest ≠ ['\\']) (ends : EndsAtom more) :
    atomRun (r ++ more) = (s, rest ++ more) := by
  fun_induction atomRun r generalizing s with
  | case1 c r s' rest' hr ih =>
    obtain ⟨rfl, rfl⟩ := Prod.mk.inj h
    simp only [List.cons_append, atomRun_escape, ih hr]
  | case2 c r notEscape stop =>
    obtain ⟨rfl, rfl⟩ := Prod.mk.inj h
    have stops : Stops c := by
      rcases stop with blank | opening | closing | rfl
      · exact Or.inl blank
      · exact Or.inr (Or.inl opening)
      · exact Or.inr (Or.inr closing)
      · cases r with
        | nil => exact absurd rfl noBackslash
        | cons c' r' => exact absurd rfl (fun h => notEscape c' r' rfl h)
    exact atomRun_stop _ stops
  | case3 c r notEscape stop s' rest' hr ih =>
    obtain ⟨rfl, rfl⟩ := Prod.mk.inj h
    have plain : ¬ Stops c := fun h => stop (by rcases h with h | h | h <;> simp [h])
    have notBackslash : c ≠ '\\' := fun h => stop (by simp [h])
    simp only [List.cons_append, atomRun_plain _ plain notBackslash, ih hr]
  | case4 =>
    obtain ⟨rfl, rfl⟩ := Prod.mk.inj h
    exact atomRun_of_endsAtom ends

/-- The first token of a text is the same when more follows, unless it is a lone backslash or one
comes right behind it. -/
theorem first?_append {c : Char} {r rest more : Text} {t : Token}
    (h : first? c r = some (t, rest)) (notBlank : isBlank c = false) (notLone : t ≠ lone)
    (noBackslash : rest ≠ ['\\']) (ends : EndsAtom more) :
    first? c (r ++ more) = some (t, rest ++ more) := by
  rw [first?] at h ⊢
  split at h
  next string =>
    obtain ⟨⟨s, rest'⟩, hs, he⟩ := Option.map_eq_some_iff.mp h
    cases he
    rw [if_pos string, stringBody?_append_right hs more]
    rfl
  next notString =>
  rw [if_neg notString]
  split at h
  next quote =>
    cases h
    rw [if_pos quote]
  next notQuote =>
  rw [if_neg notQuote]
  split at h
  next opening =>
    cases h
    rw [if_pos opening]
  next notOpening =>
  rw [if_neg notOpening]
  split at h
  next closing =>
    cases h
    rw [if_pos closing]
  next notClosing =>
  rw [if_neg notClosing]
  split at h
  next rest' run =>
    cases h
    have notStop : ¬ Stops c := by simp [Stops, notBlank, notOpening, notClosing]
    obtain ⟨rfl, rfl⟩ := eq_backslash_of_atomRun_nil run notStop
    exact absurd rfl notLone
  next s rest' nonempty run =>
    cases h
    have longer := atomRun_append_right run noBackslash ends
    rw [List.cons_append] at longer
    rw [longer]
    cases s with
    | nil => exact absurd rfl nonempty
    | cons => rfl

end Token

open Token

theorem skipGap_of_done {s : Text} (h : step s = .done) : skipGap s = [] := by
  rw [step] at h
  split at h
  next gap => exact gap
  next c r gap => split at h <;> cases h

theorem step_append {s rest more : Text} {t : Token} (h : step s = .token t rest)
    (notLone : t ≠ lone) (noBackslash : rest ≠ ['\\']) (ends : EndsAtom more) :
    step (s ++ more) = .token t (rest ++ more) := by
  obtain ⟨c, r, gap, first⟩ := step_eq_token h
  have notBlank := (skipGap_head gap).1
  have longer := first?_append first notBlank notLone noBackslash ends
  rw [step, skipGap_append gap more]
  simp only [longer]

/-- A newline keeps the tokens of two texts apart. -/
theorem lex_append_newline {a : Text} (closed : (lex a).openString = false)
    (notLone : (lex a).tokens.getLast? ≠ some .lone) (b : Text) :
    lex (a ++ '\n' :: b) = (lex b).prepend (lex a).tokens := by
  have ends : EndsAtom ('\n' :: b) := Or.inl isBlank_newline
  induction a using lex.induct with
  | case1 a done =>
    have gap := skipGap_append_newline (skipGap_of_done done) b
    rw [lex_congr gap, lex_of_done done]
    rfl
  | case2 a opened =>
    rw [lex_of_openString opened] at closed
    cases closed
  | case3 a t rest taken ih =>
    rw [lex_of_step taken] at closed notLone ⊢
    have first : t ≠ lone := by
      rintro rfl
      rw [(step_emitted taken).2 rfl, lex_nil] at notLone
      exact notLone rfl
    have next : rest ≠ ['\\'] := by
      rintro rfl
      rw [lex_lone] at notLone
      exact notLone rfl
    have last : (lex rest).tokens.getLast? ≠ some lone := by
      intro h
      refine notLone ?_
      have behind : ((lex rest).prepend [t]).tokens = [t] ++ (lex rest).tokens := rfl
      rw [behind, List.getLast?_append, h]
      rfl
    rw [lex_of_step (step_append taken first next ends), ih closed last, Lexed.prepend_prepend]
    rfl

/-- The tokens of a program are read to their end, whatever tokens come behind them. -/
theorem Reader.forms_append {program : List Tree} {ts : List Token} (derived : Program program ts)
    (lexFault : Option Fault) (us : List Token) :
    idle.forms lexFault (ts ++ us) =
      ⟨program.map Tree.datum ++ (idle.forms lexFault us).forms,
        (idle.forms lexFault us).fault⟩ := by
  induction program generalizing ts with
  | nil =>
    rw [← derived.tokens]
    rfl
  | cons d program ih =>
    have rest := ih ⟨fun d hd => derived.derives d (List.mem_cons_of_mem _ hd), rfl⟩
    have read := proceed_begin (derived.derives d List.mem_cons_self) [] lexFault
      (program.flatMap Tree.tokens ++ us)
    have tokens : d.tokens ++ program.flatMap Tree.tokens = ts := derived.tokens
    rw [← tokens, List.append_assoc, d.tokens_eq_cons, List.cons_append, forms_cons]
    refine read.trans ?_
    rw [settle, Move.proceed, rest]
    rfl

/-- A text that is read leaves no string open. -/
theorem closed_of_read {s : Text} {forms : List Datum} (h : read s = .ok forms) :
    (lex s).openString = false := by
  obtain ⟨program, derived, _⟩ := program_of_read h
  have reading := readForms_of_read h
  rw [readForms, Reader.forms_program derived] at reading
  have noFault : (lex s).fault? = none := congrArg Reader.Reading.fault reading
  cases open? : (lex s).openString with
  | false => rfl
  | true => simp [Lexed.fault?, open?] at noFault

theorem read_append {a : Text} {fs : List Datum} (h : read a = .ok fs)
    (notLone : (lex a).tokens.getLast? ≠ some .lone) (b : Text) :
    read (a ++ '\n' :: b) = (read b).map (fs ++ ·) := by
  obtain ⟨program, derived, denoted⟩ := program_of_read h
  have lexed := lex_append_newline (closed_of_read h) notLone b
  have joined : readForms (a ++ '\n' :: b) =
      ⟨fs ++ (readForms b).forms, (readForms b).fault⟩ := by
    rw [readForms, lexed, ← denoted]
    exact Reader.forms_append derived _ _
  rw [read, read, joined]
  obtain ⟨forms, fault⟩ := readForms b
  cases fault <;> rfl

open Arguments

theorem sequence_append (ev : Evaluator) (fs : List Datum) {gs : List Datum} (some : gs ≠ []) :
    sequence ev (fs ++ gs) = sequence ev fs >>= fun _ => sequence ev gs := by
  induction fs with
  | nil => rfl
  | cons f fs ih =>
    cases fs with
    | nil =>
      cases gs with
      | nil => exact absurd rfl some
      | cons g gs => rfl
    | cons f' fs =>
      have step : ∀ es, sequence ev (f :: f' :: es) = ev f >>= fun _ => sequence ev (f' :: es) :=
        fun _ => rfl
      rw [List.cons_append, List.cons_append, step, step, Run.bind_assoc, ← List.cons_append, ih]

namespace Interpreter

theorem evalText_of_ok {code : Text} {forms : List Datum} (h : FexprLisp.read code = .ok forms)
    (host : Host) (fuel : Nat) : evalText host fuel code = evalAll host fuel forms := by
  rw [evalText, h]
  rfl

/-- A text of one form is evaluated as that form. -/
theorem evalText_of_form {code : Text} {d : Datum} (h : FexprLisp.read code = .ok [d])
    (host : Host) (fuel : Nat) : evalText host fuel code = eval host fuel d :=
  evalText_of_ok h host fuel

theorem evalText_of_error {code : Text} {f : Fault} (h : FexprLisp.read code = .error f)
    (host : Host) (fuel : Nat) (m : Machine) :
    evalText host fuel code m = some (.error (.fault f), m) := by
  rw [evalText, h]
  rfl

end Interpreter

open Interpreter

/-- Of a text that is read and does not end in a lone backslash, a newline and a second text, the
forms are those of the one and then those of the other; where the second is not read, its fault is
the fault. To evaluate the whole is to evaluate the first text and then, if that ends in a value,
the second one on the machine it leaves, for the value of the last form there is. A text that is
not read leaves the machine as it was. -/
theorem evalText_append {a : Text} {fs : List Datum} (h : FexprLisp.read a = .ok fs)
    (notLone : (lex a).tokens.getLast? ≠ some .lone) (b : Text) :
    (∀ gs, FexprLisp.read b = .ok gs → FexprLisp.read (a ++ '\n' :: b) = .ok (fs ++ gs)) ∧
    (∀ f, FexprLisp.read b = .error f → FexprLisp.read (a ++ '\n' :: b) = .error f) ∧
    (∀ gs, FexprLisp.read b = .ok gs → ∀ host fuel,
      evalText host fuel (a ++ '\n' :: b) = do
        let v ← evalText host fuel a
        let w ← evalText host fuel b
        pure (if gs.isEmpty then v else w)) ∧
    ∀ f, FexprLisp.read (a ++ '\n' :: b) = .error f → ∀ host fuel m,
      evalText host fuel (a ++ '\n' :: b) m = some (.error (.fault f), m) := by
  have joined := read_append h notLone b
  refine ⟨?_, ?_, ?_, ?_⟩
  · intro gs hb
    rw [joined, hb]
    rfl
  · intro f hb
    rw [joined, hb]
    rfl
  · intro gs hb host fuel
    have whole : FexprLisp.read (a ++ '\n' :: b) = .ok (fs ++ gs) := by
      rw [joined, hb]
      rfl
    rw [evalText_of_ok whole, evalText_of_ok h, evalText_of_ok hb]
    cases gs with
    | nil =>
      rw [List.append_nil]
      exact (Run.bind_pure _).symm
    | cons g gs =>
      have split : evalAll host fuel (fs ++ g :: gs) =
          evalAll host fuel fs >>= fun _ => evalAll host fuel (g :: gs) :=
        sequence_append (eval host fuel) fs (List.cons_ne_nil g gs)
      rw [split]
      exact congrArg (evalAll host fuel fs >>= ·) (funext fun _ => (Run.bind_pure _).symm)
  · intro f hf host fuel m
    exact evalText_of_error hf host fuel m

/-- A quotation, and a comment that the text ends in. -/
def commented : Text := "'a ; )".toList

def commentedForms : List Datum := [.quoted (.symbol ['a'])]

theorem lex_commented : lex commented = ⟨[.mark, ⟨.atom, ['a']⟩], false⟩ := by
  cbv

theorem read_commented : FexprLisp.read commented = .ok commentedForms := by
  rw [FexprLisp.read, readForms, lex_commented]
  rfl

/-- Behind the comment a name that nothing binds is evaluated and found to have no value, another
quotation gives the value of the whole, and a parenthesis that closes nothing keeps the quotation
before it from being evaluated. -/
theorem evalText_append_sample :
    (FexprLisp.read commented = .ok commentedForms ∧
      (lex commented).tokens.getLast? ≠ some .lone) ∧
    (FexprLisp.read ['x'] = .ok [.symbol ['x']] ∧
      FexprLisp.read (commented ++ ['\n', 'x']) = .ok (commentedForms ++ [.symbol ['x']]) ∧
      evalText Host.empty 1 (commented ++ ['\n', 'x']) emptyMachine =
        (do
          let v ← evalText Host.empty 1 commented
          let w ← evalText Host.empty 1 ['x']
          pure (if [Datum.symbol ['x']].isEmpty then v else w) : Run Datum) emptyMachine ∧
      evalText Host.empty 1 (commented ++ ['\n', 'x']) emptyMachine =
        some (.error (.fault (.unevaluable (.unknownSymbol ['x']))), emptyMachine)) ∧
    evalText Host.empty 1 (commented ++ ['\n', '\'', 'b']) emptyMachine =
      some (.ok (.symbol ['b']), emptyMachine) ∧
    ∃ f, FexprLisp.read [')'] = .error f ∧
      FexprLisp.read (commented ++ ['\n', ')']) = .error f ∧
        evalText Host.empty 1 (commented ++ ['\n', ')']) emptyMachine =
          some (.error (.fault f), emptyMachine) := by
  have notLone : (lex commented).tokens.getLast? ≠ some .lone := by
    rw [lex_commented]
    decide
  have name : FexprLisp.read ['x'] = .ok [.symbol ['x']] := by
    have lexed : lex ['x'] = ⟨[⟨.atom, ['x']⟩], false⟩ := by cbv
    rw [FexprLisp.read, readForms, lexed]
    rfl
  have quotation : FexprLisp.read ['\'', 'b'] = .ok [.quoted (.symbol ['b'])] := by
    have lexed : lex ['\'', 'b'] = ⟨[.mark, ⟨.atom, ['b']⟩], false⟩ := by cbv
    rw [FexprLisp.read, readForms, lexed]
    rfl
  have parenthesis : FexprLisp.read [')'] = .error (.unreadable (.invalidToken [')'])) := by
    have lexed : lex [')'] = ⟨[.closing], false⟩ := by cbv
    rw [FexprLisp.read, readForms, lexed]
    rfl
  obtain ⟨reads, _, evaluates, _⟩ := evalText_append read_commented notLone ['x']
  obtain ⟨_, _, evaluatesBoth, _⟩ := evalText_append read_commented notLone ['\'', 'b']
  obtain ⟨_, faults, _, nothing⟩ := evalText_append read_commented notLone [')']
  have split := congrFun (evaluates _ name Host.empty 1) emptyMachine
  have unbound : evalText Host.empty 1 (commented ++ ['\n', 'x']) emptyMachine =
      some (.error (.fault (.unevaluable (.unknownSymbol ['x']))), emptyMachine) := by
    rw [split, evalText_of_form read_commented, evalText_of_form name]
    rfl
  have value : evalText Host.empty 1 (commented ++ ['\n', '\'', 'b']) emptyMachine =
      some (.ok (.symbol ['b']), emptyMachine) := by
    rw [evaluatesBoth _ quotation, evalText_of_form read_commented, evalText_of_form quotation]
    rfl
  exact ⟨⟨read_commented, notLone⟩, ⟨name, reads _ name, split, unbound⟩, value, _, parenthesis,
    faults _ parenthesis, nothing _ (faults _ parenthesis) Host.empty 1 emptyMachine⟩

end FexprLisp
