import FexprLisp.Env

/-!
# Stacks of frames

Which names a stack binds, and how the bindings of a run change it. An environment grows if its
outer frames keep their names and the innermost one is only given names that were bound nowhere; a
frame that is pushed and popped around such a change leaves every name where it was.
-/

namespace FexprLisp

namespace Bindings

theorem holds_iff (b : Bindings) (x : Text) : b.holds x = true ↔ x ∈ b.names := by
  obtain ⟨entries⟩ := b
  induction entries with
  | nil => simp [holds, find?, names]
  | cons e es ih =>
    obtain ⟨key, value⟩ := e
    by_cases h : x = key
    · simp [holds, find?, names, h]
    · simp only [holds, find?, names] at ih
      simp [holds, find?, names, List.lookup_cons, beq_false_of_ne h, h, ih]

theorem not_mem_names {b : Bindings} {x : Text} (h : b.holds x = false) : x ∉ b.names := by
  intro mem
  rw [(b.holds_iff x).mpr mem] at h
  cases h

theorem find?_of_not_holds {b : Bindings} {x : Text} (h : ¬ b.holds x = true) :
    b.find? x = none := by
  simpa [holds] using h

/-- A name that is bound keeps its place. -/
theorem names_put_of_mem {b : Bindings} {x : Text} (h : x ∈ b.names) (v : Datum) :
    (b.put x v).names = b.names := by
  obtain ⟨entries⟩ := b
  simp only [names, put] at h ⊢
  induction entries with
  | nil => cases h
  | cons e es ih =>
    by_cases same : x = e.1
    · simp [putEntry, same]
    · have rest : x ∈ es.map (·.1) := (List.mem_cons.mp h).resolve_left same
      simp [putEntry, same, ih rest]

/-- A new name goes to the end. -/
theorem names_put_of_not_mem {b : Bindings} {x : Text} (h : x ∉ b.names) (v : Datum) :
    (b.put x v).names = b.names ++ [x] := by
  obtain ⟨entries⟩ := b
  simp only [names, put] at h ⊢
  induction entries with
  | nil => rfl
  | cons e es ih =>
    have other : x ≠ e.1 := fun same => h (same ▸ List.mem_cons_self)
    have rest : x ∉ es.map (·.1) := fun mem => h (List.mem_cons_of_mem _ mem)
    simp [putEntry, other, ih rest]

theorem names_prefix_put (b : Bindings) (x : Text) (v : Datum) :
    b.names <+: (b.put x v).names := by
  by_cases h : x ∈ b.names
  · exact (names_put_of_mem h v).symm ▸ List.prefix_refl _
  · rw [names_put_of_not_mem h]
    exact List.prefix_append _ _

end Bindings

namespace Env

theorem local?_cons (f : Bindings) (fs : List Bindings) (x : Text) :
    local? (f :: fs) x = (f.find? x).or (local? fs x) := by
  rw [local?, List.findSome?_cons]
  cases f.find? x <;> rfl

theorem local?_append (inner outer : List Bindings) (x : Text) :
    local? (inner ++ outer) x = (local? inner x).or (local? outer x) := List.findSome?_append

theorem local?_isSome (frames : List Bindings) (x : Text) :
    (local? frames x).isSome = true ↔ ∃ f ∈ frames, x ∈ f.names := by
  induction frames with
  | nil => simp [local?]
  | cons f fs ih =>
    rw [local?_cons, Option.isSome_or, Bool.or_eq_true, ih, ← Bindings.holds, Bindings.holds_iff]
    simp

theorem isBound_iff (env : Env) (x : Text) :
    env.isBound x = true ↔ (∃ f ∈ env.frames, x ∈ f.names) ∨ x ∈ env.globals.names := by
  rw [← local?_isSome, ← Bindings.holds_iff]
  simp [isBound, find?, Bindings.holds]

theorem not_mem_of_unbound {env : Env} {x : Text} (h : env.isBound x = false) :
    (∀ f ∈ env.frames, x ∉ f.names) ∧ x ∉ env.globals.names := by
  have nowhere := mt (env.isBound_iff x).mpr (Bool.eq_false_iff.mp h)
  exact ⟨fun f hf mem => nowhere (Or.inl ⟨f, hf, mem⟩), fun mem => nowhere (Or.inr mem)⟩

/-- The frames after a run, and before. The names that are new to the innermost one were `fresh`. -/
inductive Grown (fresh : Text → Prop) : List Bindings → List Bindings → Prop
  | none : Grown fresh [] []
  | inner {f g : Bindings} {fs gs : List Bindings} (added : List Text) :
      g.names = f.names ++ added → (∀ x ∈ added, fresh x) →
        gs.map Bindings.names = fs.map Bindings.names → Grown fresh (f :: fs) (g :: gs)

/-- What evaluation may make of an environment. -/
structure Grows (a b : Env) : Prop where
  frames : Grown (fun x => a.isBound x = false) a.frames b.frames
  globals : a.globals.names <+: b.globals.names

theorem Grown.of_names {fresh : Text → Prop} {fs gs : List Bindings}
    (same : gs.map Bindings.names = fs.map Bindings.names) : Grown fresh fs gs := by
  cases fs with
  | nil =>
    rw [List.map_eq_nil_iff.mp same]
    exact .none
  | cons f fs =>
    cases gs with
    | nil => cases same
    | cons g gs =>
      obtain ⟨head, tail⟩ := List.cons.inj same
      exact .inner [] (by rw [List.append_nil, head]) (by simp) tail

theorem Grown.length {fresh : Text → Prop} {fs gs : List Bindings} (grown : Grown fresh fs gs) :
    gs.length = fs.length := by
  cases grown with
  | none => rfl
  | @inner f g fs gs _ _ _ tail =>
    have outer := congrArg List.length tail
    rw [List.length_map, List.length_map] at outer
    rw [List.length_cons, List.length_cons, outer]

theorem Grows.refl (a : Env) : Grows a a := ⟨.of_names rfl, List.prefix_refl _⟩

theorem eq_nil_iff_of_names {fs gs : List Bindings}
    (same : gs.map Bindings.names = fs.map Bindings.names) : gs = [] ↔ fs = [] := by
  rw [← List.map_eq_nil_iff (f := Bindings.names), same, List.map_eq_nil_iff]

theorem exists_mem_of_names {fs gs : List Bindings}
    (same : gs.map Bindings.names = fs.map Bindings.names) {x : Text}
    (h : ∃ f ∈ fs, x ∈ f.names) : ∃ g ∈ gs, x ∈ g.names := by
  obtain ⟨f, hf, hx⟩ := h
  have mem : f.names ∈ gs.map Bindings.names := same ▸ List.mem_map_of_mem hf
  obtain ⟨g, hg, names⟩ := List.mem_map.mp mem
  exact ⟨g, hg, names ▸ hx⟩

/-- What was bound stays bound. -/
theorem Grows.isBound {a b : Env} (grows : Grows a b) {x : Text} (h : a.isBound x = true) :
    b.isBound x = true := by
  rw [isBound_iff] at h ⊢
  rcases h with h | h
  · left
    have frames := grows.frames
    revert frames h
    generalize a.frames = fs
    generalize b.frames = gs
    intro h frames
    cases frames with
    | none => exact h
    | inner added head _ tail =>
      obtain ⟨f, hf, hx⟩ := h
      rcases List.mem_cons.mp hf with rfl | hf
      · exact ⟨_, List.mem_cons_self, by rw [head]; exact List.mem_append_left _ hx⟩
      · obtain ⟨g, hg, hx⟩ := exists_mem_of_names tail ⟨f, hf, hx⟩
        exact ⟨g, List.mem_cons_of_mem _ hg, hx⟩
  · exact Or.inr (grows.globals.subset h)

theorem Grows.unbound {a b : Env} (grows : Grows a b) {x : Text} (h : b.isBound x = false) :
    a.isBound x = false := by
  cases bound : a.isBound x with
  | false => rfl
  | true => rw [grows.isBound bound] at h; cases h

theorem Grown.trans {fresh later : Text → Prop} (sooner : ∀ x, later x → fresh x)
    {fs gs hs : List Bindings} (first : Grown fresh fs gs) (second : Grown later gs hs) :
    Grown fresh fs hs := by
  cases first with
  | none => cases second; exact .none
  | inner added head new tail =>
    cases second with
    | inner added' head' new' tail' =>
      refine .inner (added ++ added') (by rw [head', head, List.append_assoc]) ?_ (tail'.trans tail)
      intro x hx
      rcases List.mem_append.mp hx with hx | hx
      · exact new x hx
      · exact sooner x (new' x hx)

theorem Grows.trans {a b c : Env} (first : Grows a b) (second : Grows b c) : Grows a c :=
  ⟨first.frames.trans (fun _ => first.unbound) second.frames, first.globals.trans second.globals⟩

theorem grows_bindGlobal {a b : Env} {x : Text} {v : Datum} (h : a.bindGlobal x v = .ok b) :
    Grows a b := by
  rw [bindGlobal] at h
  split at h
  · cases h
  · cases h
    exact ⟨.of_names rfl, Bindings.names_prefix_put _ _ _⟩

theorem names_assignLocal {x : Text} {v : Datum} {fs gs : List Bindings}
    (h : assignLocal? x v fs = some gs) : gs.map Bindings.names = fs.map Bindings.names := by
  induction fs generalizing gs with
  | nil => cases h
  | cons f fs ih =>
    rw [assignLocal?] at h
    split at h
    next held =>
      cases h
      simp [Bindings.names_put_of_mem ((f.holds_iff x).mp held)]
    · obtain ⟨gs, hgs, rfl⟩ := Option.map_eq_some_iff.mp h
      simp [ih hgs]

theorem local?_of_assignLocal_none {x : Text} {v : Datum} {fs : List Bindings}
    (h : assignLocal? x v fs = none) : local? fs x = none := by
  induction fs with
  | nil => rfl
  | cons f fs ih =>
    rw [assignLocal?] at h
    split at h
    · cases h
    next held =>
      have rest := ih (Option.map_eq_none_iff.mp h)
      rw [local?_cons, Bindings.find?_of_not_holds held, rest]
      rfl

theorem local?_cons_put (f : Bindings) (fs : List Bindings) (x y : Text) (v : Datum) :
    local? (f.put x v :: fs) y = if y = x then some v else local? (f :: fs) y := by
  rw [local?_cons, local?_cons, Bindings.find?_put]
  by_cases h : y = x <;> simp [h]

/-- An assignment to a local changes what that name shows and nothing else. -/
theorem local?_of_assignLocal {x : Text} {v : Datum} {fs gs : List Bindings}
    (h : assignLocal? x v fs = some gs) (y : Text) :
    local? gs y = if y = x then some v else local? fs y := by
  induction fs generalizing gs with
  | nil => cases h
  | cons f fs ih =>
    rw [assignLocal?] at h
    split at h
    · cases h
      exact local?_cons_put f fs x y v
    next held =>
      obtain ⟨gs, hgs, rfl⟩ := Option.map_eq_some_iff.mp h
      have rest := ih hgs
      have missing := Bindings.find?_of_not_holds held
      rw [local?_cons, local?_cons, rest]
      by_cases same : y = x
      · rw [same, missing, if_pos rfl, if_pos rfl]
        rfl
      · rw [if_neg same, if_neg same]

theorem assignLocal_isSome (x : Text) (v : Datum) (fs : List Bindings) :
    (assignLocal? x v fs).isSome = (local? fs x).isSome := by
  cases h : assignLocal? x v fs with
  | none => rw [local?_of_assignLocal_none h]; rfl
  | some gs =>
    have bound : (local? gs x).isSome = true := by
      rw [local?_of_assignLocal h, if_pos rfl]
      rfl
    rw [local?_isSome] at bound
    exact ((local?_isSome fs x).mpr (exists_mem_of_names (names_assignLocal h).symm bound)).symm

theorem grows_assign {a b : Env} {x : Text} {v : Datum} (h : a.assign? x v = some b) :
    Grows a b := by
  rw [assign?] at h
  split at h
  next gs found =>
    cases h
    exact ⟨.of_names (names_assignLocal found), List.prefix_refl _⟩
  next notLocal =>
    split at h
    · cases h
      exact ⟨.of_names rfl, Bindings.names_prefix_put _ _ _⟩
    next notGlobal =>
      -- A name that is bound nowhere becomes a local of the innermost frame.
      have unbound : a.isBound x = false := by
        have missing := Bindings.find?_of_not_holds notGlobal
        simp [isBound, find?, local?_of_assignLocal_none notLocal, missing]
      have nowhere := (not_mem_of_unbound unbound).1
      rw [bindLocal?] at h
      split at h
      next f fs frames =>
        cases h
        refine ⟨?_, List.prefix_refl _⟩
        rw [frames] at nowhere
        rw [frames]
        have names := Bindings.names_put_of_not_mem (nowhere f List.mem_cons_self) v
        exact .inner [x] names (by simpa using unbound) rfl
      · cases h

/-- A frame that was pushed leaves nothing behind when it is popped. -/
theorem Grows.names_pop {a b : Env} (grows : Grows a.push b) :
    b.pop.frames.map Bindings.names = a.frames.map Bindings.names := by
  have frames := grows.frames
  simp only [push] at frames
  cases h : b.frames with
  | nil => rw [h] at frames; cases frames
  | cons g gs =>
    rw [h] at frames
    cases frames with
    | inner _ _ _ tail => rw [pop, h]; exact tail

theorem Grows.pop {a b : Env} (grows : Grows a.push b) : Grows a b.pop :=
  ⟨.of_names grows.names_pop, grows.globals⟩

/-- Other frames may be used for a while. -/
theorem Grows.restore {a b : Env} {frames : List Bindings}
    (grows : Grows { a with frames } b) : Grows a { b with frames := a.frames } :=
  ⟨.of_names rfl, grows.globals⟩

end Env

end FexprLisp
