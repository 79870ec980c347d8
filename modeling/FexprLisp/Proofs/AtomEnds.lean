import FexprLisp.Proofs.Tiling

/-!
# Where atoms end

An atom goes on to the next blank or parenthesis or to the end of the text, so no two atoms touch
and more text can change the last token of a text at most. There is one exception, and these are
exactly the texts with it: a text that ends in a backslash right behind an atom has this backslash
as a token of its own.
-/

namespace FexprLisp

namespace Token

/-- From a text some tokens are taken and the rest is left. -/
inductive Takes : Text → List Token → Text → Prop
  | none (s : Text) : Takes s [] s
  | next {s s' rest : Text} {t : Token} {ts : List Token} : step s = .token t s' →
      Takes s' ts rest → Takes s (t :: ts) rest

/-- The text ends in a backslash right behind an atom. -/
def CutShort (s : Text) : Prop := ∃ p t, t.kind = .atom ∧ Takes s (p ++ [t]) ['\\']

/-- Behind an atom stands a blank or a parenthesis, or nothing. -/
def AtomsEnd (s : Text) : Prop :=
  ∀ p t rest, t.kind = .atom → Takes s (p ++ [t]) rest → EndsAtom rest

/-- There is something between an atom and another right after it. -/
def AtomsApart (s : Text) : Prop :=
  ∀ p t t' rest rest', t.kind = .atom → t'.kind = .atom → Takes s (p ++ [t]) rest →
    Takes s (p ++ [t, t']) rest' → rest ≠ t'.text ++ rest'

/-- If the text leaves no string open, more text behind it adds tokens and to the last token, and
changes none before that. -/
def LastGrows (s : Text) : Prop :=
  (lex s).openString = false → ∀ more p t, (lex s).tokens = p ++ [t] →
    ∃ t' q, (lex (s ++ more)).tokens = p ++ t' :: q ∧ t'.kind = t.kind ∧ t.text <+: t'.text

namespace Takes

theorem lex {s rest : Text} {ts : List Token} (taken : Takes s ts rest) :
    FexprLisp.lex s = (FexprLisp.lex rest).prepend ts := by
  induction taken with
  | none s => rfl
  | next first _ ih =>
    rw [lex_of_step first, ih, Lexed.prepend_prepend]
    rfl

theorem append {s mid rest : Text} {p q : List Token} (first : Takes s p mid)
    (second : Takes mid q rest) : Takes s (p ++ q) rest := by
  induction first with
  | none s => exact second
  | next taken _ ih => exact .next taken (ih second)

theorem split {s rest : Text} {p q : List Token} (taken : Takes s (p ++ q) rest) :
    ∃ mid, Takes s p mid ∧ Takes mid q rest := by
  induction p generalizing s with
  | nil => exact ⟨s, .none s, taken⟩
  | cons t p ih =>
    cases taken with
    | next first taken =>
      obtain ⟨mid, before, after⟩ := ih taken
      exact ⟨mid, .next first before, after⟩

theorem single_iff {s rest : Text} {t : Token} :
    Takes s [t] rest ↔ step s = .token t rest := by
  constructor
  · intro taken
    cases taken with
    | next first taken =>
      cases taken with
      | none => exact first
  · exact fun first => .next first (.none rest)

/-- The last token that is taken. -/
theorem last {s rest : Text} {p : List Token} {t : Token} (taken : Takes s (p ++ [t]) rest) :
    ∃ mid, Takes s p mid ∧ step mid = .token t rest := by
  obtain ⟨mid, before, last⟩ := taken.split
  exact ⟨mid, before, single_iff.mp last⟩

/-- It stands in front of the rest. -/
theorem text {s rest : Text} {p : List Token} {t : Token} (taken : Takes s (p ++ [t]) rest) :
    ∃ u, s = u ++ (t.text ++ rest) := by
  induction p generalizing s with
  | nil =>
    obtain ⟨u, rfl, inside, _⟩ := step_split (single_iff.mp taken)
    obtain ⟨before, rfl⟩ := inside
    exact ⟨before, List.append_assoc _ _ _⟩
  | cons first p ih =>
    cases taken with
    | next first taken =>
      obtain ⟨u, rfl, _⟩ := step_split first
      obtain ⟨u', rfl⟩ := ih taken
      exact ⟨u ++ u', (List.append_assoc _ _ _).symm⟩

/-- If it is an atom, it is bounded by what every atom is bounded by. -/
theorem bounded {s rest : Text} {p : List Token} {t : Token} (taken : Takes s (p ++ [t]) rest)
    (kind : t.kind = .atom) : EndsAtom rest ∨ rest = ['\\'] := by
  obtain ⟨mid, _, last⟩ := taken.last
  obtain ⟨_, _, _, ends, _⟩ := step_split last
  exact ends kind

theorem emitted {s rest : Text} {p : List Token} {t : Token} (taken : Takes s (p ++ [t]) rest) :
    t.Emitted := by
  obtain ⟨mid, _, last⟩ := taken.last
  exact (step_emitted last).1

theorem eq_nil_of_nil {rest : Text} {ts : List Token} (taken : Takes [] ts rest) : rest = [] := by
  cases taken with
  | none => rfl
  | next first _ => cases first

/-- Behind the backslash that ends a text nothing is left. -/
theorem of_backslash {rest : Text} {ts : List Token} (taken : Takes ['\\'] ts rest) :
    ts = [] ∧ rest = ['\\'] ∨ rest = [] := by
  cases taken with
  | none => exact Or.inl ⟨rfl, rfl⟩
  | next first taken =>
    obtain ⟨u, split, inside, _⟩ := step_split first
    have known := (step_emitted first).1.text_ne_nil
    cases u with
    | nil => exact absurd (List.suffix_nil.mp inside) known
    | cons c u =>
      have ended := (List.append_eq_nil_iff.mp (List.cons.inj split).2.symm).2
      rw [ended] at taken
      exact Or.inr taken.eq_nil_of_nil

/-- What is taken before some last part is taken again when more follows, unless the last part is
a backslash that cuts an atom short. -/
theorem append_right {s mid : Text} {p : List Token} (taken : Takes s p mid) (left : mid ≠ [])
    (notCut : mid = ['\\'] → ¬ CutShort s) (more : Text) :
    Takes (s ++ more) p (mid ++ more) := by
  induction taken with
  | none s => exact .none _
  | @next s s' rest t ts first taken ih =>
    obtain ⟨u, rfl, _, ends, instead⟩ := step_split first
    have goesOn : s' ≠ [] := by
      rintro rfl
      exact left taken.eq_nil_of_nil
    have closed : t.ClosedBy (s' ++ more) := by
      refine fun kind => ⟨?_, ?_⟩
      · have separated : EndsAtom s' := by
          refine (ends kind).resolve_right ?_
          rintro rfl
          rcases taken.of_backslash with ⟨rfl, rfl⟩ | rest
          · exact notCut rfl ⟨[], t, kind, .next first taken⟩
          · exact left rest
        cases s' with
        | nil => exact absurd rfl goesOn
        | cons c r => exact separated
      · rintro rfl
        exact absurd ((step_emitted first).2 rfl) goesOn
    have again := instead (s' ++ more) closed
    rw [List.append_assoc]
    refine .next again (ih left fun same => ?_)
    rintro ⟨p, t', kind, cut⟩
    exact notCut same ⟨t :: p, t', kind, .next first cut⟩

end Takes

/-! ### The last token of a text -/

theorem Units.append {p : Char → Prop} {a b : Text} (first : Units p a) (second : Units p b) :
    Units p (a ++ b) := by
  induction first with
  | nil => exact second
  | escape c _ ih => exact .escape c ih
  | plain inside notBackslash _ ih => exact .plain inside notBackslash ih

/-- More text can only add to a run. -/
theorem atomRun_prefix (r more : Text) : (atomRun r).1 <+: (atomRun (r ++ more)).1 := by
  fun_induction atomRun r with
  | case1 c r s rest hr ih =>
    rw [hr] at ih
    simp only [List.cons_append, atomRun_escape]
    exact List.prefix_cons_inj _ |>.mpr (List.prefix_cons_inj _ |>.mpr ih)
  | case2 => exact List.nil_prefix
  | case3 c r _ stop s rest hr ih =>
    rw [hr] at ih
    have plain : ¬ Stops c := fun h => stop (by rcases h with h | h | h <;> simp [h])
    rw [List.cons_append, atomRun_plain _ plain fun h => stop (by simp [h])]
    exact List.prefix_cons_inj _ |>.mpr ih
  | case4 => exact List.nil_prefix

/-- With more text behind it the first token of a text is the same or longer. -/
theorem first?_grows {c : Char} {r rest : Text} {t : Token} (h : first? c r = some (t, rest))
    (notBlank : isBlank c = false) (more : Text) :
    ∃ t' rest', first? c (r ++ more) = some (t', rest') ∧ t'.kind = t.kind ∧ t.text <+: t'.text := by
  rw [first?] at h
  split at h
  next string =>
    obtain ⟨⟨s, rest'⟩, hs, he⟩ := Option.map_eq_some_iff.mp h
    cases he
    have longer := stringBody?_append_right hs more
    exact ⟨_, _, by rw [first?, if_pos string, longer]; rfl, rfl, List.prefix_rfl⟩
  next notString =>
  split at h
  next quote =>
    cases h
    exact ⟨_, _, by rw [first?, if_neg notString, if_pos quote], rfl, List.prefix_rfl⟩
  next notQuote =>
  split at h
  next opening =>
    cases h
    exact ⟨_, _, by rw [first?, if_neg notString, if_neg notQuote, if_pos opening], rfl,
      List.prefix_rfl⟩
  next notOpening =>
  split at h
  next closing =>
    cases h
    exact ⟨_, _, by rw [first?, if_neg notString, if_neg notQuote, if_neg notOpening,
      if_pos closing], rfl, List.prefix_rfl⟩
  next notClosing =>
  have longer := atomRun_prefix (c :: r) more
  have taken (s : Text) (some : s ≠ []) (run : (atomRun (c :: (r ++ more))).1 = s) :
      ∃ rest', first? c (r ++ more) = .some (⟨.atom, s⟩, rest') :=
    ⟨_, first?_atom (Prod.ext run rfl) some ⟨notString, notQuote⟩ ⟨notOpening, notClosing⟩⟩
  split at h
  next rest' run =>
    cases h
    have notStop : ¬ Stops c := by simp [Stops, notBlank, notOpening, notClosing]
    obtain ⟨rfl, rfl⟩ := eq_backslash_of_atomRun_nil run notStop
    cases more with
    | nil => exact ⟨lone, [], rfl, rfl, List.prefix_rfl⟩
    | cons d more =>
      obtain ⟨rest', first⟩ := taken _ (List.cons_ne_nil _ _) rfl
      exact ⟨_, rest', first, rfl, List.prefix_append ['\\'] _⟩
  next s rest' nonempty run =>
    cases h
    rw [run] at longer
    have some : (atomRun (c :: (r ++ more))).1 ≠ [] := by
      intro empty
      rw [List.cons_append, empty] at longer
      exact nonempty (List.prefix_nil.mp longer)
    obtain ⟨rest', first⟩ := taken _ some rfl
    exact ⟨_, rest', first, rfl, longer⟩

theorem step_grows {s rest : Text} {t : Token} (h : step s = .token t rest) (more : Text) :
    ∃ t' rest', step (s ++ more) = .token t' rest' ∧ t'.kind = t.kind ∧ t.text <+: t'.text := by
  obtain ⟨c, r, start, first⟩ := step_eq_token h
  obtain ⟨t', rest', first', kind, grows⟩ := first?_grows first (skipGap_head start).1 more
  refine ⟨t', rest', ?_, kind, grows⟩
  rw [step, skipGap_append start more]
  simp only [first']

end Token

open Token

/-- Every token of a text stands in it, between those taken before and the text of the others. -/
theorem exists_takes {s : Text} {p q : List Token} (h : (lex s).tokens = p ++ q) :
    ∃ rest, Takes s p rest ∧ (lex rest).tokens = q := by
  induction p generalizing s with
  | nil => exact ⟨s, .none s, h⟩
  | cons t p ih =>
    cases first : step s with
    | done =>
      rw [lex_of_done first] at h
      cases h
    | openString =>
      rw [lex_of_openString first] at h
      cases h
    | token t' s' =>
      rw [lex_of_step first] at h
      obtain ⟨rfl, tokens⟩ := List.cons.inj h
      obtain ⟨rest, taken, left⟩ := ih tokens
      exact ⟨rest, .next first taken, left⟩

theorem not_stops_backslash : ¬ Stops '\\' := by
  rw [Stops]
  decide

theorem atomsEnd_iff (s : Text) : AtomsEnd s ↔ ¬ CutShort s := by
  constructor
  · rintro ends ⟨p, t, kind, taken⟩
    exact not_stops_backslash (ends p t _ kind taken)
  · intro notCut p t rest kind taken
    refine (taken.bounded kind).resolve_right ?_
    rintro rfl
    exact notCut ⟨p, t, kind, taken⟩

/-- No atom begins where another one has to end. -/
theorem not_endsAtom_of_atom {t : Token} (emitted : t.Emitted) (kind : t.kind = .atom)
    (rest : Text) : ¬ EndsAtom (t.text ++ rest) := by
  intro ends
  cases emitted with
  | @atom text atom =>
    cases text with
    | nil => exact atom.nonempty rfl
    | cons c r =>
      have stopped := atomRun_stop r ends
      rw [atom.run] at stopped
      cases stopped
  | lone => exact not_stops_backslash ends
  | string _ => cases kind
  | mark => cases kind
  | opening => cases kind
  | closing => cases kind

theorem takes_lone : Takes ['\\'] [lone] [] := by
  have first : step ['\\'] = .token lone [] := rfl
  exact Takes.single_iff.mpr first

theorem atomsApart_iff (s : Text) : AtomsApart s ↔ ¬ CutShort s := by
  constructor
  · rintro apart ⟨p, t, kind, taken⟩
    have both := taken.append takes_lone
    rw [List.append_assoc] at both
    exact apart p t lone _ [] kind rfl taken both rfl
  · intro notCut p t t' rest rest' kind kind' taken both touching
    have ends := (atomsEnd_iff s).mpr notCut p t rest kind taken
    have next : Takes s ((p ++ [t]) ++ [t']) rest' := by
      rw [List.append_assoc]
      exact both
    rw [touching] at ends
    exact not_endsAtom_of_atom next.emitted kind' rest' ends

/-- With one more character the backslash behind an atom belongs to the atom. -/
theorem lex_uncut {t : Token} {mid : Text} (first : step mid = .token t ['\\'])
    (kind : t.kind = .atom) : ∃ t', lex (mid ++ ['a']) = ⟨[t'], false⟩ := by
  obtain ⟨c, r, start, taken⟩ := step_eq_token first
  obtain ⟨g, gap, rfl⟩ := gap_of_skipGap start
  obtain ⟨text, _⟩ := first?_text taken (skipGap_head start).1
  obtain ⟨emitted, last⟩ := step_emitted first
  cases emitted with
  | @atom a atom =>
    have units : AtomUnits (a ++ ['\\', 'a']) := by
      have before := units_of_atomRun a
      rw [atom.run] at before
      exact before.append (.escape 'a' .nil)
    have unclaimed : Unclaimed ⟨.atom, a ++ ['\\', 'a']⟩ := by
      intro _ c' r' same
      cases a with
      | nil => exact absurd rfl atom.nonempty
      | cons d a =>
        obtain ⟨rfl, _⟩ := List.cons.inj same
        exact atom.notSpecial d a rfl
    have bounded : Bounded ⟨.atom, a ++ ['\\', 'a']⟩ [] := fun _ => ⟨Or.inl trivial, fun _ => rfl⟩
    have tiled := Tiled.token gap (.atom (by simp) units) unclaimed bounded (.last (.gap .nil))
    have whole : g ++ c :: r ++ ['a'] = g ++ ((a ++ ['\\', 'a']) ++ []) := by
      rw [text]
      simp
    rw [whole]
    exact ⟨_, lex_of_tiled tiled⟩
  | lone => cases last rfl
  | string _ => cases kind
  | mark => cases kind
  | opening => cases kind
  | closing => cases kind

theorem lastGrows_iff (s : Text) : LastGrows s ↔ ¬ CutShort s := by
  constructor
  · rintro grows ⟨p, t, kind, taken⟩
    have whole := taken.lex
    rw [lex_lone] at whole
    obtain ⟨t', q, tokens, _⟩ := grows (by rw [whole]; rfl) ['a'] (p ++ [t]) lone (by rw [whole]; rfl)
    -- Two tokens become one, so there are fewer than before.
    obtain ⟨mid, before, first⟩ := taken.last
    have ended : mid ≠ [] ∧ mid ≠ ['\\'] := by
      constructor
      · rintro rfl
        cases first
      · rintro rfl
        cases first
    have again := (before.append_right ended.1 (fun same => absurd same ended.2) ['a']).lex
    obtain ⟨t'', joined⟩ := lex_uncut first kind
    rw [again, joined] at tokens
    have count := congrArg List.length tokens
    simp only [Lexed.prepend, List.length_append, List.length_cons, List.length_nil] at count
    omega
  · intro notCut _ more p t tokens
    obtain ⟨mid, before, last⟩ := exists_takes tokens
    cases first : step mid with
    | done =>
      rw [lex_of_done first] at last
      cases last
    | openString =>
      rw [lex_of_openString first] at last
      cases last
    | token t' rest =>
      rw [lex_of_step first] at last
      obtain ⟨rfl, _⟩ := List.cons.inj last
      have left : mid ≠ [] := by
        rintro rfl
        cases first
      obtain ⟨t'', rest', first', kind, grows⟩ := step_grows first more
      have again := (before.append_right left (fun _ => notCut) more).lex
      refine ⟨t'', (lex rest').tokens, ?_, kind, grows⟩
      rw [again, lex_of_step first']
      rfl

/-- Every token of a text stands in it with the text of the later tokens behind it. Behind every
atom stands a blank, a parenthesis or nothing, no two atoms touch, and more text changes the last
token at most: each of these holds of a text exactly if it does not end in a backslash right behind
an atom. -/
theorem atoms_maximal_iff (s : Text) :
    (∀ p t q, (lex s).tokens = p ++ t :: q →
      ∃ u rest, Takes s (p ++ [t]) rest ∧ s = u ++ (t.text ++ rest) ∧ (lex rest).tokens = q) ∧
    (AtomsEnd s ↔ ¬ CutShort s) ∧ (AtomsApart s ↔ ¬ CutShort s) ∧ (LastGrows s ↔ ¬ CutShort s) := by
  refine ⟨?_, atomsEnd_iff s, atomsApart_iff s, lastGrows_iff s⟩
  intro p t q tokens
  rw [List.append_cons] at tokens
  obtain ⟨rest, taken, left⟩ := exists_takes tokens
  obtain ⟨u, split⟩ := taken.text
  exact ⟨u, rest, taken, split, left⟩

/-- An atom and a backslash are two tokens that touch, and with one more character they are one. -/
theorem backslash_cuts_atom :
    lex ['a', '\\'] = ⟨[⟨.atom, ['a']⟩, .lone], false⟩ ∧
    ¬ AtomsEnd ['a', '\\'] ∧ ¬ AtomsApart ['a', '\\'] ∧ ¬ LastGrows ['a', '\\'] ∧
    lex ['a', '\\', 'b'] = ⟨[⟨.atom, ['a', '\\', 'b']⟩], false⟩ := by
  have first : step ['a', '\\'] = .token ⟨.atom, ['a']⟩ ['\\'] := rfl
  have cut : CutShort ['a', '\\'] := ⟨[], _, rfl, Takes.single_iff.mpr first⟩
  refine ⟨?_, ?_, ?_, ?_, by cbv⟩
  · rw [lex_of_step first, lex_lone]
    rfl
  · rw [atomsEnd_iff]
    exact not_not_intro cut
  · rw [atomsApart_iff]
    exact not_not_intro cut
  · rw [lastGrows_iff]
    exact not_not_intro cut

end FexprLisp
