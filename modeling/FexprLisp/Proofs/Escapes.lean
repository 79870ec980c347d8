import FexprLisp.Proofs.Tiling

/-!
# Escapes in strings

The lexer pairs a backslash with the character behind it to find where a string ends, and the decoder
pairs them again to find what the string says. They agree: the decoder never comes to a backslash
with nothing behind it. What it can come to is a backslash before a character that is no letter of an
escape, and then the string stands for nothing. All other strings, and all atoms, stand for a datum.
-/

namespace FexprLisp

/-- The characters that the body of a string says. -/
inductive Decodes : Text → Text → Prop
  | nil : Decodes [] []
  | plain {c : Char} {r cs : Text} : c ≠ '\\' → Decodes r cs → Decodes (c :: r) (c :: cs)
  | escape {c letter : Char} {r cs : Text} : (c, letter) ∈ stringEscapes → Decodes r cs →
      Decodes ('\\' :: letter :: r) (c :: cs)

/-- How many backslashes a text ends in. -/
def backslashes (t : Text) : Nat := (t.reverse.takeWhile (· = '\\')).length

/-- Where an even number of backslashes stands before it, so that none of them escapes it, there is a
backslash with a character behind it that is no letter of an escape. -/
def Strange (body : Text) : Prop :=
  ∃ before c after, body = before ++ '\\' :: c :: after ∧ backslashes before % 2 = 0 ∧
    c ∉ stringEscapes.map (·.2)

/-! ### What a body says -/

theorem unescapedChar?_eq_some_iff {c letter : Char} :
    unescapedChar? letter = some c ↔ (c, letter) ∈ stringEscapes := by
  rw [unescapedChar?, Option.map_eq_some_iff]
  constructor
  · rintro ⟨e, found, rfl⟩
    have same := List.find?_some found
    rw [← of_decide_eq_true same]
    exact List.mem_of_find?_eq_some found
  · intro known
    simp only [stringEscapes, List.mem_cons, Prod.mk.injEq, List.not_mem_nil, or_false] at known
    rcases known with ⟨rfl, rfl⟩ | ⟨rfl, rfl⟩ | ⟨rfl, rfl⟩ | ⟨rfl, rfl⟩ | ⟨rfl, rfl⟩ | ⟨rfl, rfl⟩ <;>
      exact ⟨_, rfl, rfl⟩

theorem unescapedChar?_eq_none_iff {letter : Char} :
    unescapedChar? letter = none ↔ letter ∉ stringEscapes.map (·.2) := by
  rw [Option.eq_none_iff_forall_ne_some]
  constructor
  · intro none known
    obtain ⟨⟨c, _⟩, mem, rfl⟩ := List.mem_map.mp known
    exact none c (unescapedChar?_eq_some_iff.mpr mem)
  · intro unknown c some
    exact unknown (List.mem_map.mpr ⟨_, unescapedChar?_eq_some_iff.mp some, rfl⟩)

theorem unescape_plain {c : Char} (notBackslash : c ≠ '\\') (r : Text) :
    unescape (c :: r) = (unescape r).map (c :: ·) := by
  rw [unescape]
  · exact fun same _ => notBackslash same
  · exact fun _ _ same _ => notBackslash same

theorem unescape_escape {c letter : Char} (known : (c, letter) ∈ stringEscapes) (r : Text) :
    unescape ('\\' :: letter :: r) = (unescape r).map (c :: ·) := by
  rw [unescape, unescapedChar?_eq_some_iff.mpr known]

theorem Decodes.unescape {body cs : Text} (decodes : Decodes body cs) :
    unescape body = .ok cs := by
  induction decodes with
  | nil => rfl
  | plain notBackslash _ ih => rw [unescape_plain notBackslash, ih]; rfl
  | escape known _ ih => rw [unescape_escape known, ih]; rfl

theorem Decodes.unique {body cs cs' : Text} (decodes : Decodes body cs)
    (decodes' : Decodes body cs') : cs = cs' :=
  Except.ok.inj (decodes.unescape.symm.trans decodes'.unescape)

/-! ### Backslashes before a position -/

theorem backslashes_le (t : Text) : backslashes t ≤ t.length := by
  have few : (t.reverse.takeWhile (· = '\\')).length ≤ t.reverse.length :=
    (List.takeWhile_sublist _).length_le
  rwa [List.length_reverse] at few

theorem backslashes_cons (c : Char) (t : Text) : backslashes (c :: t) =
    if c = '\\' ∧ backslashes t = t.length then t.length + 1 else backslashes t := by
  rw [backslashes, List.reverse_cons, List.takeWhile_append, List.length_reverse]
  change (if backslashes t = t.length then _ else _ : Text).length = _
  by_cases all : backslashes t = t.length
  · by_cases backslash : c = '\\'
    · simp [all, backslash]
    · simp [all, backslash]
  · rw [if_neg all, if_neg fun both => all both.2]
    rfl

theorem backslashes_plain {c : Char} (notBackslash : c ≠ '\\') (t : Text) :
    backslashes (c :: t) = backslashes t := by
  rw [backslashes_cons, if_neg fun both => notBackslash both.1]

/-- A backslash and what it escapes, be it another, leave the parity as it is. -/
theorem backslashes_escape (c : Char) (t : Text) :
    backslashes ('\\' :: c :: t) % 2 = backslashes t % 2 := by
  have few := backslashes_le t
  rw [backslashes_cons, backslashes_cons c, List.length_cons]
  by_cases all : c = '\\' ∧ backslashes t = t.length
  · rw [if_pos all, if_pos ⟨rfl, rfl⟩, all.2]
    omega
  · rw [if_neg all, if_neg]
    omega

/-! ### Strange escapes -/

theorem not_strange_nil : ¬ Strange [] := by
  rintro ⟨before, c, after, split, _⟩
  cases before <;> cases split

theorem strange_plain {c : Char} (notBackslash : c ≠ '\\') (r : Text) :
    Strange (c :: r) ↔ Strange r := by
  constructor
  · rintro ⟨before, d, after, split, even, strange⟩
    cases before with
    | nil => exact absurd (List.cons.inj split).1 notBackslash
    | cons b before =>
      obtain ⟨rfl, rest⟩ := List.cons.inj split
      rw [backslashes_plain notBackslash] at even
      exact ⟨before, d, after, rest, even, strange⟩
  · rintro ⟨before, d, after, rfl, even, strange⟩
    refine ⟨c :: before, d, after, rfl, ?_, strange⟩
    rw [backslashes_plain notBackslash, even]

theorem strange_escape {letter : Char} (known : letter ∈ stringEscapes.map (·.2)) (r : Text) :
    Strange ('\\' :: letter :: r) ↔ Strange r := by
  constructor
  · rintro ⟨before, d, after, split, even, strange⟩
    match before with
    | [] =>
      obtain ⟨-, later⟩ := List.cons.inj split
      obtain ⟨rfl, -⟩ := List.cons.inj later
      exact absurd known strange
    -- an escaped backslash begins no escape
    | [b] =>
      obtain ⟨rfl, -⟩ := List.cons.inj split
      exact absurd even (by decide)
    | b :: b' :: before =>
      obtain ⟨rfl, later⟩ := List.cons.inj split
      obtain ⟨rfl, rest⟩ := List.cons.inj later
      rw [backslashes_escape] at even
      exact ⟨before, d, after, rest, even, strange⟩
  · rintro ⟨before, d, after, rfl, even, strange⟩
    refine ⟨'\\' :: letter :: before, d, after, rfl, ?_, strange⟩
    rw [backslashes_escape, even]

theorem strange_of_unknown {c : Char} (unknown : c ∉ stringEscapes.map (·.2)) (r : Text) :
    Strange ('\\' :: c :: r) :=
  ⟨[], c, r, rfl, rfl, unknown⟩

/-- What the lexer takes for the body of a string is decoded to its end, or up to a strange escape. -/
theorem unescape_units {body : Text} (units : Token.StringUnits body) :
    (¬ Strange body ∧ ∃ cs, Decodes body cs) ∨
      (Strange body ∧ ∃ c, unescape body = .error ⟨some c⟩) := by
  induction units with
  | nil => exact Or.inl ⟨not_strange_nil, [], .nil⟩
  | plain _ notBackslash _ ih =>
    rw [strange_plain notBackslash, unescape_plain notBackslash]
    rcases ih with ⟨good, cs, decodes⟩ | ⟨strange, c, failed⟩
    · exact Or.inl ⟨good, _, .plain notBackslash decodes⟩
    · exact Or.inr ⟨strange, c, by rw [failed]; rfl⟩
  | escape c _ ih =>
    by_cases known : c ∈ stringEscapes.map (·.2)
    · obtain ⟨⟨d, _⟩, mem, rfl⟩ := List.mem_map.mp known
      rw [strange_escape known, unescape_escape mem]
      rcases ih with ⟨good, cs, decodes⟩ | ⟨strange, c, failed⟩
      · exact Or.inl ⟨good, _, .escape mem decodes⟩
      · exact Or.inr ⟨strange, c, by rw [failed]; rfl⟩
    · refine Or.inr ⟨strange_of_unknown known _, c, ?_⟩
      rw [unescape, unescapedChar?_eq_none_iff.mpr known]

/-! ### Tokens -/

/-- What is true of a string token with a given body. -/
structure StringToken (text body : Text) : Prop where
  text_eq : text = '"' :: (body ++ ['"'])
  /-- The decoder is run on what the lexer takes for the body. -/
  literal : literalBody? text = some body
  /-- A body does not end in the middle of an escape. -/
  whole : unescape body ≠ .error ⟨none⟩
  parsed : (¬ Strange body ∧ ∃ cs, Decodes body cs ∧ parseAtom text = .ok (.ofText cs)) ∨
    (Strange body ∧ parseAtom text = .error (.unreadable (.unparsableAtom text)))

theorem exists_stringToken {t : Token} (emitted : t.Emitted) (kind : t.kind = .string) :
    ∃ body, StringToken t.text body := by
  cases emitted with
  | string closed =>
    obtain ⟨body, rfl, units⟩ := Token.units_of_stringBody? closed
    have parsed := parseAtom_string closed
    rw [List.dropLast_concat] at parsed
    have literal : literalBody? ('"' :: (body ++ ['"'])) = some body := by
      rw [literalBody?, if_pos (getLast?_of_stringBody? closed), List.dropLast_concat]
    rcases unescape_units units with ⟨good, cs, decodes⟩ | ⟨strange, c, failed⟩
    · rw [decodes.unescape] at parsed
      refine ⟨body, rfl, literal, ?_, Or.inl ⟨good, cs, decodes, parsed⟩⟩
      rw [decodes.unescape]
      rintro ⟨⟩
    · rw [failed] at parsed
      refine ⟨body, rfl, literal, ?_, Or.inr ⟨strange, parsed⟩⟩
      rw [failed]
      rintro ⟨⟩
  | _ => cases kind

theorem nonempty_of_emitted_atom {t : Token} (emitted : t.Emitted) (kind : t.kind = .atom) :
    t.text ≠ [] ∧ t.text.head? ≠ some ';' := by
  cases emitted with
  | @atom text atom =>
    refine ⟨atom.nonempty, ?_⟩
    cases text with
    | nil => exact absurd rfl atom.nonempty
    | cons c r => exact fun same => (atom.notSpecial c r rfl).1 (Option.some.inj same)
  | lone => exact ⟨by rintro ⟨⟩, by rintro ⟨⟩⟩
  | _ => cases kind

namespace Reader

/-- A text that stands for nothing is a string among the tokens. -/
theorem string_of_forms_fault {ts : List Token} (emitted : ∀ t ∈ ts, t.Emitted)
    {lexFault : Option Fault} {text : Text}
    (lexed : lexFault ≠ some (.unreadable (.unparsableAtom text))) {s : State}
    (h : (s.forms lexFault ts).fault = some (.unreadable (.unparsableAtom text))) :
    ⟨.string, text⟩ ∈ ts ∧ parseAtom text = .error (.unreadable (.unparsableAtom text)) := by
  induction ts generalizing s with
  | nil =>
    cases lexFault with
    | some f => exact absurd h lexed
    | none =>
      have ended : s.atEnd = some (.unreadable (.unparsableAtom text)) := h
      unfold State.atEnd at ended
      split at ended <;> cases ended
  | cons t ts ih =>
    have later {s : State} (h : (s.forms lexFault ts).fault =
        some (.unreadable (.unparsableAtom text))) :
        ⟨.string, text⟩ ∈ t :: ts ∧
          parseAtom text = .error (.unreadable (.unparsableAtom text)) :=
      (ih (fun u mem => emitted u (List.mem_cons_of_mem _ mem)) h).imp_left
        (List.mem_cons_of_mem _)
    have here (refused : s.move t = .spoil (.unreadable (.unparsableAtom text)) ∨
        s.move t = .refuse (.unreadable (.unparsableAtom text))) :
        ⟨.string, text⟩ ∈ t :: ts ∧
          parseAtom text = .error (.unreadable (.unparsableAtom text)) := by
      rcases move_refuses (emitted t List.mem_cons_self) refused with
        ⟨_, _, named⟩ | ⟨string, failed, named⟩ | ⟨_, named⟩
      · cases named
      · cases named
        obtain ⟨kind, text⟩ := t
        cases string
        exact ⟨List.mem_cons_self, failed⟩
      · cases named
    rw [State.forms] at h
    cases move : s.move t with
    | next s' =>
      rw [move] at h
      exact later h
    | finish d =>
      rw [move] at h
      exact later h
    | spoil f =>
      rw [move] at h
      cases h
      exact here (Or.inl move)
    | refuse f =>
      rw [move] at h
      cases h
      exact here (Or.inr move)

end Reader

theorem forms_fault_of_read {s : Text} {f : Fault} (h : read s = .error f) :
    (Reader.idle.forms (lex s).fault? (lex s).tokens).fault = some f := by
  rw [read, readForms] at h
  split at h
  · cases h
  next forms f' reading =>
    cases h
    rw [reading]

/-- Every atom of a text stands for a number, a character or the symbol of its own text. Every string
stands for the characters that its body says, unless there is a strange escape in it, and then the
complaint is of the whole token. Reading makes no other complaint of that kind. -/
theorem parseAtom_of_mem_lex (s : Text) :
    (∀ t ∈ (lex s).tokens, t.kind = .atom → t.text ≠ [] ∧ t.text.head? ≠ some ';' ∧
      ∃ d, parseAtom t.text = .ok d ∧ AtomDatum t.text d) ∧
    (∀ t ∈ (lex s).tokens, t.kind = .string → ∃ body, StringToken t.text body) ∧
    ∀ text, read s = .error (.unreadable (.unparsableAtom text)) →
      ⟨.string, text⟩ ∈ (lex s).tokens ∧ ∃ body, StringToken text body ∧ Strange body := by
  refine ⟨?_, ?_, ?_⟩
  · intro t mem kind
    have emitted := emitted_of_mem_lex mem
    obtain ⟨nonempty, noComment⟩ := nonempty_of_emitted_atom emitted kind
    exact ⟨nonempty, noComment, parseAtom_emitted emitted kind⟩
  · intro t mem kind
    exact exists_stringToken (emitted_of_mem_lex mem) kind
  · intro text failed
    have lexed : (lex s).fault? ≠ some (.unreadable (.unparsableAtom text)) := by
      rw [Lexed.fault?]
      split <;> rintro ⟨⟩
    obtain ⟨mem, refused⟩ := Reader.string_of_forms_fault (fun _ => emitted_of_mem_lex) lexed
      (forms_fault_of_read failed)
    obtain ⟨body, token⟩ := exists_stringToken (emitted_of_mem_lex mem) rfl
    refine ⟨mem, body, token, ?_⟩
    rcases token.parsed with ⟨_, cs, _, parsed⟩ | ⟨strange, _⟩
    · cases parsed.symm.trans refused
    · exact strange

/-- The empty string, a string with a strange escape in it, and an atom right behind it. -/
theorem parseAtom_of_mem_lex_sample :
    let s := ['"', '"', '"', '\\', 'q', '"', 'a']
    (∃ d, parseAtom ['a'] = .ok d ∧ AtomDatum ['a'] d) ∧ parseAtom ['"', '"'] = .ok .nil ∧
      read s = .error (.unreadable (.unparsableAtom ['"', '\\', 'q', '"'])) ∧
      Strange ['\\', 'q'] := by
  intro s
  obtain ⟨atoms, strings, refused⟩ := parseAtom_of_mem_lex s
  have lexed : lex s = ⟨[⟨.string, ['"', '"']⟩, ⟨.string, ['"', '\\', 'q', '"']⟩,
      ⟨.atom, ['a']⟩], false⟩ := by cbv
  have failed : read s = .error (.unreadable (.unparsableAtom ['"', '\\', 'q', '"'])) := by
    rw [read, readForms, lexed]
    rfl
  rw [lexed] at atoms strings
  refine ⟨(atoms ⟨.atom, ['a']⟩ (by simp) rfl).2.2, ?_, failed, ?_⟩
  · obtain ⟨body, token⟩ := strings ⟨.string, ['"', '"']⟩ (by simp) rfl
    obtain rfl : body = [] := by simpa using token.text_eq.symm
    rcases token.parsed with ⟨_, cs, decodes, parsed⟩ | ⟨strange, _⟩
    · rw [decodes.unique .nil] at parsed
      exact parsed
    · exact absurd strange not_strange_nil
  · obtain ⟨_, body, token, strange⟩ := refused _ failed
    have same : ['\\', 'q'] = body := List.append_cancel_right (List.cons.inj token.text_eq).2
    rwa [same]

end FexprLisp
