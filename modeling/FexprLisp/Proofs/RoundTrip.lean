import FexprLisp.Datum.Equality
import FexprLisp.Proofs.Written

/-!
# Reading what was printed

Whatever the reader makes of a text is writable, apart from the backslash that ends the text. So
each form, printed and read, is that form again, and so are all forms, printed on lines of their
own.
-/

namespace FexprLisp

namespace Datum

/-- A datum that can close a list behind a point, or be what remains of a list. -/
structure EndsList (d : Datum) : Prop where
  writable : Writable d
  notPoint : d ≠ point
  notQuoted : ∀ e, d ≠ quoted e

theorem endsList_nil : EndsList nil := ⟨.nil, by simp [point], by simp⟩

theorem endsList_chain {ds : List Datum} {tail : Datum}
    (elements : ∀ d ∈ ds, Writable d ∧ d ≠ point) (last : EndsList tail) :
    EndsList (chain ds tail) := by
  induction ds with
  | nil => exact last
  | cons d ds ih =>
    obtain ⟨writable, notPoint⟩ := elements d List.mem_cons_self
    have rest := ih fun d hd => elements d (List.mem_cons_of_mem _ hd)
    exact ⟨.pair writable notPoint rest.writable rest.notPoint rest.notQuoted,
      by simp [chain, point], by simp [chain]⟩

theorem endsList_ofText (cs : Text) : EndsList (ofText cs) := by
  refine endsList_chain ?_ endsList_nil
  intro d hd
  obtain ⟨c, _, rfl⟩ := List.mem_map.mp hd
  exact ⟨.char c, by simp [point]⟩

theorem mem_numbers_chain {v : Single} {ds : List Datum} {tail : Datum} :
    v ∈ (chain ds tail).numbers ↔ (∃ d ∈ ds, v ∈ d.numbers) ∨ v ∈ tail.numbers := by
  induction ds with
  | nil => simp [chain]
  | cons d ds ih =>
    have split : (chain (d :: ds) tail).numbers = d.numbers ++ (chain ds tail).numbers := rfl
    rw [split, List.mem_append, ih]
    simp [or_assoc]

/-- A datum without a not-a-number that can be written equals itself. -/
theorem Writable.equal_self {d : Datum} (writable : Writable d)
    (noNaN : ∀ v ∈ d.numbers, v ≠ .nan) : d.equal d = true := by
  induction writable with
  | nil => rfl
  | @number v _ =>
    cases v with
    | nan => exact absurd rfl (noNaN .nan (List.mem_singleton.mpr rfl))
    | real neg k => simp [equal, Binary.same]
  | char c => simp [equal]
  | symbol _ _ => simp [equal]
  | quoted _ ih => exact ih noNaN
  | pair _ _ _ _ _ ihh iht =>
    have head := ihh fun v hv => noNaN v (List.mem_append_left _ hv)
    have tail := iht fun v hv => noNaN v (List.mem_append_right _ hv)
    rw [equal, head, tail]
    rfl

theorem Final.equal_self {d : Datum} (final : Final d) (noNaN : ∀ v ∈ d.numbers, v ≠ .nan) :
    d.equal d = true := by
  induction final with
  | writable writable => exact writable.equal_self noNaN
  | lone => rfl
  | quoted _ ih => exact ih noNaN

end Datum

open Datum

/-- What a derivation without a lone backslash denotes. -/
structure Tree.Writes (t : Tree) : Prop where
  writable : Writable t.datum
  notPoint : (∀ v, t ≠ .leaf .point v) → t.datum ≠ point
  notQuoted : (∀ e, t ≠ .quotation e) → ∀ e, t.datum ≠ quoted e

theorem EndsList.writes {t : Tree} (ends : EndsList t.datum) : t.Writes :=
  ⟨ends.writable, fun _ => ends.notPoint, fun _ => ends.notQuoted⟩

theorem writes_leaf {t : Token} {d : Datum} (emitted : t.Emitted)
    (kind : t.kind = .atom ∨ t.kind = .string) (parsed : parseAtom t.text = .ok d)
    (notLone : t ≠ .lone) (readsBack : ∀ v ∈ d.numbers, ReadsBack v) : (Tree.leaf t d).Writes := by
  cases emitted with
  | @string body closed =>
    have read := parseAtom_string closed
    rw [parsed] at read
    cases known : unescape body.dropLast with
    | ok cs =>
      rw [known] at read
      obtain rfl := Except.ok.inj read
      exact EndsList.writes (endsList_ofText cs)
    | error f =>
      rw [known] at read
      cases read
  | @atom text atom =>
    obtain ⟨d', parsed', stands⟩ := parseAtom_emitted (.atom atom) rfl
    obtain rfl := Except.ok.inj (parsed'.symm.trans parsed)
    cases stands with
    | @number v _ =>
      have writable := Writable.number (readsBack v (List.mem_singleton.mpr rfl))
      exact EndsList.writes ⟨writable, by simp [Tree.datum, point], by simp [Tree.datum]⟩
    | @char c _ =>
      exact EndsList.writes ⟨.char c, by simp [Tree.datum, point], by simp [Tree.datum]⟩
    | symbol =>
      refine ⟨.symbol atom parsed, ?_, by simp [Tree.datum]⟩
      intro other same
      obtain rfl := symbol.inj same
      exact other _ rfl
  | lone => exact absurd rfl notLone
  | mark => simp [Token.mark] at kind
  | opening => simp [Token.opening] at kind
  | closing => simp [Token.closing] at kind

/-- The elements of a list derivation, and what the list denotes with an end put to them. -/
theorem endsList_elements {es : List Tree} {tail : Datum}
    (elements : ∀ e ∈ es, Derives .element e) (writes : ∀ e ∈ es, e.Writes)
    (last : EndsList tail) : EndsList (chain (Tree.data es) tail) := by
  refine endsList_chain ?_ last
  intro d hd
  rw [Tree.data_eq_map] at hd
  obtain ⟨e, he, rfl⟩ := List.mem_map.mp hd
  cases elements e he with
  | element _ other => exact ⟨(writes e he).writable, (writes e he).notPoint other⟩

theorem mem_tokensAll {t : Token} {es : List Tree} {e : Tree} (he : e ∈ es) (ht : t ∈ e.tokens) :
    t ∈ Tree.tokensAll es := by
  rw [Tree.tokensAll_eq_flatMap]
  exact List.mem_flatMap.mpr ⟨e, he, ht⟩

theorem mem_numbers_elements {v : Single} {es : List Tree} {e : Tree} {tail : Datum} (he : e ∈ es)
    (hv : v ∈ e.datum.numbers) : v ∈ (chain (Tree.data es) tail).numbers := by
  rw [mem_numbers_chain, Tree.data_eq_map]
  exact Or.inl ⟨e.datum, List.mem_map_of_mem he, hv⟩

theorem writes_of_derives {n : Nonterminal} {t : Tree} (derives : Derives n t)
    (noLone : Token.lone ∉ t.tokens) (readsBack : ∀ v ∈ t.datum.numbers, ReadsBack v) :
    t.Writes := by
  induction derives with
  | @leaf t d emitted kind parsed =>
    refine writes_leaf emitted kind parsed ?_ readsBack
    rintro rfl
    exact noLone (List.mem_singleton.mpr rfl)
  | quotation _ ih =>
    have inner := ih (fun h => noLone (List.mem_cons_of_mem _ h)) readsBack
    exact ⟨.quoted inner.writable, by simp [Tree.datum, point], fun h => absurd rfl (h _)⟩
  | @list es elements ih =>
    have writes : ∀ e ∈ es, e.Writes := fun e he =>
      ih e he (fun h => noLone (by simp [Tree.tokens, mem_tokensAll he h]))
        fun v hv => readsBack v (mem_numbers_elements he hv)
    exact EndsList.writes (endsList_elements elements writes endsList_nil)
  | @dotted es d _ elements tail ihs ih =>
    have writes : ∀ e ∈ es, e.Writes := fun e he =>
      ihs e he (fun h => noLone (by simp [Tree.tokens, mem_tokensAll he h]))
        fun v hv => readsBack v (mem_numbers_elements he hv)
    have last := ih (fun h => noLone (by simp [Tree.tokens, h])) fun v hv =>
      readsBack v (mem_numbers_chain.mpr (Or.inr hv))
    have notPoint : ∀ v, d ≠ .leaf .point v := by
      rintro v rfl
      cases tail with
      | tailLeaf _ other => exact other rfl
    have notQuoted : ∀ e, d ≠ .quotation e := by
      rintro e rfl
      cases tail
    have ends : EndsList d.datum :=
      ⟨last.writable, last.notPoint notPoint, last.notQuoted notQuoted⟩
    exact EndsList.writes (endsList_elements elements writes ends)
  | element _ _ ih => exact ih noLone readsBack
  | tailLeaf _ _ ih => exact ih noLone readsBack
  | tailList _ ih => exact ih noLone readsBack
  | tailDotted _ ih => exact ih noLone readsBack

/-- Nothing stands behind a lone backslash. -/
def LoneIsLast (ts : List Token) : Prop :=
  ∀ before after, ts = before ++ .lone :: after → after = []

theorem LoneIsLast.of_append {ts us : List Token} (h : LoneIsLast (ts ++ us)) : LoneIsLast us := by
  intro before after split
  exact h (ts ++ before) after (by rw [split, List.append_assoc])

/-- Before other tokens there is no lone backslash. -/
theorem LoneIsLast.not_mem {ts us : List Token} (h : LoneIsLast (ts ++ us)) (some : us ≠ []) :
    Token.lone ∉ ts := by
  intro lone
  obtain ⟨before, after, rfl⟩ := List.append_of_mem lone
  have none := h before (after ++ us) (by simp)
  exact some (List.append_eq_nil_iff.mp none).2

/-- A form that ends with a closing parenthesis holds no lone backslash. -/
theorem LoneIsLast.not_mem_of_closed {ts : List Token} (h : LoneIsLast ts) (front : List Token)
    (closed : ts = front ++ [.closing]) : Token.lone ∉ ts := by
  rw [closed] at h ⊢
  intro lone
  rcases List.mem_append.mp lone with lone | lone
  · exact h.not_mem (List.cons_ne_nil _ _) lone
  · exact absurd (List.mem_singleton.mp lone) (by decide)

theorem final_of_derives {n : Nonterminal} {t : Tree} (derives : Derives n t)
    (lone : LoneIsLast t.tokens) (readsBack : ∀ v ∈ t.datum.numbers, ReadsBack v) :
    Final t.datum := by
  have whole : Token.lone ∉ t.tokens → Final t.datum := fun noLone =>
    .writable (writes_of_derives derives noLone readsBack).writable
  induction derives with
  | @leaf u d _ _ parsed =>
    by_cases last : u = .lone
    · subst last
      obtain rfl := Except.ok.inj parsed
      exact .lone
    · exact whole fun h => last (List.mem_singleton.mp h).symm
  | @quotation d derives ih =>
    have inner : LoneIsLast d.tokens := @LoneIsLast.of_append [.mark] d.tokens lone
    exact .quoted (ih inner readsBack fun noLone =>
      .writable (writes_of_derives derives noLone readsBack).writable)
  | @list es _ _ =>
    exact whole (lone.not_mem_of_closed (.opening :: Tree.tokensAll es) rfl)
  | @dotted es d _ _ _ _ _ =>
    refine whole (lone.not_mem_of_closed
      (.opening :: (Tree.tokensAll es ++ .point :: d.tokens)) ?_)
    simp [Tree.tokens]
  | element _ _ ih => exact ih lone readsBack whole
  | tailLeaf _ _ ih => exact ih lone readsBack whole
  | tailList _ ih => exact ih lone readsBack whole
  | tailDotted _ ih => exact ih lone readsBack whole

/-- The forms of a text: all but the last are writable whatever follows. -/
inductive WritableForms : List Datum → Prop
  | nil : WritableForms []
  | last {d : Datum} : Final d → WritableForms [d]
  | cons {d : Datum} {ds : List Datum} : Writable d → WritableForms ds → WritableForms (d :: ds)

theorem WritableForms.final {ds : List Datum} (forms : WritableForms ds) : ∀ d ∈ ds, Final d := by
  induction forms with
  | nil => exact fun d hd => absurd hd List.not_mem_nil
  | last final =>
    intro d hd
    obtain rfl := List.mem_singleton.mp hd
    exact final
  | cons writable _ ih =>
    intro d hd
    rcases List.mem_cons.mp hd with rfl | hd
    · exact .writable writable
    · exact ih d hd

theorem writableForms_of_program {program : List Tree} {ts : List Token}
    (derived : Program program ts) (lone : LoneIsLast ts)
    (readsBack : ∀ d ∈ program, ∀ v ∈ d.datum.numbers, ReadsBack v) :
    WritableForms (program.map Tree.datum) := by
  induction program generalizing ts with
  | nil => exact .nil
  | cons d program ih =>
    have head := derived.derives d List.mem_cons_self
    have reads := readsBack d List.mem_cons_self
    have split : d.tokens ++ program.flatMap Tree.tokens = ts := derived.tokens
    rw [← split] at lone
    cases program with
    | nil => exact .last (final_of_derives head (by simpa using lone) reads)
    | cons e program =>
      have more : (e :: program).flatMap Tree.tokens ≠ [] := by
        rw [List.flatMap_cons, e.tokens_eq_cons]
        exact List.cons_ne_nil _ _
      exact .cons (writes_of_derives head (lone.not_mem more) reads).writable
        (ih ⟨fun e he => derived.derives e (List.mem_cons_of_mem _ he), rfl⟩ lone.of_append
          fun e he => readsBack e (List.mem_cons_of_mem _ he))

theorem readForms_of_read {s : Text} {forms : List Datum} (h : read s = .ok forms) :
    readForms s = ⟨forms, none⟩ := by
  rw [read] at h
  split at h
  next forms' same =>
    rw [same, Except.ok.inj h]
  · cases h

/-- A text that is read is the text of a program. -/
theorem program_of_read {s : Text} {forms : List Datum} (h : read s = .ok forms) :
    ∃ program, Program program (lex s).tokens ∧ program.map Tree.datum = forms := by
  have reading := readForms_of_read h
  have good : (readForms s).fault = none := by rw [reading]
  obtain ⟨program, derived⟩ := Reader.program_of_forms (fun u hu => emitted_of_mem_lex hu) good
  have denoted := Reader.forms_program derived (lex s).fault?
  rw [readForms, denoted] at reading
  exact ⟨program, derived, (Reader.Reading.mk.inj reading).1⟩

theorem writableForms_of_read {s : Text} {forms : List Datum} (h : read s = .ok forms)
    (readsBack : ∀ f ∈ forms, ∀ v ∈ f.numbers, ReadsBack v) : WritableForms forms := by
  obtain ⟨program, derived, rfl⟩ := program_of_read h
  refine writableForms_of_program derived (fun _ _ split => lex_after_lone split) ?_
  intro d hd
  exact readsBack d.datum (List.mem_map_of_mem hd)

/-- The text of a program with no string left open is read. -/
theorem read_of_lex {s : Text} {program : List Tree}
    (lexed : lex s = ⟨program.flatMap Tree.tokens, false⟩)
    (derives : ∀ d ∈ program, Derives .datum d) : read s = .ok (program.map Tree.datum) := by
  have derived : Program program (program.flatMap Tree.tokens) := ⟨derives, rfl⟩
  have denoted := Reader.forms_program derived none
  have reading : readForms s = ⟨program.map Tree.datum, none⟩ := by
    rw [readForms, lexed]
    exact denoted
  rw [read, reading]

/-- The printed forms on lines of their own. -/
def printedLines (ds : List Datum) : Text := ['\n'].intercalate (ds.map printed)

theorem lex_printedLines {ds : List Datum} (forms : WritableForms ds) :
    lex (printedLines ds) = ⟨(ds.map tree).flatMap Tree.tokens, false⟩ := by
  induction forms with
  | nil => exact lex_nil
  | last final => simpa [printedLines] using final.lexes
  | @cons d ds writable rest ih =>
    cases ds with
    | nil => simpa [printedLines] using (Final.writable writable).lexes
    | cons e ds =>
      have shape : printedLines (d :: e :: ds) = printed d ++ '\n' :: printedLines (e :: ds) := by
        simp [printedLines]
      have ends : Token.EndsAtom ('\n' :: printedLines (e :: ds)) := Or.inl isBlank_newline
      rw [shape, (lexes_of_writable writable).alone _ ends, lex_blank _ isBlank_newline, ih]
      rfl

theorem read_printedLines {ds : List Datum} (forms : WritableForms ds) :
    read (printedLines ds) = .ok ds := by
  have derives : ∀ d ∈ ds.map tree, Derives .datum d := by
    intro t ht
    obtain ⟨d, hd, rfl⟩ := List.mem_map.mp ht
    exact (forms.final d hd).derives
  have same : (ds.map tree).map Tree.datum = ds := by
    rw [List.map_map]
    exact (List.map_congr_left fun d _ => (datum_tree d).1).trans (List.map_id ds)
  rw [read_of_lex (lex_printedLines forms) derives, same]

/-- Each form that is read is read again from its printed form, and all forms from their printed
lines. Of the numbers in them it is assumed that they are written so that they read back. -/
theorem read_printed {s : Text} {forms : List Datum} (h : read s = .ok forms)
    (noNaN : ∀ f ∈ forms, ∀ v ∈ f.numbers, v ≠ .nan)
    (readsBack : ∀ f ∈ forms, ∀ v ∈ f.numbers, ReadsBack v) :
    (∀ f ∈ forms, read f.printed = .ok [f] ∧ f.equal f = true) ∧
      read (printedLines forms) = .ok forms := by
  have writable := writableForms_of_read h readsBack
  refine ⟨?_, read_printedLines writable⟩
  intro f hf
  have final := writable.final f hf
  have alone := read_printedLines (.last final)
  rw [printedLines, List.map_singleton, List.intercalate_singleton] at alone
  exact ⟨alone, final.equal_self (noNaN f hf)⟩

/-- One and a half. -/
def oneAndHalf : Single := .real false ⟨1069547520, by decide⟩

theorem readsBack_oneAndHalf : ReadsBack oneAndHalf := by
  rw [ReadsBack]
  decide +kernel

/-- A dotted string, a comment, a number, escapes in atoms, and a backslash at the end. -/
def sampleText : Text := "(a . \"x\\\"y\") ; one\n'(1.5 \\( b\\ c)\\".toList

def sampleForms : List Datum :=
  [ pair (symbol ['a']) (ofText ['x', '"', 'y']),
    quoted (ofList [number oneAndHalf, char '(', symbol ['b', '\\', ' ', 'c']]), lone ]

theorem lex_sampleText : lex sampleText = ⟨[.opening, ⟨.atom, ['a']⟩, .point,
    ⟨.string, ['"', 'x', '\\', '"', 'y', '"']⟩, .closing, .mark, .opening,
    ⟨.atom, ['1', '.', '5']⟩, ⟨.atom, ['\\', '(']⟩, ⟨.atom, ['b', '\\', ' ', 'c']⟩, .closing,
    .lone], false⟩ := by
  cbv

theorem read_sampleText : read sampleText = .ok sampleForms := by
  have written : numberText oneAndHalf = ['1', '.', '5'] := by decide +kernel
  have numeral := parseAtom_number readsBack_oneAndHalf
  rw [written] at numeral
  have name : parseAtom ['a'] = .ok (symbol ['a']) := rfl
  have spaced : parseAtom ['b', '\\', ' ', 'c'] = .ok (symbol ['b', '\\', ' ', 'c']) := rfl
  have backslash : parseAtom ['\\'] = .ok lone := rfl
  have literal : parseAtom ['"', 'x', '\\', '"', 'y', '"'] = .ok (ofText ['x', '"', 'y']) :=
    parseAtom_stringLiteral ['x', '"', 'y']
  rw [read, readForms, lex_sampleText]
  simp [Reader.State.move, Reader.idle, Reader.begin, Reader.settle, Reader.isPoint, Token.opening,
    Token.closing, Token.mark, Token.point, Token.lone, numeral, name, literal,
    parseAtom_char, spaced, backslash, Reader.State.forms, Lexed.fault?,
    Reader.Reading.push, Reader.State.atEnd, ofList, chain, sampleForms]

theorem read_printed_sample : read sampleText = .ok sampleForms ∧
    (∀ f ∈ sampleForms, ∀ v ∈ f.numbers, v ≠ .nan ∧ ReadsBack v) ∧
      (∀ f ∈ sampleForms, read f.printed = .ok [f] ∧ f.equal f = true) ∧
        read (printedLines sampleForms) = .ok sampleForms := by
  have only : ∀ f ∈ sampleForms, ∀ v ∈ f.numbers, v = oneAndHalf := by
    simp [sampleForms, numbers, ofText, ofList, chain, lone]
  have good : ∀ f ∈ sampleForms, ∀ v ∈ f.numbers, v ≠ .nan ∧ ReadsBack v := by
    intro f hf v hv
    rw [only f hf v hv]
    exact ⟨by simp [oneAndHalf], readsBack_oneAndHalf⟩
  exact ⟨read_sampleText, good, read_printed read_sampleText (fun f hf v hv => (good f hf v hv).1)
    fun f hf v hv => (good f hf v hv).2⟩

end FexprLisp
