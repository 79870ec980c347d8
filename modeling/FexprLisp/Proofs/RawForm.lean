import FexprLisp.Datum.Raw
import FexprLisp.Proofs.ReadBack

/-!
# Raw forms tell data apart

A name may hold any text at all, quotation marks, commas and brackets included, or the raw form of
another datum. Still no two data have one raw form. The reason is that the end of a raw form shows:
in a text that begins with one, it can be told apart from the rest. That holds of the characters of a
quoted name, and goes up from there over names, numbers and lists to data. Functions of the host and
payloads show texts that are not quoted, so nothing is said of them.
-/

namespace FexprLisp

/-- A text that begins with what is written for `a` begins with what is written for nothing else, and
it is clear what follows. -/
def SelfDelimiting {α : Type} (write : α → Text) (a : α) : Prop :=
  ∀ ⦃b r s⦄, write a ++ r = write b ++ s → a = b ∧ r = s

namespace SelfDelimiting

variable {α β : Type} {write : α → Text} {a : α}

theorem eq_of_eq (h : SelfDelimiting write a) {b : α} (same : write a = write b) : a = b :=
  (h (congrArg (· ++ []) same)).1

theorem after (h : SelfDelimiting write a) (start : Text) :
    SelfDelimiting (fun a => start ++ write a) a := by
  intro b r s same
  rw [List.append_assoc, List.append_assoc] at same
  exact h (List.append_cancel_left same)

theorem before (h : SelfDelimiting write a) (stop : Text) :
    SelfDelimiting (fun a => write a ++ stop) a := by
  intro b r s same
  rw [List.append_assoc, List.append_assoc] at same
  obtain ⟨rfl, rest⟩ := h same
  exact ⟨rfl, List.append_cancel_left rest⟩

theorem enclosed (h : SelfDelimiting write a) (start stop : Text) :
    SelfDelimiting (fun a => start ++ write a ++ stop) a :=
  (h.after start).before stop

/-- One after the other, the second with something in front. -/
theorem pair {write' : β → Text} {b : β} (first : SelfDelimiting write a)
    (second : SelfDelimiting write' b) (between : Text) :
    SelfDelimiting (fun p : α × β => write p.1 ++ between ++ write' p.2) (a, b) := by
  rintro ⟨a', b'⟩ r s same
  simp only [List.append_assoc] at same
  obtain ⟨rfl, after⟩ := first same
  obtain ⟨rfl, rest⟩ := second (List.append_cancel_left after)
  exact ⟨rfl, rest⟩

/-- A list closed by a character that no member begins with. -/
theorem list {as : List α} {stop : Char} (members : ∀ a ∈ as, SelfDelimiting write a)
    (apart : ∀ a r s, write a ++ r ≠ stop :: s) :
    SelfDelimiting (fun as => as.flatMap write ++ [stop]) as := by
  induction as with
  | nil =>
    intro bs r s same
    cases bs with
    | nil => exact ⟨rfl, List.tail_eq_of_cons_eq same⟩
    | cons b bs =>
      simp only [List.flatMap_cons, List.append_assoc] at same
      exact absurd same.symm (apart b _ _)
  | cons a as ih =>
    intro bs r s same
    cases bs with
    | nil =>
      simp only [List.flatMap_cons, List.append_assoc] at same
      exact absurd same (apart a _ _)
    | cons b bs =>
      simp only [List.flatMap_cons, List.append_assoc] at same
      obtain ⟨rfl, after⟩ := members a List.mem_cons_self same
      rw [← List.append_assoc, ← List.append_assoc] at after
      obtain ⟨rfl, rest⟩ := ih (fun a mem => members a (List.mem_cons_of_mem _ mem)) after
      exact ⟨rfl, rest⟩

end SelfDelimiting

/-! ### Quoted names -/

theorem hexText_succ {width : Nat} (some : 0 < width) (n : Nat) :
    hexText (width + 1) n = hexText width (n / 16) ++ [(n % 16).digitChar] := by
  by_cases small : n < 16
  · obtain ⟨w, rfl⟩ : ∃ w, width = w + 1 := ⟨width - 1, by omega⟩
    rw [hexText, hexText, Nat.toDigits_of_lt_base small, Nat.div_eq_of_lt small,
      Nat.mod_eq_of_lt small, Nat.toDigits_zero, padded, padded, List.length_singleton,
      List.length_singleton, Nat.add_sub_cancel, Nat.add_sub_cancel, List.replicate_succ']
  · rw [hexText, hexText, Nat.toDigits_of_base_le (by decide) (Nat.le_of_not_lt small), padded,
      padded, List.length_append, List.length_singleton, Nat.add_sub_add_right, List.append_assoc]

theorem digitChar_inj {k l : Nat} (small : k < 16) (small' : l < 16)
    (same : k.digitChar = l.digitChar) : k = l := by
  have all : ∀ k l : Fin 16, Nat.digitChar k = Nat.digitChar l → k = l := by decide
  exact congrArg Fin.val (all ⟨k, small⟩ ⟨l, small'⟩ same)

theorem hexText_inj {width n m : Nat} (some : 0 < width) (same : hexText width n = hexText width m)
    (n_lt : n < 16 ^ width) (m_lt : m < 16 ^ width) : n = m := by
  induction width, some using Nat.le_induction generalizing n m with
  | base =>
    have digit {k : Nat} (small : k < 16) : hexText 1 k = [k.digitChar] := by
      rw [hexText, Nat.toDigits_of_lt_base small]
      rfl
    rw [digit n_lt, digit m_lt] at same
    exact digitChar_inj n_lt m_lt (List.singleton_inj.mp same)
  | succ width some ih =>
    rw [hexText_succ some, hexText_succ some] at same
    obtain ⟨high, low⟩ := List.append_inj' same rfl
    have high := ih high (by omega) (by omega)
    have low := digitChar_inj (Nat.mod_lt _ (by decide)) (Nat.mod_lt _ (by decide))
      (List.singleton_inj.mp low)
    omega

theorem length_hexText {width n : Nat} (some : 0 < width) (fits : n < 16 ^ width) :
    (hexText width n).length = width := by
  have := (Nat.length_toDigits_le_iff (by decide) some).mpr fits
  rw [hexText, padded, List.length_append, List.length_replicate]
  omega

theorem toNat_inj_of_hexText {width : Nat} {a b : Char} {r s : Text} (some : 0 < width)
    (a_fits : a.toNat < 16 ^ width) (b_fits : b.toNat < 16 ^ width)
    (same : hexText width a.toNat ++ r = hexText width b.toNat ++ s) : a = b ∧ r = s := by
  obtain ⟨digits, rest⟩ := List.append_inj same
    (by rw [length_hexText some a_fits, length_hexText some b_fits])
  exact ⟨Char.toNat_inj.mp (hexText_inj some digits a_fits b_fits), rest⟩

/-- What may stand after a backslash for a character: a letter and the digits that it calls for. -/
inductive Escape (delim c : Char) : Char → Text → Prop
  | itself : c = '\\' ∨ c = delim → Escape delim c c []
  | newline : c = '\n' → Escape delim c 'n' []
  | return : c = '\r' → Escape delim c 'r' []
  | tab : c = '\t' → Escape delim c 't' []
  | two : c.toNat < 16 ^ 2 → Escape delim c 'x' (hexText 2 c.toNat)
  | four : c.toNat < 16 ^ 4 → Escape delim c 'u' (hexText 4 c.toNat)
  | eight : c.toNat < 16 ^ 8 → Escape delim c 'U' (hexText 8 c.toNat)

/-- Neither quotation mark is a letter of an escape. -/
def IsDelimiter (delim : Char) : Prop := delim = '\'' ∨ delim = '"'

theorem isDelimiter_delimiter (t : Text) : IsDelimiter (delimiter t) := by
  rw [delimiter]
  split
  · exact Or.inr rfl
  · exact Or.inl rfl

variable {delim : Char}

theorem Escape.unique (quote : IsDelimiter delim) {a b letter : Char} {digits digits' r s : Text}
    (h : Escape delim a letter digits) (h' : Escape delim b letter digits')
    (same : digits ++ r = digits' ++ s) : a = b ∧ r = s := by
  have notLetter {c : Char} (itself : c = '\\' ∨ c = delim) :
      c ∉ ['n', 'r', 't', 'x', 'u', 'U'] := by
    rcases itself with rfl | rfl
    · decide
    · rcases quote with rfl | rfl <;> decide
  cases h with
  | itself special =>
    have not := notLetter special
    cases h' with
    | itself _ => exact ⟨rfl, same⟩
    | _ => simp at not
  | newline h =>
    cases h' with
    | itself special => exact absurd (notLetter special) (by simp)
    | newline h' => exact ⟨h.trans h'.symm, same⟩
  | «return» h =>
    cases h' with
    | itself special => exact absurd (notLetter special) (by simp)
    | «return» h' => exact ⟨h.trans h'.symm, same⟩
  | tab h =>
    cases h' with
    | itself special => exact absurd (notLetter special) (by simp)
    | tab h' => exact ⟨h.trans h'.symm, same⟩
  | two fits =>
    cases h' with
    | itself special => exact absurd (notLetter special) (by simp)
    | two fits' => exact toNat_inj_of_hexText (by decide) fits fits' same
  | four fits =>
    cases h' with
    | itself special => exact absurd (notLetter special) (by simp)
    | four fits' => exact toNat_inj_of_hexText (by decide) fits fits' same
  | eight fits =>
    cases h' with
    | itself special => exact absurd (notLetter special) (by simp)
    | eight fits' => exact toNat_inj_of_hexText (by decide) fits fits' same

theorem codePointEscape_cases (delim c : Char) :
    ∃ letter digits, codePointEscape c.toNat = '\\' :: letter :: digits ∧
      Escape delim c letter digits := by
  rw [codePointEscape]
  split
  next fits => exact ⟨_, _, rfl, .two fits⟩
  · split
    next fits => exact ⟨_, _, rfl, .four fits⟩
    · exact ⟨_, _, rfl, .eight c.val.toNat_lt⟩

/-- A character is shown by itself, or after a backslash. -/
theorem quotedChar_cases (delim c : Char) :
    (quotedChar delim c = [c] ∧ c ≠ '\\' ∧ c ≠ delim) ∨
      ∃ letter digits, quotedChar delim c = '\\' :: letter :: digits ∧
        Escape delim c letter digits := by
  rw [quotedChar]
  split
  next special => exact Or.inr ⟨_, _, rfl, .itself special⟩
  next plain =>
    split
    next h => exact Or.inr ⟨_, _, rfl, .newline h⟩
    · split
      next h => exact Or.inr ⟨_, _, rfl, .return h⟩
      · split
        next h => exact Or.inr ⟨_, _, rfl, .tab h⟩
        · split
          · exact Or.inl ⟨rfl, not_or.mp plain⟩
          · exact Or.inr (codePointEscape_cases delim c)

theorem selfDelimiting_quotedChar (quote : IsDelimiter delim) (c : Char) :
    SelfDelimiting (quotedChar delim) c := by
  intro b r s same
  rcases quotedChar_cases delim c with ⟨shown, plain, _⟩ | ⟨letter, digits, shown, escape⟩
  · rw [shown] at same
    rcases quotedChar_cases delim b with ⟨shown', _, _⟩ | ⟨letter', digits', shown', _⟩
    · rw [shown'] at same
      exact List.cons.inj same
    · rw [shown'] at same
      exact absurd (List.cons.inj same).1 plain
  · rw [shown] at same
    rcases quotedChar_cases delim b with ⟨shown', plain', _⟩ | ⟨letter', digits', shown', escape'⟩
    · rw [shown'] at same
      exact absurd (List.cons.inj same).1.symm plain'
    · rw [shown'] at same
      obtain ⟨rfl, rest⟩ := List.cons.inj (List.cons.inj same).2
      exact escape.unique quote escape' rest

theorem quotedChar_append_ne (quote : IsDelimiter delim) (c : Char) (r s : Text) :
    quotedChar delim c ++ r ≠ delim :: s := by
  intro same
  rcases quotedChar_cases delim c with ⟨shown, _, plain⟩ | ⟨letter, digits, shown, _⟩
  · rw [shown] at same
    exact plain (List.cons.inj same).1
  · rw [shown] at same
    rcases quote with rfl | rfl <;> cases (List.cons.inj same).1

/-- The first character tells the delimiter. -/
theorem selfDelimiting_quotedText (t : Text) : SelfDelimiting quotedText t := by
  intro t' r s same
  injection same with first rest
  have quote := isDelimiter_delimiter t
  -- the other text has the same delimiter, so both are lists of characters closed by it
  rw [← first] at rest
  exact SelfDelimiting.list (fun c _ => selfDelimiting_quotedChar quote c)
    (quotedChar_append_ne quote) rest

theorem quotedText_append_ne (t r s : Text) : quotedText t ++ r ≠ ']' :: s := by
  intro same
  injection same with first _
  rcases isDelimiter_delimiter t with quote | quote <;> cases quote.symm.trans first

/-! ### Numbers -/

theorem numberText_astray (neg : Bool) :
    numberText (.real neg astray) ≠ numberText (.real neg ⟨0x15ae43fe, by decide⟩) := by
  cases neg <;> decide +kernel

/-- Reading takes two numbers for one. They are neighbours, and are written with different digits. -/
theorem numberText_injective : Function.Injective numberText := by
  intro v w same
  have back : reread v = reread w := by
    refine Option.some.inj ?_
    rw [← singleOfText?_numberText, ← singleOfText?_numberText, same]
  cases v with
  | nan =>
    cases w with
    | nan => rfl
    | real neg k => cases back
  | real neg k =>
    cases w with
    | nan => cases back
    | real neg' l =>
      obtain ⟨rfl, mags⟩ := Binary.real.inj back
      by_cases first : k = astray
      · by_cases second : l = astray
        · rw [first, second]
        · rw [if_pos first, if_neg second] at mags
          rw [first, ← mags] at same
          exact absurd same (numberText_astray neg)
      · by_cases second : l = astray
        · rw [if_neg first, if_pos second] at mags
          rw [second, mags] at same
          exact absurd same.symm (numberText_astray neg)
        · rw [if_neg first, if_neg second] at mags
          rw [mags]

theorem notMem_numberText (v : Single) : ')' ∉ numberText v :=
  fun mem => (isPlain_numberText mem).notStop (Or.inr (Or.inr rfl))

theorem selfDelimiting_numberText (v : Single) :
    SelfDelimiting (fun v => numberText v ++ [')']) v := by
  intro w r s same
  simp only [List.append_assoc, List.singleton_append] at same
  have texts : numberText v = numberText w := by
    have cut (v : Single) (r : Text) :
        (numberText v ++ ')' :: r).takeWhile (· ≠ ')') = numberText v := by
      rw [List.takeWhile_append_of_pos]
      · simp
      · intro c mem
        exact decide_eq_true fun stop => notMem_numberText v (stop ▸ mem)
    rw [← cut v r, same, cut]
  rw [texts] at same
  exact ⟨numberText_injective texts, List.tail_eq_of_cons_eq (List.append_cancel_left same)⟩

/-! ### Data -/

namespace Datum

/-- Neither a function of the host nor a payload occurs in it, in function bodies either. -/
inductive HostFree : Datum → Prop
  | nil : HostFree nil
  | truth : HostFree truth
  | number (v : Single) : HostFree (number v)
  | char (c : Char) : HostFree (char c)
  | symbol (name : Text) : HostFree (symbol name)
  | quoted {d : Datum} : HostFree d → HostFree (quoted d)
  | pair {h t : Datum} : HostFree h → HostFree t → HostFree (pair h t)
  | func (params : List Text) {body : List Datum} : (∀ d ∈ body, HostFree d) →
      HostFree (func params body)

/-- Two characters tell the variants apart. -/
def initials : Datum → Text
  | nil => ['N', 'i']
  | truth => ['T', 'r']
  | number _ => ['N', 'u']
  | char _ => ['C', 'h']
  | symbol _ => ['S', 'y']
  | quoted _ => ['Q', 'u']
  | pair _ _ => ['P', 'a']
  | func _ _ => ['L', 'i']
  | native _ => ['N', 'a']
  | payload _ => ['O', 'p']

theorem take_raw (d : Datum) (r : Text) : (raw d ++ r).take 2 = d.initials := by
  cases d with
  | native f => cases f <;> rfl
  | _ => rfl

theorem initials_eq {a b : Datum} {r s : Text} (same : raw a ++ r = raw b ++ s) :
    a.initials = b.initials := by
  rw [← take_raw a r, same, take_raw]

theorem raw_append_ne (d : Datum) (r s : Text) : raw d ++ r ≠ ']' :: s := by
  intro same
  have begins := take_raw d r
  rw [same] at begins
  cases d <;> cases begins

theorem commaList_cons (t : Text) (ts : List Text) :
    commaList (t :: ts) = '[' :: (t ++ (ts.flatMap (", ".toList ++ ·) ++ [']'])) := by
  have joined : ", ".toList.intercalate (t :: ts) = t ++ ts.flatMap (", ".toList ++ ·) := by
    induction ts generalizing t with
    | nil => simp
    | cons u us ih => rw [List.intercalate_cons_cons, ih, List.flatMap_cons]; simp
  rw [commaList, joined, List.cons_append, List.append_assoc]

/-- A comma stands before every member but the first. -/
theorem selfDelimiting_commaList {α : Type} {write : α → Text} {as : List α}
    (members : ∀ a ∈ as, SelfDelimiting write a) (apart : ∀ a r s, write a ++ r ≠ ']' :: s) :
    SelfDelimiting (fun as => commaList (as.map write)) as := by
  intro bs r s same
  have written (a : α) (as : List α) : commaList ((a :: as).map write) =
      '[' :: (write a ++ (as.flatMap (fun a => ", ".toList ++ write a) ++ [']'])) := by
    rw [List.map_cons, commaList_cons, List.flatMap_map]
  have others {a : α} {as : List α} (members : ∀ c ∈ a :: as, SelfDelimiting write c) :
      SelfDelimiting (fun as => as.flatMap (fun a => ", ".toList ++ write a) ++ [']']) as := by
    refine .list (fun c mem => (members c (List.mem_cons_of_mem _ mem)).after _) ?_
    intro c r s same
    cases same
  cases as with
  | nil =>
    cases bs with
    | nil => exact ⟨rfl, List.append_cancel_left same⟩
    | cons b bs =>
      simp only [written, List.cons_append, List.append_assoc] at same
      exact absurd (List.tail_eq_of_cons_eq same).symm (apart b _ _)
  | cons a as =>
    cases bs with
    | nil =>
      simp only [written, List.cons_append, List.append_assoc] at same
      exact absurd (List.tail_eq_of_cons_eq same) (apart a _ _)
    | cons b bs =>
      simp only [written, List.cons_append] at same
      rw [List.append_assoc, List.append_assoc (write b)] at same
      obtain ⟨rfl, after⟩ := members a List.mem_cons_self (List.tail_eq_of_cons_eq same)
      obtain ⟨rfl, rest⟩ := others members after
      exact ⟨rfl, rest⟩

theorem rawForms_eq_map (ds : List Datum) : rawForms ds = ds.map raw := by
  induction ds with
  | nil => rfl
  | cons d ds ih => rw [rawForms, ih, List.map_cons]

theorem raw_func (params : List Text) (body : List Datum) :
    raw (func params body) = "LispFunc(".toList ++ commaList (params.map quotedText) ++
      ", ".toList ++ commaList (body.map raw) ++ [')'] := by
  rw [← rawForms_eq_map]
  rfl

end Datum

/-- For a variant of its own, it is enough that what it holds is self-delimiting. -/
theorem SelfDelimiting.variant {α : Type} {write : α → Text} {a : α}
    (held : SelfDelimiting write a) (make : α → Datum) (raw_make : ∀ a, (make a).raw = write a)
    (only : ∀ b, b.initials = (make a).initials → ∃ c, b = make c) :
    SelfDelimiting Datum.raw (make a) := by
  intro b r s same
  obtain ⟨c, rfl⟩ := only b (Datum.initials_eq same).symm
  rw [raw_make, raw_make] at same
  obtain ⟨rfl, rest⟩ := held same
  exact ⟨rfl, rest⟩

namespace Datum

theorem selfDelimiting_raw {d : Datum} (free : HostFree d) : SelfDelimiting raw d := by
  induction free with
  | nil =>
    intro b r s same
    cases b <;> first | exact ⟨rfl, List.append_cancel_left same⟩ | cases initials_eq same
  | truth =>
    intro b r s same
    cases b <;> first | exact ⟨rfl, List.append_cancel_left same⟩ | cases initials_eq same
  | number v =>
    refine ((selfDelimiting_numberText v).after "Number(".toList).variant number
      (fun v => List.append_assoc _ _ _) fun b same => ?_
    cases b <;> first | exact ⟨_, rfl⟩ | cases same
  | char c =>
    have one : SelfDelimiting (fun c => quotedText [c]) c := fun _ _ _ same =>
      (selfDelimiting_quotedText [c] same).imp_left List.singleton_inj.mp
    refine (one.enclosed "Character(".toList [')']).variant char (fun _ => rfl) fun b same => ?_
    cases b <;> first | exact ⟨_, rfl⟩ | cases same
  | symbol name =>
    refine ((selfDelimiting_quotedText name).enclosed "Symbol(".toList [')']).variant symbol
      (fun _ => rfl) fun b same => ?_
    cases b <;> first | exact ⟨_, rfl⟩ | cases same
  | quoted _ ih =>
    refine (ih.enclosed "Quoted(".toList [')']).variant quoted (fun _ => rfl) fun b same => ?_
    cases b <;> first | exact ⟨_, rfl⟩ | cases same
  | pair _ _ ihh iht =>
    have two := ((ihh.after "Pair(".toList).pair iht ", ".toList).before [')']
    refine two.variant (fun p => pair p.1 p.2) (fun _ => rfl) fun b same => ?_
    cases b <;> first | exact ⟨(_, _), rfl⟩ | cases same
  | func params _ ih =>
    have names := selfDelimiting_commaList (fun t (_ : t ∈ params) => selfDelimiting_quotedText t)
      fun t r s => quotedText_append_ne t r s
    have forms := selfDelimiting_commaList ih raw_append_ne
    have both := ((names.after "LispFunc(".toList).pair forms ", ".toList).before [')']
    refine both.variant (fun p => func p.1 p.2) (fun p => raw_func p.1 p.2) fun b same => ?_
    cases b <;> first | exact ⟨(_, _), rfl⟩ | cases same

/-- A datum without host functions and payloads has its raw form for itself. Numbers count as one only
if they have the same representation, the sign of a zero included; there is one not-a-number. -/
theorem raw_eq_raw_iff {a b : Datum} (free : HostFree a) : a.raw = b.raw ↔ a = b :=
  ⟨(selfDelimiting_raw free).eq_of_eq, congrArg raw⟩

/-- One parameter that looks like two. -/
theorem raw_lookalike :
    (func ["a', 'b".toList] [nil]).raw = "LispFunc([\"a', 'b\"], [Nil])".toList ∧
      (func [['a'], ['b']] [nil]).raw = "LispFunc(['a', 'b'], [Nil])".toList ∧
      (func [['a'], ['b']] [nil]).HostFree ∧
      (func [['a'], ['b']] [nil]).raw ≠ (func ["a', 'b".toList] [nil]).raw := by
  have free : (func [['a'], ['b']] [nil]).HostFree := by
    refine .func _ fun d mem => ?_
    rw [List.mem_singleton.mp mem]
    exact .nil
  refine ⟨by decide +kernel, by decide +kernel, free, ?_⟩
  rw [Ne, raw_eq_raw_iff free]
  intro same
  cases same

end Datum

end FexprLisp
