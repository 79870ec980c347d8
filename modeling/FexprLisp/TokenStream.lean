import FexprLisp.Reader

/-!
# Reading piecemeal

A host may take tokens and forms from a text one at a time, in any order, and go on after a fault.
`Reader.parse` and `Reader.parseAll` read from any source of tokens that can be peeked at and
advanced. There are two sources: `TokenStream` lexes its text on demand and keeps a token that was
only peeked at, and `Cursor` is a position in a list of tokens made beforehand.
-/

namespace FexprLisp

/-- A source of tokens. `none` is its end. A fault is met once, and the end after it. -/
class TokenSource (σ : Type) where
  /-- Decreases with every token that is taken after it was seen. -/
  size : σ → Nat
  peek : σ → Except Fault (Option Token) × σ
  advance : σ → Except Fault (Option Token) × σ
  advance_lt : ∀ {s s' : σ} {t : Token}, peek s = (.ok (some t), s') → size (advance s').2 < size s

namespace Reader

variable {σ : Type} [TokenSource σ]

open TokenSource

/-- Read on from a state until its outermost form is finished; `none` when there is no form. -/
def parse (state : State) (s : σ) : Except Fault (Option Datum) × σ :=
  match _h : peek s with
  | (.error f, s') => (.error f, s')
  | (.ok none, s') =>
    match state.atEnd with
    | some f => (.error f, s')
    | none => (.ok none, s')
  | (.ok (some t), s') =>
    match state.move t with
    | .next state' => parse state' (advance s').2
    | .finish d => (.ok (some d), (advance s').2)
    | .spoil f => (.error f, (advance s').2)
    | .refuse f => (.error f, s')
termination_by size s
decreasing_by exact advance_lt _h

/-- Read forms until the source ends or a fault is met. -/
def parseAll (state : State) (s : σ) : Reading × σ :=
  match _h : peek s with
  | (.error f, s') => (⟨[], some f⟩, s')
  | (.ok none, s') => (⟨[], state.atEnd⟩, s')
  | (.ok (some t), s') =>
    match state.move t with
    | .next state' => parseAll state' (advance s').2
    | .finish d =>
      let (r, s'') := parseAll idle (advance s').2
      (r.push d, s'')
    | .spoil f => (⟨[], some f⟩, (advance s').2)
    | .refuse f => (⟨[], some f⟩, s')
termination_by size s
decreasing_by all_goals exact advance_lt _h

/-- The state in which a list reader starts, its opening parenthesis being read already. -/
def insideList : State := .waiting [.list []]

/-- The state in which a terminator reader starts, the point being read already. -/
def insideTail : State := .waiting [.tail []]

end Reader

/-- What a stream takes its tokens from. -/
inductive Supply where
  | text (rest : Text)
  | tokens (rest : List Token)

namespace Supply

def next : Supply → Except Fault (Option Token) × Supply
  | text s =>
    match Token.step s with
    | .done => (.ok none, tokens [])
    | .openString => (.error openStringFault, tokens [])
    | .token t rest => (.ok (some t), text rest)
  | tokens [] => (.ok none, tokens [])
  | tokens (t :: ts) => (.ok (some t), tokens ts)

def size : Supply → Nat
  | text s => s.length
  | tokens ts => ts.length

theorem size_of_next {s s' : Supply} {t : Token} (h : s.next = (.ok (some t), s')) :
    s'.size < s.size := by
  fun_cases next s <;> simp_all [next]
  · obtain ⟨rfl, rfl⟩ := h
    exact Token.length_of_step ‹_›
  · simp [← h.2, size]

end Supply

/-- Tokens on demand. The buffer holds what was peeked at and not taken. -/
structure TokenStream where
  supply : Supply
  buffer : List Token

namespace TokenStream

def ofText (s : Text) : TokenStream := ⟨.text s, []⟩

def ofTokens (ts : List Token) : TokenStream := ⟨.tokens ts, []⟩

def peek (s : TokenStream) : Except Fault (Option Token) × TokenStream :=
  match s.buffer with
  | t :: _ => (.ok (some t), s)
  | [] =>
    match s.supply.next with
    | (.ok (some t), rest) => (.ok (some t), ⟨rest, [t]⟩)
    | (r, rest) => (r, ⟨rest, []⟩)

def advance (s : TokenStream) : Except Fault (Option Token) × TokenStream :=
  match s.buffer with
  | t :: ts => (.ok (some t), { s with buffer := ts })
  | [] =>
    let (r, rest) := s.supply.next
    (r, ⟨rest, []⟩)

def size (s : TokenStream) : Nat := s.supply.size + s.buffer.length

theorem size_of_advance {s s' : TokenStream} {t : Token} (h : s.peek = (.ok (some t), s')) :
    s'.advance.2.size < s.size := by
  obtain ⟨supply, buffer⟩ := s
  cases buffer with
  | cons b bs =>
    simp only [peek, Prod.mk.injEq] at h
    obtain ⟨_, rfl⟩ := h
    simp [advance, size]
  | nil =>
    simp only [peek] at h
    split at h
    next t' rest heq =>
      cases h
      have := Supply.size_of_next heq
      simpa [advance, size] using this
    next r rest hne _ =>
      cases h
      exact (hne t rfl).elim

instance : TokenSource TokenStream := ⟨size, peek, advance, size_of_advance⟩

end TokenStream

/-- A position in a list of tokens, with the fault that waits at its end. -/
structure Cursor where
  rest : List Token
  openString : Bool

namespace Cursor

def ofText (s : Text) : Cursor :=
  let l := lex s
  ⟨l.tokens, l.openString⟩

def ofTokens (ts : List Token) : Cursor := ⟨ts, false⟩

/-- The end of the tokens: the fault, if it was not met yet. -/
def atEnd (c : Cursor) : Except Fault (Option Token) × Cursor :=
  (if c.openString then .error openStringFault else .ok none, ⟨[], false⟩)

def peek (c : Cursor) : Except Fault (Option Token) × Cursor :=
  match c.rest with
  | t :: _ => (.ok (some t), c)
  | [] => c.atEnd

def advance (c : Cursor) : Except Fault (Option Token) × Cursor :=
  match c.rest with
  | t :: ts => (.ok (some t), { c with rest := ts })
  | [] => c.atEnd

theorem length_of_advance {c c' : Cursor} {t : Token} (h : c.peek = (.ok (some t), c')) :
    c'.advance.2.rest.length < c.rest.length := by
  obtain ⟨rest, o⟩ := c
  cases rest with
  | nil => cases o <;> simp [peek, atEnd] at h
  | cons b bs =>
    simp only [peek, Prod.mk.injEq] at h
    obtain ⟨_, rfl⟩ := h
    simp [advance]

instance : TokenSource Cursor := ⟨fun c => c.rest.length, peek, advance, length_of_advance⟩

end Cursor

end FexprLisp
