import FexprLisp.Text.Printable

/-!
Quoted text in raw forms: delimited by `'`, or by `"` when the text holds a `'` and no `"`.
The backslash and the delimiter are written after a backslash, three control characters by
name, other unprintable characters by code point, and everything else as itself.
-/

namespace FexprLisp

def delimiter (t : Text) : Char :=
  if '\'' ∈ t ∧ '"' ∉ t then '"' else '\''

/-- Two, four or eight hexadecimal digits, whichever is the first to fit. -/
def codePointEscape (n : Nat) : Text :=
  if n < 0x100 then '\\' :: 'x' :: hexText 2 n
  else if n < 0x10000 then '\\' :: 'u' :: hexText 4 n
  else '\\' :: 'U' :: hexText 8 n

def quotedChar (delim c : Char) : Text :=
  if c = '\\' ∨ c = delim then ['\\', c]
  else if c = '\n' then ['\\', 'n']
  else if c = '\r' then ['\\', 'r']
  else if c = '\t' then ['\\', 't']
  else if isPrintable c then [c]
  else codePointEscape c.toNat

def quotedText (t : Text) : Text :=
  let d := delimiter t
  d :: t.flatMap (quotedChar d) ++ [d]

example : quotedText "it's".toList = "\"it's\"".toList := by decide +kernel

example : quotedText ['\\', '\n', '\x7f'] = "'\\\\\\n\\x7f'".toList := by decide +kernel

end FexprLisp
