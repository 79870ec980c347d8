import FexprLisp.Text.Quoted

/-!
Paths. A path is written without empty and `.` components; `..` stays. Exactly two leading slashes
are a root of their own, any other number of them is the root `/`. The path of nothing is `.`.
-/

namespace FexprLisp

structure Path where
  root : Text
  parts : List Text
  deriving DecidableEq

namespace Path

def ofText (t : Text) : Path :=
  let rest := t.dropWhile (· = '/')
  let root := match t.length - rest.length with
    | 0 => []
    | 2 => ['/', '/']
    | _ => ['/']
  ⟨root, (splitAt '/' rest).filter fun part => part ≠ [] ∧ part ≠ ['.']⟩

def text (p : Path) : Text :=
  match p.root ++ ['/'].intercalate p.parts with
  | [] => ['.']
  | t => t

def isAbsolute (p : Path) : Bool := p.root ≠ []

/-- `q` as seen from `p`; an absolute `q` stays as it is. -/
def join (p q : Path) : Path :=
  if q.isAbsolute then q else ⟨p.root, p.parts ++ q.parts⟩

example : (join (ofText "lib//x/./".toList) (ofText "../a".toList)).text = "lib/x/../a".toList := by
  decide

end Path

end FexprLisp
