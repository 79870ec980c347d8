import FexprLisp.Datum
import FexprLisp.Number.Shortest
import FexprLisp.Text.Quoted

/-!
The raw form, which names the variant of every datum, nests pairs to the right and quotes names. It
is not for reading back; two data that differ have different raw forms.
-/

namespace FexprLisp

/-- The raw form of a function of the host or of the language. -/
def Native.raw : Native → Text
  | nameless label => "NativeFunc(".toList ++ label ++ [')']
  | f => "NativeFunc(".toList ++ quotedText f.name ++ [')']

namespace Datum

def commaList (items : List Text) : Text := '[' :: ", ".toList.intercalate items ++ [']']

mutual
/-- The raw form. -/
def raw : Datum → Text
  | nil => "Nil".toList
  | truth => "True".toList
  | number v => "Number(".toList ++ numberText v ++ [')']
  | char c => "Character(".toList ++ quotedText [c] ++ [')']
  | symbol name => "Symbol(".toList ++ quotedText name ++ [')']
  | quoted d => "Quoted(".toList ++ raw d ++ [')']
  | pair h t => "Pair(".toList ++ raw h ++ ", ".toList ++ raw t ++ [')']
  | func params body =>
    "LispFunc(".toList ++ commaList (params.map quotedText) ++ ", ".toList ++
      commaList (rawForms body) ++ [')']
  | native f => f.raw
  | payload label => "Opaque(".toList ++ label ++ [')']

/-- The raw forms of the members of a body. -/
def rawForms : List Datum → List Text
  | [] => []
  | d :: ds => raw d :: rawForms ds
end

end Datum

end FexprLisp
