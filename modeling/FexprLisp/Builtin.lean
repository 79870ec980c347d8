import FexprLisp.Text.Basic

/-!
The functions that the language brings along, as names only. Each receives its arguments
unevaluated, so the binding and control forms are among them.
-/

namespace FexprLisp

/-- The left folds of arithmetic. -/
inductive Operation where
  | add | sub | mul | div | remainder
  deriving DecidableEq

inductive Builtin where
  | quote | evaluate | whileLoop | ifThen | func | defunc | define | assign
  | car | cdr | cons | arithmetic (op : Operation) | equal | notEqual
  | sqrt | exp | power
  | includeFile | read | exit | print | printRaw
  deriving DecidableEq

/-- A function of the language, or one that the host program supplies under a name. A nameless
host function is known by its label only. -/
inductive Native where
  | builtin (b : Builtin)
  | host (name : Text)
  | nameless (label : Text)
  deriving DecidableEq

namespace Operation

def name : Operation → Text
  | add => "add".toList
  | sub => "sub".toList
  | mul => "mul".toList
  | div => "div".toList
  | remainder => "mod".toList

end Operation

namespace Builtin

/-- The name under which a function shows itself, whatever symbol it is bound to. -/
def name : Builtin → Text
  | quote => "quote_form".toList
  | evaluate => "eval_form".toList
  | whileLoop => "while_form".toList
  | ifThen => "if_form".toList
  | func => "func_form".toList
  | defunc => "defunc_form".toList
  | define => "define_form".toList
  | assign => "set_form".toList
  | car => "car".toList
  | cdr => "cdr".toList
  | cons => "cons".toList
  | arithmetic op => op.name
  | equal => "equal".toList
  | notEqual => "not_equal".toList
  | sqrt => "sqrt".toList
  | exp => "exp".toList
  | power => "power".toList
  | includeFile => "include".toList
  | read => "read_form".toList
  | exit => "exit_form".toList
  | print => "print_form".toList
  | printRaw => "print_raw".toList

end Builtin

namespace Native

def name : Native → Text
  | builtin b => b.name
  | host n => n
  | nameless _ => ['?']

end Native

end FexprLisp
