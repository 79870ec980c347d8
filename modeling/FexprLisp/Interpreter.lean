import FexprLisp.Eval

/-!
# Interpreters

The operations of a host on an interpreter: registering the default functions, adding bindings, and
evaluating texts. The default names come in three groups, and each group registers its names in the
order of its table; a name that is taken ends the registration and leaves what was bound before.
-/

namespace FexprLisp

namespace Interpreter

def builtins (entries : List (String × Builtin)) : List (Text × Datum) :=
  entries.map fun e => (e.1.toList, .native (.builtin e.2))

/-- The circle constant, in single precision. -/
def pi : Single := (Numeral.decimal false 3141592653589793 (-15)).toSingle

/-- Constants, control and binding forms, lists, arithmetic and equality. -/
def standardNames : List (Text × Datum) :=
  [ (['t'], .truth), (['f'], .nil), ("nil".toList, .nil), ("pi".toList, .number pi) ] ++
  builtins
    [ ("quote", .quote), ("eval", .evaluate), ("while", .whileLoop), ("if", .ifThen),
      ("func", .func), ("defunc", .defunc), ("def", .define), ("=", .assign), ("set", .assign),
      ("car", .car), ("first", .car), ("cdr", .cdr), ("next", .cdr), ("cons", .cons),
      ("+", .arithmetic .add), ("add", .arithmetic .add),
      ("-", .arithmetic .sub), ("sub", .arithmetic .sub),
      ("*", .arithmetic .mul), ("mul", .arithmetic .mul),
      ("/", .arithmetic .div), ("div", .arithmetic .div),
      ("%", .arithmetic .remainder), ("mod", .arithmetic .remainder),
      ("==", .equal), ("eq", .equal), ("!=", .notEqual), ("ne", .notEqual) ]

def mathsNames : List (Text × Datum) :=
  builtins [ ("sqrt", .sqrt), ("exp", .exp), ("pow", .power), ("^", .power) ]

def systemNames : List (Text × Datum) :=
  builtins
    [ ("include", .includeFile), ("read", .read), ("exit", .exit), ("print", .print),
      ("print-raw", .printRaw) ]

/-- Bind globals in order. -/
def register : List (Text × Datum) → Run Unit
  | [] => pure ()
  | (name, value) :: rest => do
    Forms.bindGlobal name value
    register rest

/-- Register all default names. -/
def registerDefaults : Run Unit := do
  Run.note .interpreter "registering default environments".toList
  register standardNames
  register mathsNames
  register systemNames

def bindLocal (name : Text) (value : Datum) : Run Unit := do
  match (← Run.env).bindLocal? name value with
  | some env => Run.setEnv env
  | none => Run.stop .noFrame

def bind (name : Text) (value : Datum) (isGlobal : Bool) : Run Unit :=
  if isGlobal then Forms.bindGlobal name value else bindLocal name value

/-- Read a text and evaluate its forms in order. Nothing is evaluated unless all of it is
readable. -/
def evalText (host : Host) (fuel : Nat) (code : Text) : Run Datum := do
  evalAll host fuel (← Run.ofExcept (FexprLisp.read code))

/-- The table of globals after registering the default names. -/
def defaultGlobals : Bindings := Bindings.empty.putAll (standardNames ++ mathsNames ++ systemNames)

example : defaultGlobals.size = 41 := by decide +kernel

end Interpreter

end FexprLisp
