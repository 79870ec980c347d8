import FexprLisp.Datum.Printed
import FexprLisp.Datum.Raw

/-!
# Faults

What can be wrong with a text or a program, as causes. A fault leaves the reader or the evaluator
`reported` under one of three kinds. A builtin that a reported fault passes through wraps it in
`native` and reports it again, so layers tell how many builtins it crossed; `root` looks through
them all.
-/

namespace FexprLisp

inductive ArgumentFault where
  | tooMany | notEnough | wrongType | dottedPair
  deriving DecidableEq

inductive FaultKind where
  | reading | evaluating | native
  deriving DecidableEq

inductive Fault where
  | unmatchedToken (token : Text)
  | invalidToken (text : Text)
  | unparsableAtom (text : Text)
  | emptyQuote
  | unknownSymbol (name : Text)
  | globalExists (name : Text)
  | nonFunction (value : Datum)
  | invalidArguments (fault : ArgumentFault)
  | nativeArgument (fault : ArgumentFault)
  | native (cause : Fault)
  | reported (kind : FaultKind) (cause : Fault)

namespace ArgumentFault

def message : ArgumentFault → Text
  | tooMany => "Too many arguments".toList
  | notEnough => "Not enough arguments".toList
  | wrongType => "Arguments of wrong type".toList
  | dottedPair => "Dotted-pair arguments not accepted".toList

def label : ArgumentFault → Text
  | tooMany => "TOO_MANY".toList
  | notEnough => "NOT_ENOUGH".toList
  | wrongType => "WRONG_TYPE".toList
  | dottedPair => "DOTTED_PAIR".toList

def raw (f : ArgumentFault) : Text :=
  "<ArgumentsError.".toList ++ f.label ++ ": '".toList ++ f.message ++ "'>".toList

end ArgumentFault

namespace FaultKind

def label : FaultKind → Text
  | reading => "PARSER".toList
  | evaluating => "EVAL".toList
  | native => "NATIVE_FUNC".toList

end FaultKind

namespace Fault

/-- The fault as told to a user. -/
def message : Fault → Text
  | unmatchedToken t => "Unmatched token: '".toList ++ t ++ ['\'']
  | invalidToken t => "Invalid token: '".toList ++ t ++ ['\'']
  | unparsableAtom t => "Unparsable atom: ".toList ++ t
  | emptyQuote => "Empty quote".toList
  | unknownSymbol n => "Unknown symbol: ".toList ++ n
  | globalExists n => "Global already exists: ".toList ++ n
  | nonFunction v => "Attempt to call non-function: ".toList ++ v.printed
  | invalidArguments f => "Error running function: Invalid arguments: ".toList ++ f.message
  | nativeArgument f => f.message
  | native c => message c
  | reported .reading c => "Error parsing code: ".toList ++ message c
  | reported .evaluating c => "Error evaluating object: ".toList ++ message c
  | reported .native c => message c

/-- The name of the cause in raw forms. -/
def label : Fault → Text
  | unmatchedToken _ => "UnmatchedToken".toList
  | invalidToken _ => "InvalidToken".toList
  | unparsableAtom _ => "UnparsableAtom".toList
  | emptyQuote => "EmptyQuote".toList
  | unknownSymbol _ => "UnknownSymbol".toList
  | globalExists _ => "GlobalExists".toList
  | nonFunction _ => "NonFunction".toList
  | invalidArguments _ => "InvalidArguments".toList
  | nativeArgument _ => "NativeFuncError".toList
  | native _ => "NativeFuncError".toList
  | reported _ _ => "LispError".toList

/-- The raw form of a fault with these contents. -/
def labelled (f : Fault) (contents : Text) : Text := f.label ++ '(' :: contents ++ [')']

def raw : Fault → Text
  | unmatchedToken t => labelled (unmatchedToken t) (quotedText t)
  | invalidToken t => labelled (invalidToken t) (quotedText t)
  | unparsableAtom t => labelled (unparsableAtom t) (quotedText t)
  | emptyQuote => labelled emptyQuote []
  | unknownSymbol n => labelled (unknownSymbol n) (quotedText n)
  | globalExists n => labelled (globalExists n) (quotedText n)
  | nonFunction v => labelled (nonFunction v) v.raw
  | invalidArguments f => labelled (invalidArguments f) f.raw
  | nativeArgument f => labelled (nativeArgument f) f.raw
  | native c => labelled (native c) (raw c)
  | reported k c => labelled (reported k c) (k.label ++ ", ".toList ++ raw c)

/-- The innermost cause behind any number of reports. -/
def root : Fault → Fault
  | reported _ c => root c
  | native (reported _ c) => root c
  | f => f

/-- A fault of the reader, as the reader reports it. -/
def unreadable (cause : Fault) : Fault := reported .reading cause

/-- A fault of an evaluation step. -/
def unevaluable (cause : Fault) : Fault := reported .evaluating cause

/-- A builtin's complaint about its arguments, already reported. -/
def badArguments (f : ArgumentFault) : Fault := reported .native (invalidArguments f)

/-- One more layer: a builtin that a reported fault passes through. -/
def wrap (f : Fault) : Fault := reported .native (native f)

/-- What a call of a builtin makes of a fault that its body ends in. -/
def escaping : Fault → Fault
  | reported k c => wrap (reported k c)
  | invalidArguments f => reported .native (invalidArguments f)
  | nativeArgument f => reported .native (nativeArgument f)
  | native c => reported .native (native c)
  | f => f

end Fault

end FexprLisp
