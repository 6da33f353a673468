import LispLua.Term.Basic

/-!
# Faults of a program

A `Cause` says why a program is refused, a `Fault` adds the place. The wording of every message
stands in `Cause.message`, and `Cause.category` sorts the causes into the classes a user sees.
-/

namespace LispLua

/-- The classes of reasons for refusing a program. -/
inductive Category where
  /-- The text cannot be read. -/
  | unreadable
  /-- A form has the wrong number or kind of arguments. -/
  | malformed
  /-- A name is not bound. -/
  | unbound (name : String)
  /-- An effect or a definition inside a pure function. -/
  | impure
  /-- A name is declared twice, or specifiers contradict each other. -/
  | mistyped
  /-- A special form is reached through something other than its plain name. -/
  | misused
  /-- The compiler cannot go on, though the program may be right. -/
  | internal
  deriving DecidableEq, Inhabited

/-- Why a program is refused. -/
inductive Cause where
  -- reading
  | malformedCall
  | unexpected (c : Char)
  -- names and values
  | unbound (name : String)
  | wildcardValue
  | wildcardText (text : String)
  | boundAccess (expected found : String)
  | formAsValue (name : String)
  | optionalAccess
  | formAccess (name : String)
  -- calls
  | effectInPure
  | badTarget (shape : Term.Shape)
  | noFunctionFor (name : String)
  | unfinished
  -- let
  | letVector
  | letMissing
  | letOdd
  | letPattern (shape : Term.Shape)
  | pattern (shape : Term.Shape)
  -- if, when, for, catch
  | ifArity
  | whenMissing
  | whenOdd
  | forVector
  | forArity
  | forItem
  | forKey
  | catchVector
  | catchName
  -- definitions and functions
  | valueInPure
  | functionInPure
  | impureValue
  | definitionShape
  | functionArity
  | functionName
  | functionVector
  | lambdaVector
  | parameterName
  | afterTail
  | danglingTail
  | redeclared (name : String)
  -- modules and outside names
  | importMissing
  | importSource (shape : Term.Shape)
  | importShape
  | importSymbol (found : String)
  | importFrom
  | importName
  | importBinding (shape : Term.Shape)
  | moduleName (shape : Term.Shape)
  | moduleMissing
  | moduleTail
  | moduleArity
  | moduleImport
  | declareInPure
  | declareTerm
  | specifier (text : String)
  | specifierTwice (text : String)
  | pureAndImpure
  -- operators and sugar
  | operatorArity (operator : String)
  | notArity
  | parityArity
  | threadMissing
  | threadStage (shape : Term.Shape)
  deriving DecidableEq, Inhabited

namespace Cause

/-- The class a cause belongs to. -/
def category : Cause → Category
  | malformedCall | unexpected _ => .unreadable
  | unbound name => .unbound name
  | effectInPure | valueInPure | functionInPure | declareInPure => .impure
  | redeclared _ | specifierTwice _ | pureAndImpure => .mistyped
  | formAccess _ => .misused
  | badTarget _ | noFunctionFor _ | unfinished => .internal
  | _ => .malformed

/-- What a user is told about a cause. -/
def message : Cause → String
  | malformedCall => "Malformed expression, check the arguments and the closing parenthesis."
  | unexpected c => "Unexpected `" ++ String.singleton c ++ "`, expecting an invocation."
  | unbound name => "Undefined reference to '" ++ name ++ "'"
  | wildcardValue => "Unexpected wildcard symbol."
  | wildcardText text => "Unexpected token " ++ text
  | boundAccess expected found =>
    "Except for function calls, all property access must be unbounded (using the :: operator), " ++
      "expecting \"" ++ expected ++ "\" but saw \"" ++ found ++ "\""
  | formAsValue name => "Macro `" ++ name ++ "` can't be used as a value!"
  | optionalAccess =>
    "Null-coalescing access expressions are not supported, reserved for a future use. " ++
      "Remove the '?' symbol."
  | formAccess name =>
    "Attempting to expand macro `" ++ name ++ "` with an invalid name! " ++
      "Symbols and access expressions are not allowed as macro names."
  | effectInPure => "Impure functions cannot be invoked from a pure context!"
  | badTarget shape =>
    "Attempting to generate a function call outside the boundaries of a valid target, found " ++
      shape.label ++ "."
  | noFunctionFor name =>
    "Invalid use of fallback macro checker: no fallback defined for `" ++ name ++ "`."
  | unfinished => "The expansion of a form did not come to an end."
  | letVector => "Let's first argument must be a binding vector!"
  | letMissing => "Let expects a binding vector!"
  | letOdd => "Let binding vectors must contain name and value pairs!"
  | letPattern shape =>
    "Let binding pairs must start with names or destructuring expressions! found " ++ shape.label
  | pattern shape =>
    "Destructuring expressions can only contain names or destructuring expressions! found " ++
      shape.label
  | ifArity => "If expects a condition, a branch and an optional else branch!"
  | whenMissing => "When expects a value to match!"
  | whenOdd => "When match expressions must be in pairs! Found stray key at the end of the block."
  | forVector => "For loop first argument must be a binding vector!"
  | forArity => "For loop binding vector must have either two or three arguments."
  | forItem => "For loop binding vector's first argument must be a name!"
  | forKey => "If looping in pairs the second argument (the key) must be also a name!"
  | catchVector => "Catch first argument must be a binding vector with one argument!"
  | catchName => "Catch's first binding element must be a name!"
  | valueInPure => "Value definition cannot be done from pure context."
  | functionInPure => "Cannot define new functions inside a pure context!"
  | impureValue => "Values can't be impure, use `def` for values."
  | definitionShape =>
    "Definitions must start with a name followed by a value or a binding vector!"
  | functionArity => "Function definitions need at least a name and a binding vector!"
  | functionName => "First argument of a function definition should be a name!"
  | functionVector => "Missing binding vector!"
  | lambdaVector => "Function expression's first argument must be a binding vector!"
  | parameterName => "Binding vectors should contain only names!"
  | afterTail => "Unexpected token after variadic binder. Only one name allowed after '&'."
  | danglingTail => "Expected a name after the variadic binder '&'."
  | redeclared name => "Attempting to redeclare " ++ name ++ "!"
  | importMissing => "Import expects a module to import!"
  | importSource shape =>
    "Unexpected " ++ shape.label ++ " found as import source, expecting a string or a name."
  | importShape => "Import expects either a module or a binding followed by `:from` and a module!"
  | importSymbol found =>
    "Import's second argument is a symbol: expected ':from' but found ':" ++ found ++ "'"
  | importFrom => "Import's second argument must be the symbol :from!"
  | importName => "Import binding vectors expect names only."
  | importBinding shape =>
    "Unexpected " ++ shape.label ++
      " found as first import argument. Expecting name or binding vector."
  | moduleName shape => "Module names should be valid identifiers, found " ++ shape.label ++ "."
  | moduleMissing => "Module declaration must contain at least the name of the module."
  | moduleTail => "Module declaration tail arguments can only contain import lists."
  | moduleArity => "Module's import lists contains wrong number of arguments, expected 2 or 4."
  | moduleImport => "Import lists must start with :import!"
  | declareInPure => "Extern definition cannot be done from pure context."
  | declareTerm => "Only names and meta-specifiers are allowed in extern definitions!"
  | specifier text => "Unexpected meta-specifier found: \"" ++ text ++ "\""
  | specifierTwice text => text ++ " meta-specifier was already declared."
  | pureAndImpure => "Extern symbols can't be both pure and impure."
  | operatorArity operator => "Operator " ++ operator ++ " needs at least two arguments!"
  | notArity => "Not operator only accepts one argument!"
  | parityArity => "XOR function accepts at least one argument."
  | threadMissing => "Threading needs an initial value!"
  | threadStage shape => "Threading stages must be invocations, found " ++ shape.label

end Cause

/-- A reason for refusing a program, and the span it is reported at. -/
structure Fault where
  cause : Cause
  span : Span
  deriving DecidableEq, Inhabited

end LispLua
