import LispLua.Generate.Block

/-!
# Functions and definitions

Every function is emitted as a closure that knows itself. Functions are pure unless a `!` form
defines them; the body of a pure function is lowered in a pure layer.
-/

namespace LispLua.Gen

open Lua

/-- The name behind `&`, which must be the last one. -/
def restParameter (ampersand : Span) : List Term → Gen String
  | [] => refuse .danglingTail ampersand
  | .name t :: [] => registerLocal t
  | .name _ :: .name t :: _ => refuse .afterTail t.span
  | .name _ :: t :: _ => refuse .parameterName t.span
  | t :: _ => refuse .parameterName t.span

/-- Bind the formal arguments in the innermost layer: the emitted names in front of `&`, and the one
behind it. -/
def parameters : List Term → Gen (List String × Option String)
  | [] => return ([], none)
  | .name t :: ts =>
    if t.text = "&" then
      return ([], some (← restParameter t.span ts))
    else do
      let name ← registerLocal t
      let (names, rest) ← parameters ts
      return (name :: names, rest)
  | t :: _ => refuse .parameterName t.span

variable (lower : Lower)

/-- A function, in the layer of its own formal arguments. A function without a body gives unit. -/
def closure (formals ts : List Term) : Gen Code := do
  let (names, rest) ← parameters formals
  let lines ← match ts with
    | [] => pure [giveUnit]
    | _ => body lower ts
  return .closure names rest (.lines lines)

/-- The form `fn`. The function is as pure as what stands around it. -/
def lambda (c : Call) : Gen Code :=
  match c.args with
  | .list formals _ :: ts => inLayer none (closure lower formals ts)
  | t :: _ => refuse .lambdaVector t.span
  | [] => refuse .lambdaVector c.span

/-- Whether the terms behind a list of formal arguments start with the symbol `:global`. -/
def isGlobal : List Term → Bool
  | .symbol t :: _ => t.text == "global"
  | _ => false

/-- Define a named function. Its name is declared before its body is lowered, so that it can call
itself. A function marked `:global` keeps its name. -/
def named (isPure hidden : Bool) (token : Token) (formals rest : List Term) : Gen Code := do
  let everywhere := isGlobal rest
  let ts := if everywhere then rest.drop 1 else rest
  let reach := if everywhere then Reach.everywhere else if hidden then .block else .package
  let binding ← register token (if isPure then .function else .effect) reach everywhere
  log (.defining binding.surface binding.emitted)
  let code ← inLayer (some isPure) (closure lower formals ts)
  if hidden && !everywhere then return .declareThen binding.emitted code
  else return .assign (← reference (.declared binding)) code

/-- The forms `defn`, `defn!` and their hidden variants. -/
def function (c : Call) (isPure hidden : Bool) : Gen Code :=
  unlessPure .functionInPure c.span <|
    match c.args with
    | .name t :: .list formals _ :: rest => named lower isPure hidden t formals rest
    | .name _ :: t :: _ => refuse .functionVector t.span
    | t :: _ :: _ => refuse .functionName t.span
    | _ => refuse .functionArity c.span

/-- The forms `def` and `def!`: a value of the package, or a function if formal arguments and a body
follow the name. A value does not see its own name. -/
def define (c : Call) (isPure : Bool) : Gen Code :=
  unlessPure .valueInPure c.span <|
    match c.args with
    | .name t :: .list formals _ :: b :: bs => named lower isPure false t formals (b :: bs)
    | [.name t, value] =>
      if isPure then do
        let value ← eval lower value
        let binding ← register t .value .package false
        return .define (← reference (.declared binding)) value
      else refuse .impureValue c.span
    | _ => refuse .definitionShape c.span

end LispLua.Gen
