import LispLua.Generate.Value

/-! # Modules and outside names -/

namespace LispLua.Gen

open Lua

/-- Declare the members to take from a module: pairs of an emitted name and a key. -/
def importMembers : List Term → Gen (List (String × String))
  | [] => return []
  | .name t :: ts => do
    let name ← registerLocal t
    return (name, t.text) :: (← importMembers ts)
  | t :: _ => refuse .importName t.span

variable (lower : Lower)

/-- Load a module for its effects. -/
def importWhole (source : Term) : Gen Code := do
  match source with
  | .string _ => return .load (← eval lower source)
  | .name t => return .load (.quoted t.text)
  | t => refuse (.importSource t.shape) t.span

/-- Check the word between a binding and the module it comes from. -/
def importWord : Term → Gen Unit
  | .symbol t => if t.text = "from" then return () else refuse (.importSymbol t.text) t.span
  | t => refuse .importFrom t.span

/-- The form `import` with its arguments. -/
def importModule (ts : List Term) (span : Span) : Gen Code := do
  match ts with
  | [] => refuse .importMissing span
  | [source] => importWhole lower source
  | [binding, word, source] =>
    importWord word
    let source ← eval lower source
    match binding with
    | .name t => return .loadAs (← registerLocal t) source
    | .list items _ => return .loadMembers (← importMembers items) source
    | t => refuse (.importBinding t.shape) t.span
  | _ => refuse .importShape span

/-- The terms of an import clause of a module, `[:import ...]` or `(:import ...)`. -/
def importClause : Term → Gen (List Term)
  | .list items _ => return items
  | .call target args _ => return target :: args
  | t => refuse .moduleTail t.span

/-- One import clause of a module. -/
def moduleImport (clause : Term) : Gen Code := do
  let ts ← importClause clause
  if ts.length ≠ 2 ∧ ts.length ≠ 4 then refuse .moduleArity clause.span
  match ts with
  | [] => refuse .moduleArity clause.span
  | .symbol t :: rest =>
    if t.text = "import" then importModule lower rest clause.span
    else refuse .moduleImport t.span
  | t :: _ => refuse .moduleImport t.span

/-- The form `module`. -/
def nameModule (c : Call) : Gen Code := do
  match c.args with
  | .name t :: clauses =>
    let job ← read
    modify (·.nameModule job.options t.text)
    return .moduleNote t.text (← clauses.mapM (moduleImport lower))
  | t :: _ => refuse (.moduleName t.shape) t.span
  | [] => refuse .moduleMissing c.span

/-- The specifiers of declared names. -/
def knownSpecifiers : List String :=
  ["pure", "impure", "global"]

/-- Sort the arguments of `declare` into specifiers and names. A specifier must be a known one, and
each can be given once. -/
def specifiers (given : List String) : List Term → Gen (List String × List Token)
  | [] => return (given, [])
  | .name t :: ts => do
    let (given, names) ← specifiers given ts
    return (given, t :: names)
  | .symbol t :: ts =>
    if t.text ∉ knownSpecifiers then refuse (.specifier t.text) t.span
    else if t.text ∈ given then refuse (.specifierTwice t.text) t.span
    else specifiers (given ++ [t.text]) ts
  | t :: _ => refuse .declareTerm t.span

/-- What the specifiers say about the declared names. -/
def specifiedKind (given : List String) (span : Span) : Gen Kind :=
  match given.contains "pure", given.contains "impure" with
  | true, true => refuse .pureAndImpure span
  | true, false => return .function
  | false, true => return .effect
  | false, false => return .value

/-- The form `declare`. It emits a comment only; declared names are emitted as they are written. -/
def declare (c : Call) : Gen Stmt := unlessPure .declareInPure c.span do
  let (given, names) ← specifiers [] c.args
  let kind ← specifiedKind given c.span
  let reach := if given.contains "global" then Reach.everywhere else .block
  let declared ← names.mapM fun t => return (← register t kind reach true).emitted
  return ⟨.externNote declared given, false⟩

end LispLua.Gen
