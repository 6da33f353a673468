import LispLua.Generate.Basic
import LispLua.Term.Printer

/-!
# Values

Lowering of names, access expressions, lists, tables and the arguments of calls.

Here and in the modules on the special forms, `lower` stands for the lowering of the terms inside.
It is a parameter, so each form is described on its own, and the knot is tied once for all of them.
-/

namespace LispLua.Gen

open Lua

/-- How the terms inside a form are lowered. -/
abbrev Lower := Term → Gen Stmt

/-- A name as a value. A special form has a value only if a function stands for it. -/
def nameValue (t : Token) : Gen Code := do
  let m ← resolve t
  if m.isForm then
    match m.function? with
    | some f => return .word f
    | none => refuse (.formAsValue t.text) t.span
  else reference m

/-- One more segment of an access expression. The optional links are reserved. -/
def segment (owner : Code) (s : Segment) : Gen Code :=
  match s.link with
  | .method => return .method owner s.name.text
  | .field => return .field owner s.name.text
  | .optionalMethod | .optionalField => refuse .optionalAccess s.span

/-- An access expression. -/
def access (p : Path) : Gen Code := do
  let m ← resolve p.root
  if m.isForm then refuse (.formAccess p.root.text) p.span
  p.segments.foldlM segment (← reference m)

/-- An access expression as a value, where only fields can be reached. -/
def pathValue (p : Path) : Gen Code := do
  if p.segments.any (·.link.isBound) then
    let expected := String.intercalate "::" (p.root.text :: p.segments.map (·.name.text))
    refuse (.boundAccess expected p.render) p.span
  access p

/-- A string literal; line ends inside it are written as escapes. -/
def stringText (text : String) : String :=
  String.ofList (text.toList.flatMap fun c =>
    if c = '\n' then ['\\', 'n'] else if c = '\r' then ['\\', 'r'] else [c])

variable (lower : Lower)

/-- A term as an expression. -/
def eval (t : Term) : Gen Code :=
  return (← lower t).code

/-- Terms as expressions, from left to right. -/
def evalAll (ts : List Term) : Gen (List Code) :=
  ts.mapM (eval lower)

/-- An argument of a call. For a special form the function that stands for it is passed. -/
def arg (t : Term) : Gen Code := do
  match t with
  | .name token =>
    match ← find? token.text with
    | some m =>
      if m.isForm then
        match m.function? with
        | some f => return .word f
        | none => refuse (.noFunctionFor token.text) token.span
      else eval lower t
    | none => eval lower t
  | _ => eval lower t

/-- The arguments of a call, from left to right. -/
def args (ts : List Term) : Gen (List Code) :=
  ts.mapM (arg lower)

/-- The key of an entry. In an escaped table a symbol is a plain string. -/
def key (escaped : Bool) (t : Term) : Gen Code :=
  match t with
  | .symbol token => if escaped then return .quoted token.text else eval lower t
  | _ => eval lower t

/-- The entries of a table. A last key without a value gets unit. -/
def entries (escaped : Bool) : List Term → Gen (List Code)
  | [] => return []
  | [k] => do
    let k' ← key lower escaped k
    return [.entry k' (← nameValue ⟨"unit", k.span⟩)]
  | k :: v :: rest => do
    let k' ← key lower escaped k
    let v' ← eval lower v
    return .entry k' v' :: (← entries escaped rest)

/-- A table. -/
def table (items : List Term) (escaped : Bool) : Gen Code := do
  let es ← entries lower escaped items
  return if escaped then .record es else .table es

end LispLua.Gen
