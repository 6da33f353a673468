import LispLua.Text.Position

/-!
# Terms

A program is a list of calls, and a call holds terms. Every node carries the span of text it was
read from; terms that sugar stands for take over the spans of the terms they were made from.
-/

namespace LispLua

/-- A leaf of the tree: its text and where it stands. -/
structure Token where
  text : String
  span : Span
  deriving DecidableEq, Inhabited

/-- The operator in front of a segment of a path. The optional variants are reserved. -/
inductive Link where
  | method
  | field
  | optionalMethod
  | optionalField
  deriving DecidableEq, Inhabited

/-- How a link is written. -/
def Link.text : Link → String
  | method => ":"
  | field => "::"
  | optionalMethod => ":?"
  | optionalField => "::?"

/-- Whether a link reaches a method bound to its owner. -/
def Link.isBound : Link → Bool
  | method | optionalMethod => true
  | field | optionalField => false

/-- One step of a path: the operator and the name it reaches. -/
structure Segment where
  link : Link
  name : Token
  span : Span
  deriving DecidableEq, Inhabited

/-- An access expression: a root name followed by segments. -/
structure Path where
  root : Token
  segments : List Segment
  span : Span
  deriving DecidableEq, Inhabited

/-- A node of the syntax tree. -/
inductive Term where
  /-- `[a b c]` -/
  | list (items : List Term) (span : Span)
  /-- Alternating keys and values; an escaped table has plain string keys. -/
  | table (items : List Term) (escaped : Bool) (span : Span)
  /-- `(target args...)` -/
  | call (target : Term) (args : List Term) (span : Span)
  /-- `root::field:method` -/
  | path (path : Path)
  | number (token : Token)
  /-- A string literal, with its quotes and escapes as written. -/
  | string (token : Token)
  /-- `:name`, kept without the colon. -/
  | symbol (token : Token)
  | name (token : Token)
  /-- The reference of a function to itself. -/
  | wildcard (token : Token)
  deriving Inhabited

/-- A call: what is called, the arguments, and the span from bracket to bracket. -/
structure Call where
  target : Term
  args : List Term
  span : Span
  deriving Inhabited

/-- A program is the sequence of its top level calls. -/
abbrev Program := List Call

/-- A call as a term. -/
def Call.term (c : Call) : Term :=
  .call c.target c.args c.span

/-- A call of a plain name, all of it at one span. -/
def Call.named (name : String) (span : Span) (args : List Term) : Call :=
  ⟨.name ⟨name, span⟩, args, span⟩

/-- The name a call is made through, if it is a plain one. -/
def Call.name? (c : Call) : Option String :=
  match c.target with
  | .name t => some t.text
  | _ => none

namespace Term

/-- The text a term was read from. -/
def span : Term → Span
  | list _ s | table _ _ s | call _ _ s => s
  | path p => p.span
  | number t | string t | symbol t | name t | wildcard t => t.span

/-- The kinds of node. -/
inductive Shape where
  | list | table | call | path | number | string | symbol | name | wildcard
  deriving DecidableEq, Inhabited

/-- What messages call a kind of node. -/
def Shape.label : Shape → String
  | list => "List"
  | table => "Table"
  | call => "Invoke"
  | path => "AccessExpression"
  | number => "Number"
  | string => "String"
  | symbol => "Symbol"
  | name => "Name"
  | wildcard => "Wildcard"

/-- The kind of a node. -/
def shape : Term → Shape
  | list .. => .list
  | table .. => .table
  | call .. => .call
  | path .. => .path
  | number .. => .number
  | string .. => .string
  | symbol .. => .symbol
  | name .. => .name
  | wildcard .. => .wildcard

/-- The token of a plain name. -/
def asName? : Term → Option Token
  | name t => some t
  | _ => none

/-- The token of a symbol. -/
def asSymbol? : Term → Option Token
  | symbol t => some t
  | _ => none

/-- Whether a term is the plain name `n`. -/
def isName (n : String) : Term → Bool
  | name t => t.text == n
  | _ => false

/-- Whether a term is a clause that handles the error of a protected block. -/
def isCatch : Term → Bool
  | call (.name t) _ _ => t.text == "catch"
  | _ => false

end Term

end LispLua
