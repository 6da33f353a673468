/-!
# Lua code

The code a program is lowered to, as a tree. Every special form lowers to an expression: a block
becomes a function that is called at once, so that it can stand wherever an expression can.

Expressions and statements are one type. A definition is a statement, yet a program may put one
where a value is expected; its code then stands there as it is.
-/

namespace LispLua.Lua

/-- Generated code. -/
inductive Code where
  /-- A name, a numeral or a literal, as it stands. -/
  | word (text : String)
  /-- A text between double quotes. -/
  | quoted (text : String)
  /-- The member of a table under a string key: `table["key"]`. -/
  | member (table key : String)
  /-- `owner.name` -/
  | field (owner : Code) (name : String)
  /-- `owner:name` -/
  | method (owner : Code) (name : String)
  /-- `owner[index]` -/
  | item (owner : Code) (index : Nat)
  /-- An interned symbol. -/
  | symbol (name : String)
  /-- `(inner)` -/
  | paren (inner : Code)
  /-- `callee(args)` -/
  | call (callee : Code) (args : List Code)
  /-- A list of the library. -/
  | list (items : List Code)
  /-- The list of the arguments of the enclosing function. -/
  | arguments
  /-- `[key] = value` inside a table. -/
  | entry (key value : Code)
  /-- A table of the library. -/
  | table (entries : List Code)
  /-- A plain Lua table. -/
  | record (entries : List Code)
  /-- Operands joined by an operator, in parentheses. -/
  | chain (operator : String) (operands : List Code)
  /-- Two operands and an operator, bare. -/
  | binary (operator : String) (left right : Code)
  /-- `(not inner)` -/
  | negate (inner : Code)
  /-- A power, for versions that have no operator for it. -/
  | power (base exponent : Code)
  /-- The test whether a value is a table. -/
  | isTable (value : Code)
  /-- Tests that must all hold, bare. -/
  | every (tests : List Code)
  /-- A function of no parameters, or of `...` if variadic, that is called at once. -/
  | thunk (variadic : Bool) (body : Code)
  /-- Pieces one after the other. -/
  | lines (pieces : List Code)
  /-- A statement, with a semicolon unless it must not have one or has one already. -/
  | run (separated : Bool) (code : Code)
  /-- `return` and a statement. -/
  | give (separated : Bool) (code : Code)
  /-- `local name = value` -/
  | bind (name : String) (value : Code)
  /-- Bindings, then a body that sees them. -/
  | scope (bindings : List Code) (body : Code)
  /-- A choice between two branches. -/
  | branch (test yes no : Code)
  /-- A test and the value to return if it holds, inside a choice. -/
  | arm (test value : Code)
  /-- A choice between arms, tried in order. -/
  | choose (arms : List Code)
  /-- A choice between arms with a last resort. -/
  | chooseElse (arms : List Code) (otherwise : Code)
  /-- A loop over numbers. -/
  | count (name : String) (bounds body : List Code)
  /-- A loop over the pairs of a table. -/
  | each (key value : String) (source : Code) (body : List Code)
  /-- A protected body, and what to do with its error. -/
  | protect (variadic : Bool) (body handler : Code)
  /-- A function of the error of a protected body, called with it. -/
  | handler (name : String) (body : Code)
  /-- A function that knows itself; the rest of its arguments may be collected under a name. -/
  | closure (parameters : List String) (rest : Option String) (body : Code)
  /-- `place = value` -/
  | assign (place value : Code)
  /-- `place = value;` -/
  | define (place value : Code)
  /-- A local name that is declared before its value is computed. -/
  | declareThen (name : String) (value : Code)
  /-- Load a module. -/
  | load (source : Code)
  /-- Load a module under a local name. -/
  | loadAs (name : String) (source : Code)
  /-- Load a module and take members of it: pairs of a local name and a key. -/
  | loadMembers (names : List (String × String)) (source : Code)
  /-- The comment that names a module, and what the module loads. -/
  | moduleNote (name : String) (loads : List Code)
  /-- The comment that stands for names declared elsewhere. -/
  | externNote (names specifiers : List String)
  deriving Inhabited

/-- Code that stands as a statement. A comment must not be followed by a semicolon. -/
structure Stmt where
  code : Code
  separated : Bool
  deriving Inhabited

/-- Code as an ordinary statement. -/
def Code.stmt (code : Code) : Stmt :=
  ⟨code, true⟩

end LispLua.Lua
