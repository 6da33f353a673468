import LispLua.Lua.Code
import LispLua.Text.Digest

/-!
# Bindings

What a program declares: the name it is written with, the name it is emitted as, what can be done
with it and where it is visible.

An emitted name is derived from the written one by a digest. It cannot collide with a keyword of Lua
or with the library, and the same source always gives the same text.
-/

namespace LispLua

/-- The emitted form of a name. -/
def mangle (name : String) : String :=
  "__val_" ++ String.ofList (hexadecimal 8 (digest 0x6368726e (utf8Bytes name)).toNat)

/-- What a name can be used for. -/
inductive Kind where
  /-- A plain value. -/
  | value
  /-- A function without effects. -/
  | function
  /-- A function with effects, which pure functions must not call. -/
  | effect
  deriving DecidableEq, Inhabited

/-- Where a name is visible. -/
inductive Reach where
  /-- In its block. -/
  | block
  /-- In its package, where it is declared once. -/
  | package
  /-- In every package. -/
  | everywhere
  deriving DecidableEq, Inhabited

/-- A declared name. -/
structure Binding where
  surface : String
  emitted : String
  kind : Kind
  reach : Reach
  deriving DecidableEq, Inhabited

namespace Binding

/-- The binding of a name, which is emitted as it is written if `preserve` says so. -/
def declare (surface : String) (kind : Kind) (reach : Reach) (preserve : Bool) : Binding :=
  ⟨surface, if preserve then surface else mangle surface, kind, reach⟩

/-- The code that refers to a binding when `package` is the expression of the package table. -/
def reference (b : Binding) (package : String) : Lua.Code :=
  match b.reach with
  | .block => .word b.emitted
  | .package => .member package b.surface
  | .everywhere => .member "_G" b.emitted

end Binding

end LispLua
