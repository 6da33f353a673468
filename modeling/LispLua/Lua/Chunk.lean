import LispLua.Lua.Library
import LispLua.Lua.Printer
import LispLua.Options

/-!
# Chunks

A chunk is a whole Lua text: it gets hold of the library, makes the package table, runs the
statements of the program, and publishes or returns the table.
-/

namespace LispLua.Lua

/-- How a chunk gets hold of the library. -/
def prelude (options : Options) : String :=
  if options.embedLibrary then
    "local charon = \x7b\x7d;\ndo" ++ Library.embedded ++ "\nend"
  else if options.omitLibrary then ""
  else Library.loading

/-- Statements, one on a line. -/
def renderStatements (statements : List Stmt) : String :=
  String.intercalate "\n" (statements.map Stmt.render)

/-- A whole Lua text. -/
structure Chunk where
  options : Options
  /-- The expression of the package table. -/
  package : String
  statements : List Stmt

namespace Chunk

/-- What stands in front of the statements. -/
def header (c : Chunk) : String :=
  prelude c.options ++ "\n" ++ (if c.options.publish then "" else "local ") ++ c.package ++
    " = \x7b\x7d;\n"

/-- What stands behind the statements. -/
def footer (c : Chunk) : String :=
  if c.options.publish then "\n-- End module " ++ c.package
  else "\nreturn " ++ c.package ++ ";\n"

/-- The text of a chunk. -/
def render (c : Chunk) : String :=
  c.header ++ renderStatements c.statements ++ c.footer

end Chunk

end LispLua.Lua
