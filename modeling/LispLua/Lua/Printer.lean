import LispLua.Lua.Code

/-! # Writing Lua code -/

namespace LispLua.Lua

/-- A text with a semicolon behind it, unless it must not have one or ends with one already. -/
def terminate (separated : Bool) (text : String) : String :=
  if separated && text.toList.getLast? != some ';' then text ++ ";" else text

/-- The parameters, and also the arguments, of a block's function. -/
def ellipsis (variadic : Bool) : String :=
  if variadic then "..." else ""

/-- The parameters of a closure. -/
def parameterList (parameters : List String) (rest : Option String) : String :=
  String.intercalate ", " (parameters ++ if rest.isSome then ["..."] else [])

/-- The declarations of the members taken from a module. -/
def memberDeclarations (names : List (String × String)) : String :=
  String.join (names.map fun (name, _) => "local " ++ name ++ ";\n")

/-- The assignments of the members taken from a module. -/
def memberAssignments (names : List (String × String)) : String :=
  String.join (names.map fun (name, key) => name ++ " = __package[\"" ++ key ++ "\"];")

mutual

/-- The text of code. -/
def Code.render : Code → String
  | .word text => text
  | .quoted text => "\"" ++ text ++ "\""
  | .member table key => table ++ "[\"" ++ key ++ "\"]"
  | .field owner name => owner.render ++ "." ++ name
  | .method owner name => owner.render ++ ":" ++ name
  | .item owner index => owner.render ++ "[" ++ toString index ++ "]"
  | .symbol name => "charon.symbol\"" ++ name ++ "\""
  | .paren inner => "(" ++ inner.render ++ ")"
  | .call callee args => callee.render ++ "(" ++ String.intercalate "," (renderAll args) ++ ")"
  | .list items => "charon.list\x7b " ++ String.intercalate "," (renderAll items) ++ " \x7d"
  | .arguments => "charon.list\x7b...\x7d"
  | .entry key value => "[" ++ key.render ++ "] = " ++ value.render
  | .table entries => "charon.table\x7b " ++ String.intercalate "," (renderAll entries) ++ " \x7d"
  | .record entries => "\x7b " ++ String.intercalate "," (renderAll entries) ++ " \x7d"
  | .chain operator operands =>
    "(" ++ String.intercalate operator (renderAll operands) ++ ")"
  | .binary operator left right => left.render ++ operator ++ right.render
  | .negate inner => "(not " ++ inner.render ++ ")"
  | .power base exponent => "math.pow(" ++ base.render ++ ", " ++ exponent.render ++ ")"
  | .isTable value => "type(" ++ value.render ++ ") == 'table'"
  | .every tests => String.intercalate " and " (renderAll tests)
  | .thunk variadic body =>
    "(function(" ++ ellipsis variadic ++ ") " ++ body.render ++ " end)(" ++ ellipsis variadic ++ ")"
  | .lines pieces => String.join (renderAll pieces)
  | .run separated code => terminate separated code.render
  | .give separated code => "return " ++ terminate separated code.render
  | .bind name value => "local " ++ name ++ " = " ++ value.render
  | .scope bindings body =>
    String.intercalate ";" (renderAll bindings) ++ "; " ++ body.render
  | .branch test yes no =>
    "if " ++ test.render ++ " then return " ++ yes.render ++ "; else " ++ no.render ++ " end"
  | .arm test value => "if " ++ test.render ++ " then return " ++ value.render ++ ";"
  | .choose arms => String.intercalate " else" (renderAll arms) ++ " end"
  | .chooseElse arms otherwise =>
    String.intercalate " else" (renderAll arms) ++ " else " ++ otherwise.render ++ " end"
  | .count name bounds body =>
    "for " ++ name ++ "=" ++ String.intercalate ", " (renderAll bounds) ++ " do " ++
      String.intercalate ";" (renderAll body) ++ " end"
  | .each key value source body =>
    "for " ++ key ++ ", " ++ value ++ " in pairs(" ++ source.render ++ ") do " ++
      String.intercalate ";" (renderAll body) ++ " end"
  | .protect variadic body handler =>
    "local _ok, _err = pcall(function(" ++ ellipsis variadic ++ ") " ++ body.render ++ " end" ++
      (if variadic then ", ..." else "") ++ "); if _ok then return _err; else " ++
      handler.render ++ " end"
  | .handler name body => "(function(" ++ name ++ ") " ++ body.render ++ " end)(_err)"
  | .closure parameters rest body =>
    "(function() local __self_ref__; __self_ref__ = function(" ++ parameterList parameters rest ++
      ")" ++ (match rest with
        | some name => " local " ++ name ++ " = charon.list\x7b...\x7d;"
        | none => "") ++
      " " ++ body.render ++ " end; return __self_ref__; end)()"
  | .assign place value => place.render ++ " = " ++ value.render
  | .define place value => place.render ++ " = " ++ value.render ++ ";"
  | .declareThen name value => "local " ++ name ++ "; " ++ name ++ " = " ++ value.render
  | .load source => "require(" ++ source.render ++ ");"
  | .loadAs name source => "local " ++ name ++ " = require(" ++ source.render ++ ");"
  | .loadMembers names source =>
    memberDeclarations names ++ "do local __package = require(" ++ source.render ++ "); " ++
      memberAssignments names ++ " end"
  | .moduleNote name loads =>
    "-- Module " ++ name ++ "\n" ++ String.intercalate "\n" (renderAll loads)
  | .externNote names specifiers =>
    "--[[ Extern symbol " ++ String.intercalate "," names ++ " \x7b" ++
      String.intercalate "," specifiers ++ "\x7d ]]"

/-- The texts of some code, in order. -/
def renderAll : List Code → List String
  | [] => []
  | c :: cs => c.render :: renderAll cs

end

theorem renderAll_eq_map (cs : List Code) : renderAll cs = cs.map Code.render := by
  induction cs with
  | nil => rfl
  | cons c cs ih => rw [renderAll, ih, List.map_cons]

/-- The text between the parentheses of a call. -/
def renderArgs (args : List Code) : String :=
  String.intercalate "," (renderAll args)

/-- The text of a statement, with its semicolon. -/
def Stmt.render (s : Stmt) : String :=
  terminate s.separated s.code.render

end LispLua.Lua
