/-!
# The Lua library

Generated code leans on a small Lua library for lists, tables, atoms and the function versions of
the operators. A chunk either loads it as a module or carries a copy of it.
-/

namespace LispLua.Lua.Library

/-- Unit, the truth values and interned symbols. -/
def values : List String :=
  ["local charon = \x7b\x7d;",
    "",
    "-- Values",
    "",
    "charon.Unit = setmetatable(\x7b\x7d, \x7b __tostring = function() return 'unit' end \x7d);",
    "charon.True = true;",
    "charon.False = false;",
    "",
    "local Symbol = \x7b\x7d;",
    "Symbol.__index = Symbol;",
    "Symbol.__tostring = function(self) return ':' .. self.name end;",
    "",
    "-- Symbols are interned, the same name is always the same table",
    "local symbols = \x7b\x7d;",
    "",
    "function charon.symbol(name)",
    "  local s = symbols[name];",
    "  if s == nil then",
    "    s = setmetatable(\x7b name = name \x7d, Symbol);",
    "    symbols[name] = s;",
    "  end",
    "  return s;",
    "end",
    "",
    "local function key(k)",
    "  if getmetatable(k) == Symbol then",
    "    return k.name;",
    "  end",
    "  return k;",
    "end",
    ""]

/-- Lists, which count from zero and keep their length outside. -/
def lists : List String :=
  ["-- Lists are 0 based, their length lives outside of the list itself",
    "",
    "local List = \x7b\x7d;",
    "List.__index = List;",
    "",
    "local lengths = setmetatable(\x7b\x7d, \x7b __mode = 'k' \x7d);",
    "",
    "local function len(list)",
    "  return lengths[list] or 0;",
    "end",
    "",
    "local function new_list(n)",
    "  local list = setmetatable(\x7b\x7d, List);",
    "  lengths[list] = n;",
    "  return list;",
    "end",
    "",
    "List.__len = len;",
    "List.__pairs = function(list)",
    "  local i = -1;",
    "  return function()",
    "    i = i + 1;",
    "    if i < len(list) then",
    "      return i, list[i];",
    "    end",
    "  end, list, nil;",
    "end",
    "List.__tostring = function(list)",
    "  local out = \x7b\x7d;",
    "  for i = 0, len(list) - 1 do",
    "    out[#out + 1] = tostring(list[i]);",
    "  end",
    "  return '[' .. table.concat(out, ' ') .. ']';",
    "end",
    "",
    "function charon.list(t)",
    "  local n = t.n or #t;",
    "  local list = new_list(n);",
    "  for i = 1, n do",
    "    list[i - 1] = t[i];",
    "  end",
    "  return list;",
    "end",
    ""]

/-- Tables, text, ranges and functions on any value. -/
def basics : List String :=
  ["local Table = \x7b\x7d;",
    "Table.__index = Table;",
    "Table.__tostring = function(t)",
    "  local out = \x7b\x7d;",
    "  for k, v in pairs(t) do",
    "    out[#out + 1] = tostring(k) .. ' ' .. tostring(v);",
    "  end",
    "  return '\x7b' .. table.concat(out, ' ') .. '\x7d';",
    "end",
    "",
    "function charon.table(t)",
    "  return setmetatable(t, Table);",
    "end",
    "",
    "function charon.str(...)",
    "  local out = \x7b\x7d;",
    "  for i = 1, select('#', ...) do",
    "    out[#out + 1] = tostring((select(i, ...)));",
    "  end",
    "  return table.concat(out);",
    "end",
    "",
    "function charon.range(from, to, step)",
    "  if to == nil then",
    "    from, to = 1, from;",
    "  end",
    "  step = step or 1;",
    "  local list = new_list(0);",
    "  local n = 0;",
    "  for i = from, to, step do",
    "    list[n] = i;",
    "    n = n + 1;",
    "  end",
    "  lengths[list] = n;",
    "  return list;",
    "end",
    "",
    "function charon.some(value)",
    "  return value ~= nil and value ~= charon.Unit;",
    "end",
    "",
    "function charon.or_coalesce(value, default)",
    "  if charon.some(value) then",
    "    return value;",
    "  end",
    "  return default;",
    "end",
    "",
    "function charon.compose(...)",
    "  local fns = \x7b ... \x7d;",
    "  return function(...)",
    "    local result = fns[1](...);",
    "    for i = 2, #fns do",
    "      result = fns[i](result);",
    "    end",
    "    return result;",
    "  end",
    "end",
    ""]

/-- Functions on vectors. -/
def vectors : List String :=
  ["-- Vectors",
    "",
    "function charon.vector_map(fn, list)",
    "  local out = new_list(len(list));",
    "  for i = 0, len(list) - 1 do",
    "    out[i] = fn(list[i]);",
    "  end",
    "  return out;",
    "end",
    "",
    "function charon.vector_each(fn, list)",
    "  for i = 0, len(list) - 1 do",
    "    fn(list[i]);",
    "  end",
    "  return charon.Unit;",
    "end",
    "",
    "function charon.vector_get(list, i)",
    "  return list[i];",
    "end",
    "",
    "function charon.vector_filter(fn, list)",
    "  local out = new_list(0);",
    "  local n = 0;",
    "  for i = 0, len(list) - 1 do",
    "    if fn(list[i]) then",
    "      out[n] = list[i];",
    "      n = n + 1;",
    "    end",
    "  end",
    "  lengths[out] = n;",
    "  return out;",
    "end",
    "",
    "function charon.vector_merge(a, b)",
    "  local out = new_list(len(a) + len(b));",
    "  for i = 0, len(a) - 1 do",
    "    out[i] = a[i];",
    "  end",
    "  for i = 0, len(b) - 1 do",
    "    out[len(a) + i] = b[i];",
    "  end",
    "  return out;",
    "end",
    "",
    "function charon.vector_add(list, ...)",
    "  return charon.vector_merge(list, charon.list(table.pack and table.pack(...) or \x7b n = select('#', ...), ... \x7d));",
    "end",
    "",
    "function charon.vector_drop(list, n)",
    "  local out = new_list(math.max(len(list) - n, 0));",
    "  for i = 0, len(out) - 1 do",
    "    out[i] = list[i];",
    "  end",
    "  return out;",
    "end",
    "",
    "function charon.vector_drop_left(list, n)",
    "  local out = new_list(math.max(len(list) - n, 0));",
    "  for i = 0, len(out) - 1 do",
    "    out[i] = list[i + n];",
    "  end",
    "  return out;",
    "end",
    "",
    "function charon.vector_len(list)",
    "  return len(list);",
    "end",
    "",
    "function charon.list_get(i, list)",
    "  return list[i];",
    "end",
    ""]

/-- Functions on tables. -/
def tables : List String :=
  ["-- Tables",
    "",
    "function charon.table_get(k, t)",
    "  return t[k];",
    "end",
    "",
    "function charon.table_get_or(k, t, default)",
    "  return charon.or_coalesce(t[k], default);",
    "end",
    "",
    "function charon.table_remove(t, k)",
    "  local out = charon.table(\x7b\x7d);",
    "  for tk, v in pairs(t) do",
    "    if tk ~= k then",
    "      out[tk] = v;",
    "    end",
    "  end",
    "  return out;",
    "end",
    "",
    "function charon.table_merge(a, b)",
    "  local out = charon.table(\x7b\x7d);",
    "  for k, v in pairs(a) do",
    "    out[k] = v;",
    "  end",
    "  for k, v in pairs(b) do",
    "    out[k] = v;",
    "  end",
    "  return out;",
    "end",
    ""]

/-- Objects, which are plain tables. -/
def objects : List String :=
  ["-- Objects are plain Lua tables with string keys",
    "",
    "function charon.object_new(proto)",
    "  return setmetatable(\x7b\x7d, \x7b __index = proto \x7d);",
    "end",
    "",
    "function charon.object_new_raw(t)",
    "  local out = \x7b\x7d;",
    "  for k, v in pairs(t) do",
    "    out[key(k)] = v;",
    "  end",
    "  return out;",
    "end",
    "",
    "function charon.object_get(o, k)",
    "  return o[key(k)];",
    "end",
    "",
    "function charon.object_set(o, k, v)",
    "  o[key(k)] = v;",
    "  return o;",
    "end",
    ""]

/-- Atoms and calls. -/
def atoms : List String :=
  ["-- Atoms",
    "",
    "function charon.atom(value)",
    "  return \x7b value = value \x7d;",
    "end",
    "",
    "function charon.atom_set(atom, value)",
    "  atom.value = value;",
    "  return value;",
    "end",
    "",
    "function charon.atom_apply(atom, fn, ...)",
    "  atom.value = fn(atom.value, ...);",
    "  return atom.value;",
    "end",
    "",
    "function charon.atom_get(atom)",
    "  return atom.value;",
    "end",
    "",
    "-- Calls",
    "",
    "function charon.opaque_call(fn, ...)",
    "  fn(...);",
    "  return charon.Unit;",
    "end",
    "",
    "function charon.call(fn, ...)",
    "  return fn(...);",
    "end",
    ""]

/-- Printing and files. -/
def io : List String :=
  ["-- IO",
    "",
    "function charon.println(...)",
    "  io.write(charon.str(...), '\\n');",
    "  return charon.Unit;",
    "end",
    "",
    "function charon.print(...)",
    "  io.write(charon.str(...));",
    "  return charon.Unit;",
    "end",
    "",
    "function charon.file_open(path, mode)",
    "  return io.open(path, key(mode) or 'r');",
    "end",
    "",
    "function charon.file_close(file)",
    "  file:close();",
    "  return charon.Unit;",
    "end",
    "",
    "function charon.file_write(file, ...)",
    "  file:write(...);",
    "  return charon.Unit;",
    "end",
    "",
    "function charon.file_read(file, format)",
    "  return file:read(key(format) or '*a');",
    "end",
    ""]

/-- The operators as functions. -/
def operators : List String :=
  ["-- Operators as functions",
    "",
    "local function fold(fn)",
    "  return function(acc, ...)",
    "    for i = 1, select('#', ...) do",
    "      acc = fn(acc, (select(i, ...)));",
    "    end",
    "    return acc;",
    "  end",
    "end",
    "",
    "local function pairwise(fn)",
    "  return function(...)",
    "    local args = \x7b ... \x7d;",
    "    for i = 1, #args do",
    "      for j = i + 1, #args do",
    "        if not fn(args[i], args[j]) then",
    "          return false;",
    "        end",
    "      end",
    "    end",
    "    return true;",
    "  end",
    "end",
    "",
    "charon.plus = fold(function(a, b) return a + b end);",
    "charon.minus = fold(function(a, b) return a - b end);",
    "charon.div = fold(function(a, b) return a / b end);",
    "charon.mul = fold(function(a, b) return a * b end);",
    "charon.pow = fold(function(a, b) return a ^ b end);",
    "charon.xor = fold(function(a, b) return (a and not b) or (b and not a) end);",
    "",
    "charon.eq = pairwise(function(a, b) return a == b end);",
    "charon.neq = pairwise(function(a, b) return a ~= b end);",
    "charon.gt = pairwise(function(a, b) return a > b end);",
    "charon.lt = pairwise(function(a, b) return a < b end);",
    "charon.gteq = pairwise(function(a, b) return a >= b end);",
    "charon.lteq = pairwise(function(a, b) return a <= b end);",
    "",
    "charon._and = fold(function(a, b) return a and b end);",
    "charon._or = fold(function(a, b) return a or b end);",
    "",
    "function charon._not(value)",
    "  return not value;",
    "end",
    "",
    "function charon.nand(...)",
    "  return not charon._and(...);",
    "end",
    "",
    "function charon.nor(...)",
    "  return not charon._or(...);",
    "end",
    "",
    "return charon;"]

/-- The lines of the library. -/
def lines : List String :=
  values ++ lists ++ basics ++ vectors ++ tables ++ objects ++ atoms ++ io ++ operators

/-- The text of the library; every line is ended by a line feed. -/
def source : String :=
  String.join (lines.map (· ++ "\n"))

/-- The statement that loads the library as a module. -/
def loading : String :=
  "local charon = require 'charon-runtime';"

/-- Turn a line into a comment. -/
def mute (line : String) : String :=
  "-- " ++ line

/-- A line without the blanks around it. -/
def bare (line : String) : String :=
  let tail := line.toList.dropWhile Char.isWhitespace
  String.ofList (tail.reverse.dropWhile Char.isWhitespace).reverse

/-- Turn the final return into a comment. -/
def muteReturn (line : String) : String :=
  if bare line = "return charon;" then mute line else line

/-- Turn the first declaration of the library's table, and every final return, into comments. -/
def muteDeclaration : List String → List String
  | [] => []
  | line :: rest =>
    if "local charon".toList.isPrefixOf line.toList then mute line :: rest.map muteReturn
    else muteReturn line :: muteDeclaration rest

/-- The library made ready to stand inside a block of another chunk, which declares the table
itself. Every line is indented by two blanks. -/
def embedded : String :=
  String.join ((muteDeclaration lines).map ("\n  " ++ ·))

end LispLua.Lua.Library
