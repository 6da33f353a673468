import LispLua.Scope.Binding

/-!
# The standard names

What a program can refer to without declaring it: the special forms, the operators, and the
functions of the library. A program can hide these names, and cannot change or add to them.
-/

namespace LispLua

/-- The operators that lower to an operator of Lua. -/
inductive Operator where
  | add | sub | div | mul | pow
  | eq | ne | gt | lt | ge | le
  | and | or | nand | nor
  deriving DecidableEq, Inhabited

namespace Operator

/-- The Lua operator between the operands. -/
def text : Operator → String
  | add => "+"
  | sub => "-"
  | div => "/"
  | mul => "*"
  | pow => "^"
  | eq => "=="
  | ne => "~="
  | gt => ">"
  | lt => "<"
  | ge => ">="
  | le => "<="
  | and | nand => " and "
  | or | nor => " or "

/-- Whether an operator compares its operands. -/
def isComparison : Operator → Bool
  | eq | ne | gt | lt | ge | le => true
  | _ => false

end Operator

/-- The special forms, which take their arguments as terms. -/
inductive Form where
  | define (pure : Bool)
  | function (pure hidden : Bool)
  | declare
  | importModule
  | nameModule
  | bindings
  | conditional
  | matching
  | block
  | loop
  | lambda
  | attempt
  | handler
  | arguments
  | threadFirst
  | threadLast
  | fanFirst
  | fanLast
  | negation
  | operator (op : Operator)
  | parity
  deriving DecidableEq, Inhabited

namespace Form

/-- Whether a form defines something. Definitions are statements and have no value. -/
def isDefinition : Form → Bool
  | define _ | function .. | declare | importModule | nameModule => true
  | _ => false

/-- Whether a form is replaced by a term made from its arguments. -/
def isSugar : Form → Bool
  | threadFirst | threadLast | fanFirst | fanLast | parity => true
  | _ => false

end Form

namespace Standard

/-- What a standard name is: a plain name, or a special form, which may have a function that does
the same and stands for it as a value. -/
inductive Role where
  | plain (kind : Kind)
  | form (form : Form) (function : Option String)
  deriving DecidableEq, Inhabited

/-- A standard name. -/
structure Entry where
  surface : String
  emitted : String
  role : Role
  deriving DecidableEq, Inhabited

/-- The entry of a special form. -/
def special (surface emitted : String) (form : Form) : Entry :=
  ⟨surface, emitted, .form form none⟩

/-- The entry of an operator, which is also a function of the library. -/
def operator (surface emitted : String) (form : Form) (function : String) : Entry :=
  ⟨surface, emitted, .form form (some function)⟩

/-- The entry of a function without effects. -/
def function (surface emitted : String) : Entry :=
  ⟨surface, emitted, .plain .function⟩

/-- The entry of a function with effects. -/
def effect (surface emitted : String) : Entry :=
  ⟨surface, emitted, .plain .effect⟩

/-- The entry of a value. -/
def value (surface emitted : String) : Entry :=
  ⟨surface, emitted, .plain .value⟩

/-- The special forms. -/
def forms : List Entry :=
  [special "def" "#def" (.define true),
    special "def!" "#def!" (.define false),
    special "defn" "#defn" (.function true false),
    special "defn!" "#defn!" (.function false false),
    special "defn-" "#defn-" (.function true true),
    special "defn-!" "#defn-!" (.function false true),
    special "declare" "#declare" .declare,
    special "import" "#import" .importModule,
    special "module" "#module" .nameModule,
    special "let" "#let" .bindings,
    special "if" "#if" .conditional,
    special "when" "#when" .matching,
    special "do" "#do" .block,
    special "for" "#for" .loop,
    special "fn" "#fn" .lambda,
    special "try" "#try" .attempt,
    special "catch" "#catch" .handler,
    special "..." "#three-dots" .arguments,
    special "->" "#thread-first" .threadFirst,
    special "<-" "#thread-last" .threadLast,
    special "-<" "#thread-parallel" .fanFirst,
    special "->>" "#thread-parallel-last" .fanLast]

/-- The operators. -/
def operators : List Entry :=
  [operator "+" "#plus" (.operator .add) "charon.plus",
    operator "-" "#minus" (.operator .sub) "charon.minus",
    operator "/" "#div" (.operator .div) "charon.div",
    operator "*" "#mul" (.operator .mul) "charon.mul",
    operator "^" "#pow" (.operator .pow) "charon.pow",
    operator "=" "#eq" (.operator .eq) "charon.eq",
    operator "<>" "#neq" (.operator .ne) "charon.neq",
    operator ">" "#gt" (.operator .gt) "charon.gt",
    operator "<" "#lt" (.operator .lt) "charon.lt",
    operator ">=" "#gteq" (.operator .ge) "charon.gteq",
    operator "<=" "#lteq" (.operator .le) "charon.lteq",
    operator "and" "#and" (.operator .and) "charon._and",
    operator "or" "#or" (.operator .or) "charon._or",
    operator "not" "#not" .negation "charon._not",
    operator "nand" "#nand" (.operator .nand) "charon.nand",
    operator "nor" "#nor" (.operator .nor) "charon.nor",
    operator "xor" "#xor" .parity "charon.xor"]

/-- The values and functions of the library. -/
def library : List Entry :=
  [value "unit" "charon.Unit",
    value "true" "charon.True",
    value "false" "charon.False",
    function "throw" "error",
    function "str" "charon.str",
    function "range" "charon.range",
    function "some?" "charon.some",
    function "or?" "charon.or_coalesce",
    function ">>=" "charon.compose",
    function "vector/map" "charon.vector_map",
    function "vector/each" "charon.vector_each",
    function "vector/get" "charon.vector_get",
    function "vector/filter" "charon.vector_filter",
    function "vector/merge" "charon.vector_merge",
    function "vector/add" "charon.vector_add",
    function "vector/drop" "charon.vector_drop",
    function "vector/drop-left" "charon.vector_drop_left",
    function "vector/len" "charon.vector_len",
    function "list/get" "charon.list_get",
    function "table/get" "charon.table_get",
    function "table/get?" "charon.table_get_or",
    function "table/remove" "charon.table_remove",
    function "table/merge" "charon.table_merge",
    function "object/new" "charon.object_new",
    function "object/new-raw" "charon.object_new_raw",
    effect "object/get" "charon.object_get",
    effect "object/set" "charon.object_set",
    function "atom" "charon.atom",
    effect "atom/reset!" "charon.atom_set",
    effect "atom/apply!" "charon.atom_apply",
    effect "atom/get" "charon.atom_get",
    function "opaque-call" "charon.opaque_call",
    function "call" "charon.call",
    effect "println!" "charon.println",
    effect "print!" "charon.print",
    effect "file/open" "charon.file_open",
    effect "file/close" "charon.file_close",
    effect "file/write" "charon.file_write",
    effect "file/read" "charon.file_read"]

/-- The functions of Lua itself. -/
def platform : List Entry :=
  [function "string/byte" "string.byte",
    function "string/char" "string.char",
    function "string/dump" "string.dump",
    function "string/find" "string.find",
    function "string/format" "string.format",
    function "string/gmatch" "string.gmatch",
    function "string/gsub" "string.gsub",
    function "string/len" "string.len",
    function "string/lower" "string.lower",
    function "string/match" "string.match",
    function "string/rep" "string.rep",
    function "string/reverse" "string.reverse",
    function "string/sub" "string.sub",
    function "string/upper" "string.upper",
    function "math/abs" "math.abs",
    function "math/ceil" "math.ceil",
    function "math/floor" "math.floor",
    function "math/max" "math.max",
    function "math/min" "math.min",
    function "math/sqrt" "math.sqrt",
    effect "math/random" "math.random"]

/-- The standard names. -/
def table : List Entry :=
  forms ++ operators ++ library ++ platform

/-- The entry of a name. -/
def find? (name : String) : Option Entry :=
  table.find? fun e => e.surface == name

end Standard

end LispLua
