/-!
# Expressions of Lua

How Lua reads an expression, as far as numerals, names, arithmetic, comparison and logic go: the
tokens of a text, the tree of the tokens, and the value of the tree.

Trees are built by precedence climbing, as Lua itself does it. An expression is read at a limit: of
the operators that follow its first operand it takes those that bind tighter than the limit. The
limit for the right operand is the strength of the operator, so operators of one strength associate
to the left; the power has a lower limit on its right, so it associates to the right.

A token is always the longest that a text starts with. Two minus signs in a row are one token, which
no expression contains: they start a comment.
-/

namespace LispLua.Lua

/-! ### Operators -/

/-- Operators on numbers. -/
inductive Arithmetic where
  | add | sub | mul | div | pow
  deriving DecidableEq

/-- Operators that compare. -/
inductive Comparison where
  | eq | ne | lt | gt | le | ge
  deriving DecidableEq

/-- Operators between two operands. -/
inductive BinaryOp where
  | or | and
  | comparison (op : Comparison)
  | arithmetic (op : Arithmetic)
  deriving DecidableEq

namespace BinaryOp

/-- How tight an operator binds the operand in front of it. -/
def left : BinaryOp → Nat
  | or => 1
  | and => 2
  | comparison _ => 3
  | arithmetic .add | arithmetic .sub => 4
  | arithmetic .mul | arithmetic .div => 5
  | arithmetic .pow => 8

/-- How tight an operator binds the operand behind it. -/
def right : BinaryOp → Nat
  | arithmetic .pow => 7
  | op => op.left

end BinaryOp

/-- How tight the operators in front of a single operand bind it. -/
def unaryLimit : Nat := 6

/-! ### Tokens -/

/-- A token of an expression. -/
inductive Token where
  | name (text : String)
  | numeral (text : String)
  | binary (op : BinaryOp)
  | not
  | lparen
  | rparen
  | comma
  | point
  /-- A token of Lua that no expression here contains. -/
  | other (text : String)
  deriving DecidableEq

/-- The characters of a name. -/
def isWordChar (c : Char) : Bool :=
  c.isAlphanum || c == '_'

/-- The characters that go on a numeral. -/
def isNumeralChar (c : Char) : Bool :=
  isWordChar c || c == '.'

/-- Whether a run of characters is a decimal numeral without an exponent. -/
def isDecimal (run : List Char) : Bool :=
  run.all (fun c => c.isDigit || c == '.') && run.count '.' ≤ 1

/-- The words that are no names. -/
def reserved : List (String × Token) :=
  [("and", .binary .and), ("or", .binary .or), ("not", .not)] ++
    ["break", "do", "else", "elseif", "end", "false", "for", "function", "goto", "if", "in",
      "local", "nil", "repeat", "return", "then", "true", "until", "while"].map
        fun word => (word, .other word)

/-- The token that a word is. -/
def wordToken (text : String) : Token :=
  (reserved.lookup text).getD (.name text)

/-- The tokens made of other characters, each in front of those it starts with. -/
def marks : List (List Char × Token) :=
  [(['.', '.', '.'], .other "..."), (['.', '.'], .other ".."), (['-', '-'], .other "--"),
    (['/', '/'], .other "//"), (['<', '<'], .other "<<"), (['>', '>'], .other ">>"),
    (['=', '='], .binary (.comparison .eq)), (['~', '='], .binary (.comparison .ne)),
    (['<', '='], .binary (.comparison .le)), (['>', '='], .binary (.comparison .ge)),
    (['<'], .binary (.comparison .lt)), (['>'], .binary (.comparison .gt)),
    (['+'], .binary (.arithmetic .add)), (['-'], .binary (.arithmetic .sub)),
    (['*'], .binary (.arithmetic .mul)), (['/'], .binary (.arithmetic .div)),
    (['^'], .binary (.arithmetic .pow)),
    (['('], .lparen), ([')'], .rparen), ([','], .comma), (['.'], .point)]

/-- The token that a text starts with, and how many characters it has. -/
def token? : List Char → Option (Token × Nat)
  | [] => none
  | c :: cs =>
    if c.isDigit then
      let run := (c :: cs).takeWhile isNumeralChar
      if isDecimal run then some (.numeral (String.ofList run), run.length) else none
    else if isWordChar c then
      let run := (c :: cs).takeWhile isWordChar
      some (wordToken (String.ofList run), run.length)
    else
      (marks.find? fun m => m.1.isPrefixOf (c :: cs)).map fun m => (m.2, m.1.length)

/-- The tokens of a text. -/
def tokenise : List Char → Option (List Token)
  | [] => some []
  | c :: cs =>
    if c.isWhitespace then tokenise cs
    else
      match token? (c :: cs) with
      | some (t, n) => (tokenise (cs.drop (n - 1))).map (t :: ·)
      | none => none
termination_by cs => cs.length

/-! ### Trees -/

/-- The tree of an expression. -/
inductive Expr where
  | numeral (text : String)
  | name (text : String)
  | neg (operand : Expr)
  | not (operand : Expr)
  | binary (op : BinaryOp) (left right : Expr)
  /-- `math.pow(base, exponent)` -/
  | power (base exponent : Expr)

/-- What reads a tree off the front of some tokens. -/
abbrev Parser := List Token → Option (Expr × List Token)

/-- A tree in front of a token, which is read too. -/
def upTo (t : Token) (p : Parser) : Parser := fun ts =>
  match p ts with
  | some (e, u :: rest) => if u = t then some (e, rest) else none
  | _ => none

/-- An operand. The expressions inside it are read by `inner` at a limit. -/
def operand (inner : Nat → Parser) : Parser
  | .numeral text :: ts => some (.numeral text, ts)
  | .name text :: .point :: .name key :: .lparen :: ts => do
    if text ≠ "math" ∨ key ≠ "pow" then none
    let (base, ts) ← upTo .comma (inner 0) ts
    let (exponent, ts) ← upTo .rparen (inner 0) ts
    return (.power base exponent, ts)
  | .name text :: ts => some (.name text, ts)
  | .lparen :: ts => upTo .rparen (inner 0) ts
  | .not :: ts => do
    let (e, ts) ← inner unaryLimit ts
    return (.not e, ts)
  | .binary (.arithmetic .sub) :: ts => do
    let (e, ts) ← inner unaryLimit ts
    return (.neg e, ts)
  | _ => none

/-- The operators that bind tighter than a limit, with their right operands, behind a tree; `n`
bounds their number. -/
def operators (inner : Nat → Parser) (limit : Nat) : Nat → Expr → Parser
  | n + 1, e, .binary op :: ts =>
    if limit < op.left then do
      let (right, ts) ← inner op.right ts
      operators inner limit n (.binary op e right) ts
    else some (e, .binary op :: ts)
  | _, e, ts => some (e, ts)

/-- An expression at a limit that is nested up to `depth`. -/
def expression : Nat → Nat → Parser
  | 0, _, _ => none
  | depth + 1, limit, ts => do
    let (first, ts) ← operand (expression depth) ts
    operators (expression depth) limit ts.length first ts

/-- The tree of a text that is an expression. -/
def parse (text : String) : Option Expr := do
  let ts ← tokenise text.toList
  -- Every level of nesting and every operator costs a token at least.
  match expression ts.length 0 ts with
  | some (e, []) => some e
  | _ => none

/-! ### Values -/

universe u

/-- The primitive operations on values. All that is asked of them is that the two results of a
comparison can be told apart by a test. -/
structure Interpretation (V : Type u) where
  numeral : String → V
  neg : V → V
  arithmetic : Arithmetic → V → V → V
  holds : Comparison → V → V → Bool
  /-- Whether a test of a value succeeds. -/
  truthy : V → Bool
  /-- The result of a comparison as a value. -/
  truth : Bool → V
  truthy_truth (b : Bool) : truthy (truth b) = b

namespace Interpretation

variable {V : Type u} (I : Interpretation V)

/-- `not` -/
def not (a : V) : V :=
  I.truth (!I.truthy a)

/-- `and`, which gives one of its operands. -/
def and (a b : V) : V :=
  if I.truthy a then b else a

/-- `or`, which gives one of its operands. -/
def or (a b : V) : V :=
  if I.truthy a then a else b

/-- An operator between two values. -/
def apply : BinaryOp → V → V → V
  | .or => I.or
  | .and => I.and
  | .comparison op => fun a b => I.truth (I.holds op a b)
  | .arithmetic op => I.arithmetic op

end Interpretation

/-- The value of a tree, where `locals` gives the values of names. -/
def Expr.eval {V : Type u} (I : Interpretation V) (locals : String → V) : Expr → V
  | numeral text => I.numeral text
  | name text => locals text
  | neg e => I.neg (e.eval I locals)
  | not e => I.not (e.eval I locals)
  | binary op l r => I.apply op (l.eval I locals) (r.eval I locals)
  | power b e => I.arithmetic .pow (b.eval I locals) (e.eval I locals)

end LispLua.Lua
