import LispLua.Generate.Value
import LispLua.Term.Sugar

/-!
# Operators

Operators lower to expressions of Lua. They take any number of operands: arithmetic and logic join
them, and a comparison must hold between every two of them.
-/

namespace LispLua.Gen

open Lua

/-- An operand. One that starts with a minus sign is put into parentheses, since two minus signs
start a comment. -/
def operand (c : Code) : Code :=
  if c.render.toList.head? = some '-' then .paren c else c

/-- A power; before version 5.3 it is a call. -/
def power (target : Target) (base exponent : Code) : Code :=
  if target.powerIsCall then .power base exponent else .chain "^" [base, exponent]

/-- An operator between its operands. -/
def combine (op : Operator) (target : Target) (operands : List Code) : Code :=
  if op.isComparison then
    .chain " and " ((uniquePairs operands).map fun (a, b) => .binary op.text a b)
  else
    match op, operands with
    | .nand, _ | .nor, _ => .negate (.chain op.text operands)
    | .pow, first :: rest => rest.foldl (power target) first
    | _, _ => .chain op.text operands

variable (lower : Lower)

/-- The form of an operator. -/
def operator (op : Operator) (c : Call) : Gen Code := do
  if c.args.length < 2 then refuse (.operatorArity c.target.render) c.span
  let operands ← c.args.mapM fun t => return operand (← eval lower t)
  return combine op (← read).options.target operands

/-- The form `not`. -/
def negation (c : Call) : Gen Code := do
  match c.args with
  | [t] => return .negate (← eval lower t)
  | _ => refuse .notArity c.span

end LispLua.Gen
