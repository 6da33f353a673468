import LispLua.Generate.Function
import LispLua.Generate.Operator
import LispLua.Generate.Package

/-!
# Lowering of terms

The lowering of every kind of term, by one step that takes the lowering of the terms inside as a
parameter, and the knot that ties the step to itself.

Sugar such as threading can stand for a term that is larger than the one it came from, so lowering
does not follow the structure of terms. What does go down is the rank: sugar has a rank above that
of the term it stands for. The knot is tied on the rank.
-/

namespace LispLua

namespace Gen

open Lua

section

variable (lower : Lower)

/-- The expression of the term that sugar stands for. -/
def desugared (t : Except Fault Term) : Gen Code := do
  eval lower (← ofExcept t)

/-- An expression as an ordinary statement. -/
def plain (g : Gen Code) : Gen Stmt :=
  return (← g).stmt

/-- A special form. -/
def expand (form : Form) (c : Call) : Gen Stmt :=
  match form with
  | .define isPure => plain (define lower c isPure)
  | .function isPure hidden => plain (function lower c isPure hidden)
  | .declare => declare c
  | .importModule => plain (importModule lower c.args c.span)
  | .nameModule => plain (nameModule lower c)
  | .bindings => plain (bindings lower c)
  | .conditional => plain (conditional lower c)
  | .matching => plain (matching lower c)
  | .block => plain (block lower c.args)
  | .loop => plain (inLayer none (loop lower c))
  | .lambda => plain (lambda lower c)
  | .attempt => plain (attempt lower c.args)
  | .handler => plain (handler lower c)
  | .arguments => plain (return .arguments)
  | .threadFirst => plain (desugared lower (Term.thread .first c.args c.span))
  | .threadLast => plain (desugared lower (Term.thread .last c.args c.span))
  | .fanFirst => plain (desugared lower (Term.fan .first c.args c.span))
  | .fanLast => plain (desugared lower (Term.fan .last c.args c.span))
  | .negation => plain (negation lower c)
  | .operator op => plain (operator lower op c)
  | .parity => plain (desugared lower (Term.parity c.args c.span))

/-- A call through what a name means. A function is referred to after its arguments are lowered. -/
def through (m : Meaning) (c : Call) : Gen Stmt :=
  match m.form? with
  | some form => expand lower form c
  | none => plain do
    let as ← args lower c.args
    return .call (← reference m) as

/-- Refuse a function with effects inside pure functions. -/
def permit (m : Meaning) (span : Span) : Gen Unit := do
  if (← isPure) && m.isEffect then refuse .effectInPure span

/-- A call, by what it is made through. -/
def dispatch (c : Call) : Gen Stmt :=
  match c.target with
  | .symbol _ | .number _ => lower c.indexed.term
  | .wildcard t => plain do
    if t.text ≠ "#'" then refuse (.wildcardText t.text) t.span
    return .call (.word "__self_ref__") (← args lower c.args)
  | .name t => do
    let m ← resolve t
    permit m c.span
    through lower m c
  | .path p => plain do
    let callee ← access p
    return .call callee (← args lower c.args)
  | t => refuse (.badTarget t.shape) c.span

/-- A call. -/
def call (c : Call) : Gen Stmt :=
  inCall c (dispatch lower c)

/-- One step of lowering. -/
def step (t : Term) : Gen Stmt :=
  match t with
  | .call target ts span => call lower ⟨target, ts, span⟩
  | .list items _ => plain (return .list (← evalAll lower items))
  | .table items escaped _ => plain (table lower items escaped)
  | .path p => plain (pathValue p)
  | .name token => plain (nameValue token)
  | .symbol token => plain (return .symbol token.text)
  | .number token => plain (return .word token.text)
  | .string token => plain (return .word (stringText token.text))
  | .wildcard token => refuse .wildcardValue token.span

end

end Gen

/-- Whether a call of a name is replaced by a term made from its arguments, as far as the standard
meaning of the name goes. -/
def isSugared (name : String) : Bool :=
  match Standard.find? name with
  | some ⟨_, _, .form form _⟩ => form.isSugar
  | _ => false

mutual

/-- A bound on the depth of the lowering of a term. -/
def Term.rank : Term → Nat
  | .list items _ | .table items _ _ => Term.rankMax items + 1
  | .call target args _ =>
    match target with
    | .name t => if isSugared t.text then Term.rankSum args + 1 else max (Term.rankMax args) 1 + 1
    | .symbol _ | .number _ => max (Term.rankMax args) 1 + 2
    | _ => max (Term.rankMax args) 1 + 1
  | _ => 1

/-- The greatest rank of some terms. -/
def Term.rankMax : List Term → Nat
  | [] => 0
  | t :: ts => max t.rank (Term.rankMax ts)

/-- The ranks of some terms and three for each, added up. -/
def Term.rankSum : List Term → Nat
  | [] => 0
  | t :: ts => t.rank + 3 + Term.rankSum ts

end

namespace Gen

open Lua

/-- The lowering of terms of a rank up to `depth`. -/
def within : Nat → Lower
  | 0, t => refuse .unfinished t.span
  | depth + 1, t => step (within depth) t

/-- The lowering of a term to a statement. -/
def term (t : Term) : Gen Stmt :=
  within t.rank t

/-- The lowering of a term to an expression. -/
def value (t : Term) : Gen Code :=
  eval term t

end Gen

end LispLua
