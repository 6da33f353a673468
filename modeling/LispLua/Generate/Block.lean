import LispLua.Generate.Value

/-!
# Blocks

Lowering of the forms that are blocks with a value: `do`, `let`, `if`, `when`, `for`, `try` and
`catch`. Each becomes a function that is called at once.
-/

namespace LispLua.Gen

open Lua

/-- Whether a term is a definition as far as its name tells. -/
def isDefinition (t : Term) : Gen Bool := do
  match t with
  | .call (.name token) _ _ =>
    return ((← find? token.text).bind Meaning.form?).any Form.isDefinition
  | _ => return false

/-- The return of unit, which ends a body whose last term has no value. -/
def giveUnit : Code :=
  .give true (.word "charon.Unit")

/-- Whether a text is one word of Lua, which can be indexed as it stands. -/
def isWord (text : String) : Bool :=
  match text.toList with
  | [] => false
  | c :: cs =>
    (isAlphabetic c || c == '_') && (c :: cs).all fun c => isAlphanumeric c || c == '_'

/-- Code in a form that can be indexed. -/
def indexable (c : Code) : Code :=
  if isWord c.render then c else .paren c

/-- Bind a name of the innermost block. -/
def bindLocal (t : Token) (value : Code) : Gen Code :=
  return .bind (← registerLocal t) value

mutual

/-- Bind the names of a pattern to the parts of a value. -/
def destructure : Term → Code → Gen (List Code)
  | .list items _, value => destructureItems items value 0
  | .name t, value => return [← bindLocal t value]
  | t, _ => refuse (.pattern t.shape) t.span

/-- Bind the names of patterns to the items of a value from `index` on. -/
def destructureItems : List Term → Code → Nat → Gen (List Code)
  | [], _, _ => return []
  | t :: ts, value, index => do
    let first ← destructure t (.item value index)
    return first ++ (← destructureItems ts value (index + 1))

end

/-- Bind the left side of a pair to a value. -/
def bindPair (left : Term) (value : Code) : Gen (List Code) := do
  match left with
  | .name t => return [← bindLocal t value]
  | .list items _ => destructureItems items (indexable value) 0
  | t => refuse (.letPattern t.shape) t.span

variable (lower : Lower)

/-- Terms in a row. The last one is the value, unless it is a definition, which has none. -/
def body : List Term → Gen (List Code)
  | [] => return []
  | [t] => do
    let definition ← isDefinition t
    let s ← lower t
    return if definition then [.run s.separated s.code, giveUnit] else [.give s.separated s.code]
  | t :: ts => do
    let s ← lower t
    return .run s.separated s.code :: (← body ts)

/-- The form `do`. -/
def block (ts : List Term) : Gen Code := do
  thunk (.lines (← body lower ts))

/-- Bind pairs of a left side and a value, in order. A value sees the names bound before it, and not
its own. -/
def bindPairs : List Term → Gen (List Code)
  | left :: right :: rest => do
    let value ← eval lower right
    let first ← bindPair left value
    return first ++ (← bindPairs rest)
  | _ => return []

/-- The form `let`. -/
def bindings (c : Call) : Gen Code := do
  match c.args with
  | .list pairs _ :: ts =>
    if pairs.length % 2 ≠ 0 then refuse .letOdd c.span
    inLayer none do
      let bs ← bindPairs lower pairs
      thunk (.scope bs (.lines (← body lower ts)))
  | t :: _ => refuse .letVector t.span
  | [] => refuse .letMissing c.span

/-- The form `if`. -/
def conditional (c : Call) : Gen Code := do
  match c.args with
  | test :: yes :: no =>
    if 1 < no.length then refuse .ifArity c.span
    let test ← eval lower test
    let yes ← eval lower yes
    thunk (.branch test yes (.lines (← body lower no)))
  | _ => refuse .ifArity c.span

/-- The equalities of the items of a list pattern from `index` on; `_` matches anything. -/
def itemTests (subject : Code) : List Term → Nat → Gen (List Code)
  | [], _ => return []
  | t :: ts, index =>
    if t.isName "_" then itemTests subject ts (index + 1)
    else do
      let value ← eval lower t
      let test := Code.binary " == " (.item (indexable subject) index) value
      return test :: (← itemTests subject ts (index + 1))

/-- The test of a case. -/
def caseTest (subject : Code) (t : Term) : Gen Code := do
  match t with
  | .list items _ => return .every (.isTable subject :: (← itemTests lower subject items 0))
  | _ => return .binary " == " subject (← eval lower t)

/-- The arms of a match. A case `_` is none, and all but the first of those are flaws. -/
def arms (subject : Code) : List Term → Bool → Gen (List Code)
  | left :: right :: rest, seen =>
    if left.isName "_" then do
      if seen then warn "Repeated fallback case on when!" left.span
      arms subject rest true
    else do
      let value ← eval lower right
      let test ← caseTest lower subject left
      return .arm test value :: (← arms subject rest seen)
  | _, _ => return []

/-- The value of the last case `_` of a match. -/
def fallback? : List Term → Option Term
  | left :: right :: rest =>
    fallback? rest <|> if left.isName "_" then some right else none
  | _ => none

/-- The choice between arms and a last resort; there may be none of either. -/
def choice : List Code → Option (List Code) → Code
  | [], otherwise => .lines (otherwise.getD [])
  | cases, none => .choose cases
  | cases, some otherwise => .chooseElse cases (.lines otherwise)

/-- The form `when`. -/
def matching (c : Call) : Gen Code := do
  match c.args with
  | [] => refuse .whenMissing c.span
  | value :: cases =>
    if cases.length % 2 ≠ 0 then refuse .whenOdd c.span
    let subject ← eval lower value
    let tests ← arms lower subject cases false
    let otherwise ← (fallback? cases).mapM fun t => body lower [t]
    thunk (choice tests otherwise)

/-- What a loop without a key runs over: a range is counted, all else is taken in pairs. -/
def loopSource (source : Term) : Gen (List Code ⊕ Code) := do
  match source with
  | .call (.name t) bounds _ =>
    if t.text == "range" && (bounds.length == 2 || bounds.length == 3) then
      return .inl (← evalAll lower bounds)
    else return .inr (← eval lower source)
  | _ => return .inr (← eval lower source)

/-- The name of a loop variable. -/
def loopName (cause : Cause) (t : Term) : Gen Token :=
  match t.asName? with
  | some token => return token
  | none => refuse cause t.span

/-- The form `for`, in a layer of its own. What it runs over does not see the loop variables. -/
def loop (c : Call) : Gen Code := do
  match c.args with
  | .list [item, source] _ :: ts =>
    let item ← loopName .forItem item
    let source ← loopSource lower source
    let value ← registerLocal item
    let terms ← evalAll lower ts
    match source with
    | .inl bounds => thunk (.count value bounds terms)
    | .inr source => thunk (.each "_" value source terms)
  | .list [item, key, source] _ :: ts =>
    let item ← loopName .forItem item
    let key ← loopName .forKey key
    let source ← eval lower source
    let value ← registerLocal item
    let key ← registerLocal key
    let terms ← evalAll lower ts
    thunk (.each key value source terms)
  | .list _ span :: _ => refuse .forArity span
  | t :: _ => refuse .forVector t.span
  | [] => refuse .forVector c.span

/-- The form `try`. Clauses that handle the error may stand anywhere in it. -/
def attempt (ts : List Term) : Gen Code := do
  let trying ← body lower (ts.filter fun t => !t.isCatch)
  let catching ← body lower (ts.filter Term.isCatch)
  thunk (.protect (← read).options.variadic (.lines trying) (.lines catching))

/-- The form `catch`. -/
def handler (c : Call) : Gen Code := do
  match c.args with
  | .list items span :: ts =>
    match items.head?.bind Term.asName? with
    | some t =>
      inLayer none do
        let name ← registerLocal t
        return .handler name (.lines (← body lower ts))
    | none => refuse .catchName span
  | _ => refuse .catchVector c.span

end LispLua.Gen
