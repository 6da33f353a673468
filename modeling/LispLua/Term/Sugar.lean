import LispLua.Fault

/-!
# Sugar

Some forms are sugar: they stand for a plain term made from their arguments, which is then lowered
like any other. Nothing here looks at the scope.
-/

namespace LispLua

/-- All pairs of an element and a later one, in the order of the list. -/
def uniquePairs {α : Type} : List α → List (α × α)
  | [] => []
  | a :: as => as.map (fun b => (a, b)) ++ uniquePairs as

/-- Where a threaded value goes among the arguments of a stage. -/
inductive Slot where
  | first
  | last
  deriving DecidableEq, Inhabited

/-- A call with one more argument. -/
def Call.insert (c : Call) (slot : Slot) (value : Term) : Call :=
  match slot with
  | .first => { c with args := value :: c.args }
  | .last => { c with args := c.args ++ [value] }

namespace Term

/-- A stage of a thread with the value put in; only a call can be a stage. -/
def feed (slot : Slot) (value : Term) : Term → Except Fault Term
  | call target args span => .ok (Call.insert ⟨target, args, span⟩ slot value).term
  | t => .error ⟨.threadStage t.shape, t.span⟩

/-- Pass the first term through the others: `v (f a) (g b)` becomes `(g (f v a) b)`. -/
def thread (slot : Slot) (terms : List Term) (span : Span) : Except Fault Term :=
  match terms with
  | [] => .error ⟨.threadMissing, span⟩
  | value :: stages => stages.foldlM (fun value stage => feed slot value stage) value

/-- Pass the first term to each of the others: `v (f a) (g b)` becomes `[(f v a) (g v b)]`. -/
def fan (slot : Slot) (terms : List Term) (span : Span) : Except Fault Term :=
  match terms with
  | [] => .error ⟨.threadMissing, span⟩
  | value :: stages => return .list (← stages.mapM (feed slot value)) span

/-- A call of a plain name as a term. -/
def named (name : String) (span : Span) (args : List Term) : Term :=
  (Call.named name span args).term

/-- Exclusive or of two terms. -/
def exclusive (span : Span) (a b : Term) : Term :=
  named "or" span
    [named "and" b.span [named "not" a.span [a], b],
      named "and" a.span [a, named "not" b.span [b]]]

/-- Exclusive or of any number of terms, folded from the left. -/
def parity (terms : List Term) (span : Span) : Except Fault Term :=
  match terms with
  | [] => .error ⟨.parityArity, span⟩
  | first :: rest => .ok (rest.foldl (exclusive span) first)

end Term

namespace Index

/-- The greatest absolute value of a signed integer of 64 bits, which only a negative one has. -/
def limit : Nat :=
  0x8000000000000000

/-- The number some decimal digits stand for. -/
def value (digits : List Char) : Nat :=
  digits.foldl (fun n d => 10 * n + (d.toNat - '0'.toNat)) 0

/-- Whether some characters are the digits of a number of at most `bound`. -/
def within (bound : Nat) (digits : List Char) : Bool :=
  !digits.isEmpty && digits.all Char.isDigit && value digits ≤ bound

end Index

/-- Whether a text is an integer of 64 bits, with an optional sign. -/
def isIndex (text : String) : Bool :=
  match text.toList with
  | '-' :: digits => Index.within Index.limit digits
  | '+' :: digits => Index.within (Index.limit - 1) digits
  | digits => Index.within (Index.limit - 1) digits

/-- The function and the key a symbol or a number stands for as the target of a call. A symbol that
is written like an integer indexes lists, as a number does. -/
def Term.indexer : Term → String × Term
  | .symbol t => if isIndex t.text then ("list/get", .number t) else ("table/get", .symbol t)
  | .number t => ("list/get", .number t)
  | t => ("table/get", t)

/-- A call of a symbol or a number as a call of the function it stands for: `(:key m)` becomes
`(table/get :key m)` and `(0 v)` becomes `(list/get 0 v)`. -/
def Call.indexed (c : Call) : Call :=
  let (getter, key) := c.target.indexer
  ⟨.name ⟨getter, c.target.span⟩, key :: c.args, c.span⟩

end LispLua
