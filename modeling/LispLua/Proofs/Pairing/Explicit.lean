import LispLua.Proofs.Pairing.Term

/-!
# The generator with arms for what cannot happen

The forms take their arguments apart by patterns, so nothing can be missing where it is used. Here
they are written once more with indices and slices, as one would in a language of arrays: after a
check of the number of arguments, an argument is taken by its index, and pairs are chunks of two.
Each access out of range, and each case that should not arise, is an arm of its own. What is done
there is a parameter.
-/

namespace LispLua.Gen

open Lua

/-- What cannot happen during a generation. -/
inductive Arm where
  /-- A call is made through something that cannot be called. -/
  | target
  /-- A function refers to itself by another text. -/
  | wildcard
  /-- A loop over pairs has no name for the keys. -/
  | key
  /-- An operator has no spelling. -/
  | spelling
  /-- An index or a slice is out of range. -/
  | range
  /-- Lowering goes deeper than the rank of a term. -/
  | depth
  deriving DecidableEq

/-- What is done where something happens that cannot. -/
abbrev Crash := ∀ α : Type, Arm → Gen α

theorem refuse_bind {α β : Type} (cause : Cause) (span : Span) (k : α → Gen β) :
    (refuse cause span : Gen α) >>= k = refuse cause span := rfl

namespace Explicit

/-- The chunks of two elements of a row; the last one may be shorter. -/
def chunks {α : Type} : List α → List (List α)
  | [] => []
  | [a] => [[a]]
  | a :: b :: rest => [a, b] :: chunks rest

section

variable (crash : Crash) {α : Type}

/-- The element at an index. -/
def item (as : List α) (i : Nat) : Gen α :=
  match as[i]? with
  | some a => return a
  | none => crash α .range

/-- The slice from an index on. -/
def tail (as : List α) (i : Nat) : Gen (List α) :=
  if i ≤ as.length then return as.drop i else crash (List α) .range

@[simp] theorem item_zero (a : α) (as : List α) : item crash (a :: as) 0 = pure a := rfl

@[simp] theorem item_succ (a : α) (as : List α) (i : Nat) :
    item crash (a :: as) (i + 1) = item crash as i := rfl

@[simp] theorem tail_zero (as : List α) : tail crash as 0 = pure as := rfl

@[simp] theorem tail_succ (a : α) (as : List α) (i : Nat) :
    tail crash (a :: as) (i + 1) = tail crash as i := by
  simp [tail]

end

variable (crash : Crash) (lower : Lower)

/-! ### Values and blocks -/

/-- The entries of a table. -/
def entries (escaped : Bool) (ts : List Term) : Gen (List Code) :=
  (chunks ts).mapM fun pair => do
    let k ← key lower escaped (← item crash pair 0)
    match pair[1]? with
    | some v => return .entry k (← eval lower v)
    | none => return .entry k (← nameValue ⟨"unit", (← item crash pair 0).span⟩)

/-- A table. -/
def table (items : List Term) (escaped : Bool) : Gen Code := do
  let es ← entries crash lower escaped items
  return if escaped then .record es else .table es

/-- The form `let`. -/
def bindings (c : Call) : Gen Code := do
  match c.args.head? with
  | some (.list pairs _) =>
    if pairs.length % 2 ≠ 0 then refuse .letOdd c.span
    inLayer none do
      let bs ← (chunks pairs).mapM fun pair => do
        let value ← eval lower (← item crash pair 1)
        bindPair (← item crash pair 0) value
      let ts ← tail crash c.args 1
      thunk (.scope bs.flatten (.lines (← body lower ts)))
  | some t => refuse .letVector t.span
  | none => refuse .letMissing c.span

/-- The form `if`. -/
def conditional (c : Call) : Gen Code := do
  if c.args.length < 2 ∨ 3 < c.args.length then refuse .ifArity c.span
  let test ← eval lower (← item crash c.args 0)
  let yes ← eval lower (← item crash c.args 1)
  let no ← body lower (← tail crash c.args 2)
  thunk (.branch test yes (.lines no))

/-- The arms of a match, and the value of the last case `_`. -/
def arms (subject : Code) : List (List Term) → Option Term → Gen (List Code × Option Term)
  | [], fallback => return ([], fallback)
  | pair :: rest, fallback => do
    let left ← item crash pair 0
    let right ← item crash pair 1
    if left.isName "_" then do
      if fallback.isSome then warn "Repeated fallback case on when!" left.span
      arms subject rest (some right)
    else do
      let value ← eval lower right
      let test ← caseTest lower subject left
      let (tests, last) ← arms subject rest fallback
      return (.arm test value :: tests, last)

/-- The form `when`. -/
def matching (c : Call) : Gen Code := do
  match c.args with
  | [] => refuse .whenMissing c.span
  | value :: cases =>
    if cases.length % 2 ≠ 0 then refuse .whenOdd c.span
    let subject ← eval lower value
    let (tests, fallback) ← arms crash lower subject (chunks cases) none
    let otherwise ← fallback.mapM fun t => body lower [t]
    thunk (choice tests otherwise)

/-- What a loop runs over: numbers, pairs of keys and values, or values alone. -/
inductive Head where
  | range (bounds : List Code)
  | pairs (source : Code)
  | values (source : Code)

/-- What a loop runs over, given the name for the keys. -/
def head (key : Option Token) (source : Term) : Gen Head := do
  match source with
  | .call (.name t) bounds _ =>
    if key.isNone && (t.text == "range" && (bounds.length == 2 || bounds.length == 3)) then
      return .range (← evalAll lower bounds)
    else if key.isSome then return .pairs (← eval lower source)
    else return .values (← eval lower source)
  | _ =>
    if key.isSome then return .pairs (← eval lower source)
    else return .values (← eval lower source)

/-- The name for the keys of a loop, which stands between the other two binders. -/
def loopKey (binders : List Term) : Gen (Option Token) :=
  if binders.length = 3 then do
    return some (← loopName .forKey (← item crash binders 1))
  else return none

/-- The form `for`. -/
def loop (c : Call) : Gen Code := do
  match c.args.head? with
  | some (.list binders _) =>
    if binders.length < 2 ∨ 3 < binders.length then
      refuse .forArity (← item crash c.args 0).span
    let value ← loopName .forItem (← item crash binders 0)
    let key ← loopKey crash binders
    let head ← head lower key (← item crash binders (binders.length - 1))
    let value ← registerLocal value
    let key ← key.mapM registerLocal
    let terms ← evalAll lower (← tail crash c.args 1)
    match head, key with
    | .range bounds, _ => thunk (.count value bounds terms)
    | .pairs source, some key => thunk (.each key value source terms)
    | .values source, _ => thunk (.each "_" value source terms)
    | .pairs _, none => crash Code .key
  | some t => refuse .forVector t.span
  | none => refuse .forVector c.span

/-- The form `catch`. -/
def handler (c : Call) : Gen Code := do
  match c.args.head? with
  | some (.list items _) =>
    match items.head?.bind Term.asName? with
    | some t =>
      inLayer none do
        let name ← registerLocal t
        return .handler name (.lines (← body lower (← tail crash c.args 1)))
    | none => refuse .catchName (← item crash c.args 0).span
  | _ => refuse .catchVector c.span

/-! ### Functions -/

/-- The form `fn`. -/
def lambda (c : Call) : Gen Code := do
  match c.args.head? with
  | some (.list formals _) => inLayer none do closure lower formals (← tail crash c.args 1)
  | some t => refuse .lambdaVector t.span
  | none => refuse .lambdaVector c.span

/-- Define a named function: a name, formal arguments, maybe the symbol `:global`, and a body. -/
def named (isPure hidden : Bool) (c : Call) : Gen Code := do
  let first ← item crash c.args 0
  match first.asName? with
  | none => refuse .functionName first.span
  | some token =>
    match ← item crash c.args 1 with
    | .list formals _ =>
      let everywhere := c.args[2]?.any fun t => isGlobal [t]
      let ts ← tail crash c.args (if everywhere then 3 else 2)
      let reach := if everywhere then Reach.everywhere else if hidden then .block else .package
      let binding ← register token (if isPure then .function else .effect) reach everywhere
      log (.defining binding.surface binding.emitted)
      let code ← inLayer (some isPure) (closure lower formals ts)
      if hidden && !everywhere then return .declareThen binding.emitted code
      else return .assign (← reference (.declared binding)) code
    | t => refuse .functionVector t.span

/-- The forms `defn`, `defn!` and their hidden variants. -/
def function (c : Call) (isPure hidden : Bool) : Gen Code :=
  unlessPure .functionInPure c.span do
    if c.args.length < 2 then refuse .functionArity c.span
    named crash lower isPure hidden c

/-- The forms `def` and `def!`. -/
def define (c : Call) (isPure : Bool) : Gen Code :=
  unlessPure .valueInPure c.span <|
    match c.args with
    | .name _ :: .list _ _ :: _ :: _ => named crash lower isPure false c
    | [.name t, value] =>
      if isPure then do
        let value ← eval lower value
        let binding ← register t .value .package false
        return .define (← reference (.declared binding)) value
      else refuse .impureValue c.span
    | _ => refuse .definitionShape c.span

/-! ### Modules -/

/-- The form `import` with its arguments. -/
def importModule (ts : List Term) (span : Span) : Gen Code := do
  match ts.head? with
  | none => refuse .importMissing span
  | some first =>
    if ts.length = 1 then importWhole lower first
    else if ts.length = 3 then do
      importWord (← item crash ts 1)
      let source ← eval lower (← item crash ts 2)
      match first with
      | .name t => return .loadAs (← registerLocal t) source
      | .list items _ => return .loadMembers (← importMembers items) source
      | t => refuse (.importBinding t.shape) t.span
    else refuse .importShape span

/-- One import clause of a module. -/
def moduleImport (clause : Term) : Gen Code := do
  let ts ← importClause clause
  if ts.length ≠ 2 ∧ ts.length ≠ 4 then refuse .moduleArity clause.span
  let first ← item crash ts 0
  if first.asSymbol?.any (·.text = "import") then
    importModule crash lower (← tail crash ts 1) clause.span
  else refuse .moduleImport first.span

/-- The form `module`. -/
def nameModule (c : Call) : Gen Code := do
  match c.args.head? with
  | some (.name t) =>
    let job ← read
    modify (·.nameModule job.options t.text)
    let clauses ← tail crash c.args 1
    return .moduleNote t.text (← clauses.mapM (moduleImport crash lower))
  | some t => refuse (.moduleName t.shape) t.span
  | none => refuse .moduleMissing c.span

/-! ### Operators -/

/-- How an operator is spelled; exclusive or, which is none of the others, has no spelling. -/
def spelling : Option Operator → Gen String
  | some op => return op.text
  | none => crash String .spelling

/-- A power of any number of operands. -/
def powers (target : Target) (operands : List Code) : Gen Code := do
  let first ← item crash operands 0
  return (← tail crash operands 1).foldl (power target) first

/-- All pairs of an element and a later one. -/
def pairs {α : Type} (as : List α) : Gen (List (α × α)) := do
  let rows ← as.zipIdx.mapM fun (a, i) => do
    return (← tail crash as (i + 1)).map fun b => (a, b)
  return rows.flatten

/-- An operator between its operands. -/
def combine (op : Option Operator) (operands : List Code) : Gen Code := do
  if op.any Operator.isComparison then do
    let tests ← (← pairs crash operands).mapM fun (a, b) => do
      return Code.binary (← spelling crash op) a b
    return .chain " and " tests
  else
    match op with
    | some .nand | some .nor => return .negate (.chain (← spelling crash op) operands)
    | some .pow => powers crash (← read).options.target operands
    | _ => return .chain (← spelling crash op) operands

/-- The form of an operator, exclusive or included. -/
def operator (op : Option Operator) (c : Call) : Gen Code := do
  if op = none then desugared lower (Term.parity c.args c.span)
  else do
    if c.args.length < 2 then refuse (.operatorArity c.target.render) c.span
    combine crash op (← c.args.mapM fun t => return operand (← eval lower t))

/-! ### Terms -/

/-- A special form. -/
def expand (form : Form) (c : Call) : Gen Stmt :=
  match form with
  | .define isPure => plain (define crash lower c isPure)
  | .function isPure hidden => plain (function crash lower c isPure hidden)
  | .importModule => plain (importModule crash lower c.args c.span)
  | .nameModule => plain (nameModule crash lower c)
  | .bindings => plain (bindings crash lower c)
  | .conditional => plain (conditional crash lower c)
  | .matching => plain (matching crash lower c)
  | .loop => plain (inLayer none (loop crash lower c))
  | .lambda => plain (lambda crash lower c)
  | .handler => plain (handler crash lower c)
  | .operator op => plain (operator crash lower (some op) c)
  | .parity => plain (operator crash lower none c)
  | form => Gen.expand lower form c

/-- A call through what a name means. -/
def through (m : Meaning) (c : Call) : Gen Stmt :=
  match m.form? with
  | some form => expand crash lower form c
  | none => plain do
    let as ← args lower c.args
    return .call (← reference m) as

/-- A call, by what it is made through. -/
def dispatch (c : Call) : Gen Stmt :=
  match c.target with
  | .symbol _ | .number _ => lower c.indexed.term
  | .wildcard t => plain do
    if t.text ≠ "#'" then crash Unit .wildcard
    return .call (.word "__self_ref__") (← args lower c.args)
  | .name t => do
    let m ← resolve t
    permit m c.span
    through crash lower m c
  | .path p => plain do
    let callee ← access p
    return .call callee (← args lower c.args)
  | _ => crash Stmt .target

/-- One step of lowering. -/
def step (t : Term) : Gen Stmt :=
  match t with
  | .call target ts span => inCall ⟨target, ts, span⟩ (dispatch crash lower ⟨target, ts, span⟩)
  | .table items escaped _ => plain (table crash lower items escaped)
  | t => Gen.step lower t

/-- The lowering of terms of a rank up to `depth`. -/
def within : Nat → Lower
  | 0, _ => crash Stmt .depth
  | depth + 1, t => step crash (within depth) t

/-- The lowering of a term. -/
def term (t : Term) : Gen Stmt :=
  within crash t.rank t

/-- The chunk of a program. -/
def program (p : Program) : Gen Chunk := do
  let job ← read
  modify (·.publish job)
  chunk (← p.mapM fun c => term crash c.term)

/-- Compile a source text, and give the events on the way. -/
def compile (source sourceName : String) (options : Options) :
    Except Failure String × List Event :=
  let fail (f : Fault) : Failure := .compilation sourceName source (f.failure source)
  match parse source with
  | .error f => (.error (fail f), [.compiling sourceName])
  | .ok p =>
    let (result, s) := (program crash p).exec ⟨options, sourceName, source⟩ Session.start
    ((result.map Chunk.render).mapError fail, .compiling sourceName :: s.log)

/-! ### The arms of forms are not reached -/

section

variable {crash lower}

theorem chunks_cons_cons {α : Type} (a b : α) (rest : List α) :
    chunks (a :: b :: rest) = [a, b] :: chunks rest := rfl

/-- A condition under which the rest is refused. -/
theorem guard_congr {α : Type} {c c' : Prop} [Decidable c] [Decidable c'] {cause : Cause}
    {span : Span} {g h : Gen α} (hc : c ↔ c') (hg : ¬ c → g = h) :
    (if c then (do (refuse cause span : Gen PUnit); g) else g) =
      if c' then (do (refuse cause span : Gen PUnit); h) else h := by
  by_cases h : c
  · rw [if_pos h, if_pos (hc.1 h), refuse_bind, refuse_bind]
  · rw [if_neg h, if_neg (mt hc.2 h), hg h]

theorem entries_eq (escaped : Bool) :
    ∀ ts, entries crash lower escaped ts = Gen.entries lower escaped ts
  | [] => rfl
  | [k] => by simp [entries, Gen.entries, chunks]
  | k :: v :: rest => by
    have ih := entries_eq escaped rest
    rw [entries] at ih
    rw [entries, chunks_cons_cons, List.mapM_cons, ih, Gen.entries]
    simp

theorem table_eq (items : List Term) (escaped : Bool) :
    table crash lower items escaped = Gen.table lower items escaped := by
  rw [table, Gen.table, entries_eq]

/-- A row of an even number of terms, taken in chunks. -/
theorem bindPairs_eq (crash : Crash) : ∀ {pairs : List Term}, pairs.length % 2 = 0 →
    (do
      let bs ← (chunks pairs).mapM fun pair => do
        let value ← eval lower (← item crash pair 1)
        bindPair (← item crash pair 0) value
      return bs.flatten) = bindPairs lower pairs
  | [], _ => rfl
  | [_], h => by cases h
  | left :: right :: rest, h => by
    have heven : rest.length % 2 = 0 := by
      simp only [List.length_cons] at h
      omega
    rw [chunks_cons_cons, List.mapM_cons, bindPairs, ← bindPairs_eq crash heven]
    simp

theorem bindings_eq (c : Call) : bindings crash lower c = Gen.bindings lower c := by
  obtain ⟨target, _ | ⟨t, ts⟩, span⟩ := c
  · rfl
  · cases t with
    | list pairs sp =>
      refine guard_congr Iff.rfl fun h => congrArg (inLayer none) ?_
      rw [← bindPairs_eq crash (not_not.1 h)]
      simp
    | _ => rfl

theorem conditional_eq (c : Call) : conditional crash lower c = Gen.conditional lower c := by
  obtain ⟨target, args, span⟩ := c
  match args with
  | [] | [_] => simp [conditional, Gen.conditional, refuse_bind]
  | test :: yes :: no =>
    refine guard_congr ?_ fun _ => by simp
    simp only [List.length_cons]
    omega

/-- The last of the cases `_` counts, and one was seen if there is a fallback. -/
theorem arms_eq (subject : Code) : ∀ {cases : List Term} (fallback : Option Term),
    cases.length % 2 = 0 → arms crash lower subject (chunks cases) fallback = do
      let tests ← Gen.arms lower subject cases fallback.isSome
      return (tests, fallback? cases <|> fallback)
  | [], _, _ => rfl
  | [_], _, h => by cases h
  | left :: right :: rest, fallback, h => by
    have heven : rest.length % 2 = 0 := by
      simp only [List.length_cons] at h
      omega
    rw [chunks_cons_cons, arms, Gen.arms, fallback?]
    by_cases hleft : left.isName "_"
    · cases fallback with
      | none => simp [hleft, arms_eq subject _ heven]
      | some t => simp [hleft, arms_eq subject _ heven]
    · simp [hleft, arms_eq subject _ heven]

theorem matching_eq (c : Call) : matching crash lower c = Gen.matching lower c := by
  obtain ⟨target, args, span⟩ := c
  match args with
  | [] => rfl
  | value :: cases =>
    refine guard_congr Iff.rfl fun h => ?_
    simp [arms_eq _ none (not_not.1 h)]

theorem head_none (t : Term) : head lower none t = do
    match ← loopSource lower t with
    | .inl bounds => return .range bounds
    | .inr source => return .values source := by
  cases t with
  | call target bounds sp =>
    cases target with
    | name token =>
      by_cases h : (token.text == "range" && (bounds.length == 2 || bounds.length == 3)) = true
      · simp [head, loopSource, h]
      · simp [head, loopSource, h]
    | _ => simp [head, loopSource]
  | _ => simp [head, loopSource]

theorem head_some (key : Token) (t : Term) :
    head lower (some key) t = do return .pairs (← eval lower t) := by
  cases t with
  | call target bounds sp => cases target <;> simp [head]
  | _ => simp [head]

theorem loop_eq (c : Call) : loop crash lower c = Gen.loop lower c := by
  obtain ⟨target, _ | ⟨t, ts⟩, span⟩ := c
  · rfl
  · cases t with
    | list binders sp =>
      match binders with
      | [] | [_] | _ :: _ :: _ :: _ :: _ => simp [loop, Gen.loop, refuse_bind, Term.span]
      | [item, source] =>
        simp only [loop, List.head?_cons, List.length_cons, List.length_nil, Nat.zero_add,
          Nat.reduceAdd, Nat.lt_irrefl, Nat.reduceLT, or_self, ↓reduceIte, item_zero, loopKey,
          Nat.reduceEqDiff, Nat.add_one_sub_one, item_succ, tail_succ, tail_zero, pure_bind,
          head_none, Option.mapM_none, bind_assoc, Gen.loop]
        refine bind_congr fun value => bind_congr fun source => ?_
        cases source with
        | inl bounds => simp
        | inr source => simp
      | [item, key, source] => simp [loop, Gen.loop, loopKey, head_some]
    | _ => rfl

theorem handler_eq (c : Call) : handler crash lower c = Gen.handler lower c := by
  obtain ⟨target, _ | ⟨t, ts⟩, span⟩ := c
  · rfl
  · cases t with
    | list items sp =>
      cases h : items.head?.bind Term.asName? with
      | none => simp [handler, Gen.handler, h, Term.span]
      | some t => simp [handler, Gen.handler, h]
    | _ => rfl

theorem lambda_eq (c : Call) : lambda crash lower c = Gen.lambda lower c := by
  obtain ⟨target, _ | ⟨t, ts⟩, span⟩ := c
  · rfl
  · cases t with
    | list formals sp => simp [lambda, Gen.lambda]
    | _ => rfl

theorem named_eq (isPure hidden : Bool) (target : Term) (token : Token) (formals rest : List Term)
    (sp span : Span) :
    named crash lower isPure hidden ⟨target, .name token :: .list formals sp :: rest, span⟩ =
      Gen.named lower isPure hidden token formals rest := by
  cases rest with
  | nil => simp [named, Gen.named, Term.asName?, isGlobal]
  | cons t ts =>
    have hfirst : isGlobal [t] = isGlobal (t :: ts) := by cases t <;> rfl
    cases h : isGlobal (t :: ts) with
    | false => simp [named, Gen.named, Term.asName?, hfirst, h]
    | true => simp [named, Gen.named, Term.asName?, hfirst, h]

theorem function_eq (c : Call) (isPure hidden : Bool) :
    function crash lower c isPure hidden = Gen.function lower c isPure hidden := by
  obtain ⟨target, args, span⟩ := c
  refine congrArg (unlessPure .functionInPure span) ?_
  match args with
  | [] => rfl
  | [t] => cases t <;> rfl
  | t :: u :: rest =>
    simp only [List.length_cons, show ¬ rest.length + 1 + 1 < 2 by omega, if_false]
    cases t with
    | name token =>
      cases u with
      | list formals sp => exact named_eq isPure hidden target token formals rest sp span
      | _ => rfl
    | _ => rfl

theorem define_eq (c : Call) (isPure : Bool) :
    define crash lower c isPure = Gen.define lower c isPure := by
  obtain ⟨target, args, span⟩ := c
  refine congrArg (unlessPure .valueInPure span) ?_
  match args with
  | [] => rfl
  | [t] => cases t <;> rfl
  | [t, u] => cases t <;> cases u <;> rfl
  | t :: u :: b :: bs =>
    cases t with
    | name token =>
      cases u with
      | list formals sp => exact named_eq isPure false target token formals (b :: bs) sp span
      | _ => rfl
    | _ => rfl

theorem importModule_eq (ts : List Term) (span : Span) :
    importModule crash lower ts span = Gen.importModule lower ts span := by
  match ts with
  | [] | [_] | [_, _] => rfl
  | [binding, word, source] => cases binding <;> simp [importModule, Gen.importModule]
  | _ :: _ :: _ :: _ :: _ => simp [importModule, Gen.importModule]

theorem moduleImport_eq (clause : Term) :
    moduleImport crash lower clause = Gen.moduleImport lower clause := by
  refine bind_congr fun ts => guard_congr Iff.rfl fun h => ?_
  cases ts with
  | nil => simp at h
  | cons t ts => cases t <;> simp [Term.asSymbol?, Term.span, importModule_eq]

theorem nameModule_eq (c : Call) : nameModule crash lower c = Gen.nameModule lower c := by
  obtain ⟨target, _ | ⟨t, clauses⟩, span⟩ := c
  · rfl
  · cases t with
    | name t =>
      have hclauses : moduleImport crash lower = Gen.moduleImport lower := funext moduleImport_eq
      simp [nameModule, Gen.nameModule, hclauses]
    | _ => rfl

/-- Rows of pairs, of which the first starts behind `front`. -/
theorem rows_eq {α : Type} (crash : Crash) (as front : List α) :
    (do
      let rows ← (as.zipIdx front.length).mapM fun (row : α × Nat) => do
        return (← tail crash (front ++ as) (row.2 + 1)).map fun b => (row.1, b)
      return rows.flatten) = pure (uniquePairs as) := by
  induction as generalizing front with
  | nil => rfl
  | cons a as ih =>
    have hrest := ih (front ++ [a])
    have htail : tail crash (front ++ a :: as) (front.length + 1) = pure as := by simp [tail]
    rw [List.append_assoc, List.singleton_append, List.length_append, List.length_singleton] at hrest
    have hcons := congrArg (· >>= fun bs => pure (as.map (fun b => (a, b)) ++ bs)) hrest
    rw [List.zipIdx_cons, List.mapM_cons, uniquePairs]
    simpa only [htail, pure_bind, bind_assoc, List.flatten_cons] using hcons

theorem pairs_eq {α : Type} (as : List α) : pairs crash as = pure (uniquePairs as) :=
  rows_eq crash as []

theorem combine_eq (op : Operator) (first : Code) (rest : List Code) :
    combine crash (some op) (first :: rest) = do
      return Gen.combine op (← read).options.target (first :: rest) := by
  have hread (code : Code) : (do let _ ← read; return code : Gen Code) = pure code := rfl
  cases op with
  | eq | ne | gt | lt | ge | le =>
    simp [combine, Gen.combine, Operator.isComparison, pairs_eq, spelling, hread, -bind_pure_comp]
  | pow => simp [combine, Gen.combine, Operator.isComparison, powers]
  | _ => simp [combine, Gen.combine, Operator.isComparison, spelling, hread, -bind_pure_comp]

theorem operator_eq (op : Operator) (c : Call) :
    operator crash lower (some op) c = Gen.operator lower op c := by
  obtain ⟨target, args, span⟩ := c
  refine guard_congr Iff.rfl fun h => ?_
  cases args with
  | nil => simp at h
  | cons t ts =>
    simp only [List.mapM_cons, bind_assoc, pure_bind, combine_eq]

theorem expand_eq (form : Form) (c : Call) : expand crash lower form c = Gen.expand lower form c := by
  cases form with
  | define isPure => simp only [expand, Gen.expand, define_eq]
  | function isPure hidden => simp only [expand, Gen.expand, function_eq]
  | importModule => simp only [expand, Gen.expand, importModule_eq]
  | nameModule => simp only [expand, Gen.expand, nameModule_eq]
  | bindings => simp only [expand, Gen.expand, bindings_eq]
  | conditional => simp only [expand, Gen.expand, conditional_eq]
  | matching => simp only [expand, Gen.expand, matching_eq]
  | loop => simp only [expand, Gen.expand, loop_eq]
  | lambda => simp only [expand, Gen.expand, lambda_eq]
  | handler => simp only [expand, Gen.expand, handler_eq]
  | operator op => simp only [expand, Gen.expand, operator_eq]
  | parity => rfl
  | _ => rfl

/-! ### Calls -/

theorem through_eq (m : Meaning) (c : Call) : through crash lower m c = Gen.through lower m c := by
  rw [through, Gen.through]
  cases m.form? with
  | none => rfl
  | some form => exact expand_eq form c

/-- The arms of a call are reached only through a target that cannot be called. -/
theorem dispatch_eq {c : Call} (h : c.target.refusal? = none) :
    dispatch crash lower c = Gen.dispatch lower c := by
  obtain ⟨target, args, span⟩ := c
  cases target with
  | name t =>
    have hthrough : through crash lower = Gen.through lower :=
      funext fun m => funext fun c => through_eq m c
    rw [dispatch, Gen.dispatch, hthrough]
  | wildcard t =>
    have htext : t.text = "#'" := by
      by_contra hne
      rw [Term.refusal?, if_neg hne] at h
      cases h
    simp [dispatch, Gen.dispatch, htext]
  | symbol _ | number _ | path _ => rfl
  | list _ _ | table _ _ _ | call _ _ _ | string _ => cases h

/-- One step of lowering, if the term is not a call through something that cannot be called. -/
theorem step_eq {t : Term} (h : ∀ c : Call, t = c.term → c.target.refusal? = none) :
    step crash lower t = Gen.step lower t := by
  cases t with
  | call target args span =>
    exact congrArg (inCall ⟨target, args, span⟩) (dispatch_eq (h ⟨target, args, span⟩ rfl))
  | table items escaped span => exact congrArg plain (table_eq items escaped)
  | _ => rfl

end

end Explicit

end LispLua.Gen
