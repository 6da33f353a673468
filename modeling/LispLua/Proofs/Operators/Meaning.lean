import LispLua.Generate.Equation
import LispLua.Proofs.Generation.Built
import LispLua.Proofs.Operators.Emission

/-!
# The meaning of operators

Terms made of numbers, local names and operators, what they mean, and that the text they are lowered
to means the same to Lua.
-/

namespace LispLua

open Lua

universe u

/-- The name of an operator in programs. -/
def Operator.surface : Operator → String
  | add => "+"
  | sub => "-"
  | div => "/"
  | mul => "*"
  | pow => "^"
  | eq => "="
  | ne => "<>"
  | gt => ">"
  | lt => "<"
  | ge => ">="
  | le => "<="
  | and => "and"
  | or => "or"
  | nand => "nand"
  | nor => "nor"

/-- A term of numbers, names and operators. An operator has two operands at least; spans are those
of the name in front and of the whole. -/
inductive Formula where
  | number (negative : Bool) (digits : String) (unsigned : IsUnsigned digits.toList) (span : Span)
  | name (token : Token)
  | operator (op : Operator) (head : Span) (first second : Formula) (rest : List Formula)
      (span : Span)
  | negation (head : Span) (inner : Formula) (span : Span)

namespace Formula

mutual

/-- The term of a formula. -/
def term : Formula → Term
  | number negative digits _ span => .number ⟨if negative then "-" ++ digits else digits, span⟩
  | name token => .name token
  | operator op head first second rest span =>
    .call (.name ⟨op.surface, head⟩) (first.term :: second.term :: terms rest) span
  | negation head inner span => .call (.name ⟨"not", head⟩) [inner.term] span

def terms : List Formula → List Term
  | [] => []
  | f :: fs => f.term :: terms fs

end

mutual

/-- The names in a formula. -/
def names : Formula → List String
  | number .. => []
  | name token => [token.text]
  | operator _ _ first second rest _ => first.names ++ (second.names ++ namesAll rest)
  | negation _ inner _ => inner.names

def namesAll : List Formula → List String
  | [] => []
  | f :: fs => f.names ++ namesAll fs

end

section

variable {V : Type u} (I : Interpretation V) (locals : String → V)

mutual

/-- The value of a formula, where `locals` gives the values of the emitted names. -/
def denote : Formula → V
  | number negative digits _ _ =>
    if negative then I.neg (I.numeral digits) else I.numeral digits
  | name token => locals (mangle token.text)
  | operator op _ first second rest _ =>
    I.operator op first.denote (second.denote :: denoteAll rest)
  | negation _ inner _ => I.not inner.denote

def denoteAll : List Formula → List V
  | [] => []
  | f :: fs => f.denote :: denoteAll fs

end

end

mutual

/-- The code of a formula. -/
def code (target : Target) : Formula → Code
  | number negative digits _ _ => .word (if negative then "-" ++ digits else digits)
  | name token => .word (mangle token.text)
  | operator op _ first second rest _ =>
    Gen.combine op target
      (Gen.operand (first.code target) :: Gen.operand (second.code target) :: operands target rest)
  | negation _ inner _ => .negate (inner.code target)

/-- The code of some formulas as operands. -/
def operands (target : Target) : List Formula → List Code
  | [] => []
  | f :: fs => Gen.operand (f.code target) :: operands target fs

end

/-! ### The value of the code -/

section

variable {V : Type u} {I : Interpretation V} {locals : String → V} (target : Target)

mutual

/-- The code of a formula denotes its value. -/
theorem denotes_code : ∀ f : Formula, Denotes I locals (f.code target) (f.denote I locals)
  | number true _ h _ => denotes_negative h
  | number false _ h _ => (stands_numeral h).denotes
  | name token => (stands_name token.text).denotes
  | operator op _ first second rest _ =>
    (stands_combine op target (denotes_code first).operand (denotes_code second).operand
      (stands_operands rest)).denotes
  | negation _ inner _ => (denotes_code inner).expresses.negate.denotes

theorem stands_operands : ∀ fs : List Formula,
    List.Forall₂ (Stands I locals) (operands target fs) (denoteAll I locals fs)
  | [] => .nil
  | f :: fs => .cons (denotes_code f).operand (stands_operands fs)

end

end

end Formula

/-! ### The code that is generated -/

/-- The operators are the standard ones. -/
structure Session.StandardOperators (s : Session) : Prop where
  operator (op : Operator) : s.find? op.surface = (Standard.find? op.surface).map .standard
  negation : s.find? "not" = (Standard.find? "not").map .standard

/-- A name is registered for a block and is emitted mangled. -/
def Session.IsLocal (s : Session) (name : String) : Prop :=
  ∃ kind, s.find? name = some (.declared (.declare name kind .block false))

theorem Session.StandardOperators.form?_operator {s : Session} (h : s.StandardOperators)
    (op : Operator) (head span : Span) (args : List Term) :
    s.form? ⟨.name ⟨op.surface, head⟩, args, span⟩ = some (.operator op) := by
  rw [form?, meaning?_of_target rfl, h.operator]
  -- One look into the standard table for each operator.
  cases op <;> decide +kernel

theorem Session.StandardOperators.form?_negation {s : Session} (h : s.StandardOperators)
    (head span : Span) (args : List Term) :
    s.form? ⟨.name ⟨"not", head⟩, args, span⟩ = some .negation := by
  rw [form?, meaning?_of_target rfl, h.negation]
  decide +kernel

namespace Gen

variable {job : Job} {s : Session}

theorem exec_eval (lower : Lower) (t : Term) (job : Job) (s : Session) :
    (eval lower t).exec job s =
      (((lower t).exec job s).1.map Stmt.code, ((lower t).exec job s).2) := by
  rw [eval, exec_bind]
  rcases (lower t).exec job s with ⟨_ | _, _⟩ <;> rfl

/-- An expression that is lowered as an ordinary statement is the expression again. -/
theorem exec_value_plain {t : Term} {g : Gen Code}
    (h : (term t).exec job s = (plain g).exec job s) : (value t).exec job s = g.exec job s := by
  rw [value, exec_eval, h, exec_plain]
  rcases g.exec job s with ⟨_ | _, _⟩ <;> rfl

theorem exec_value_form {c : Call} {form : Form} {g : Gen Code} (hform : s.form? c = some form)
    (hexpand : expand term form c = plain g) : (value c.term).exec job s = g.exec job s := by
  refine exec_value_plain ?_
  have hcall : term c.term = call term c := term_eq_step c.term
  rw [hcall, call, exec_inCall, exec, run_dispatch_form hform, hexpand]
  rfl

theorem exec_value_local {t : Token} (h : s.IsLocal t.text) :
    (value (.name t)).exec job s = (.ok (.word (mangle t.text)), s) := by
  obtain ⟨kind, hkind⟩ := h
  have hname : (nameValue t).exec job s = (.ok (.word (mangle t.text)), s) := by
    rw [nameValue, exec_bind, exec_resolve, hkind]
    rfl
  rw [exec_value_plain (congrArg (exec · job s) (term_eq_step (.name t))), hname]

theorem exec_value_number (t : Token) :
    (value (.number t)).exec job s = (.ok (.word t.text), s) :=
  exec_value_plain (g := return .word t.text) (congrArg (exec · job s) (term_eq_step (.number t)))

theorem exec_mapM {α β : Type} {f : α → Gen β} {as : List α} {bs : List β}
    (h : List.Forall₂ (fun a b => (f a).exec job s = (.ok b, s)) as bs) :
    (as.mapM f).exec job s = (.ok bs, s) := by
  induction h with
  | nil => rfl
  | cons ha _ ih =>
    rw [List.mapM_cons, exec_bind, ha]
    simp only [exec_bind, ih, exec_pure]

/-- The lowering of an operand. -/
def operandOf (t : Term) : Gen Code := do
  return operand (← value t)

theorem exec_operandOf {t : Term} {c : Code} (h : (value t).exec job s = (.ok c, s)) :
    (operandOf t).exec job s = (.ok (operand c), s) := by
  rw [operandOf, exec_bind, h]
  rfl

theorem exec_value_operator (hs : s.StandardOperators) (op : Operator) (head span : Span)
    {args : List Term} {operands : List Code} (hlen : 2 ≤ args.length)
    (h : List.Forall₂ (fun t c => (operandOf t).exec job s = (.ok c, s)) args operands) :
    (value (.call (.name ⟨op.surface, head⟩) args span)).exec job s =
      (.ok (combine op job.options.target operands), s) := by
  let c : Call := ⟨.name ⟨op.surface, head⟩, args, span⟩
  refine (exec_value_form (c := c) (hs.form?_operator op head span args) rfl).trans ?_
  rw [operator, if_neg (Nat.not_lt.2 hlen)]
  show (args.mapM operandOf >>= _).exec job s = _
  rw [exec_bind, exec_mapM h]
  rfl

theorem exec_value_negation (hs : s.StandardOperators) (head span : Span) {t : Term} {c : Code}
    (h : (value t).exec job s = (.ok c, s)) :
    (value (.call (.name ⟨"not", head⟩) [t] span)).exec job s = (.ok (.negate c), s) := by
  let d : Call := ⟨.name ⟨"not", head⟩, [t], span⟩
  refine (exec_value_form (c := d) (hs.form?_negation head span [t]) rfl).trans ?_
  show (value t >>= _).exec job s = _
  rw [exec_bind, h]
  rfl

end Gen

namespace Formula

open Gen

variable {job : Job} {s : Session}

mutual

/-- A formula is lowered to its code, and nothing else happens. -/
theorem exec_value (hs : s.StandardOperators) : ∀ f : Formula, (∀ n ∈ f.names, s.IsLocal n) →
    (value f.term).exec job s = (.ok (f.code job.options.target), s)
  | number _ _ _ _, _ => exec_value_number _
  | name token, h => exec_value_local (h token.text (List.mem_singleton.2 rfl))
  | operator op head first second rest span, h => by
    have hfirst := exec_value hs first fun n hn => h n (List.mem_append_left _ hn)
    have hsecond := exec_value hs second fun n hn =>
      h n (List.mem_append_right _ (List.mem_append_left _ hn))
    have hrest := exec_operands hs rest fun n hn =>
      h n (List.mem_append_right _ (List.mem_append_right _ hn))
    exact exec_value_operator hs op head span (Nat.le_add_left 2 _)
      (.cons (exec_operandOf hfirst) (.cons (exec_operandOf hsecond) hrest))
  | negation head inner span, h => exec_value_negation hs head span (exec_value hs inner h)

theorem exec_operands (hs : s.StandardOperators) : ∀ fs : List Formula,
    (∀ n ∈ namesAll fs, s.IsLocal n) →
    List.Forall₂ (fun t c => (operandOf t).exec job s = (.ok c, s))
      (terms fs) (operands job.options.target fs)
  | [], _ => .nil
  | f :: fs, h =>
    .cons (exec_operandOf (exec_value hs f fun n hn => h n (List.mem_append_left _ hn)))
      (exec_operands hs fs fun n hn => h n (List.mem_append_right _ hn))

end

end Formula

/-- Where the operators are the standard ones and the names are local ones, a formula is lowered for
every target to a text that Lua reads as an expression with the value of the formula, whatever the
primitive operations are and whatever the values of the names. -/
theorem formula_keeps_meaning (f : Formula) (job : Job) (s : Session) (hs : s.StandardOperators)
    (hnames : ∀ n ∈ f.names, s.IsLocal n) :
    ∃ code, (Gen.value f.term).exec job s = (.ok code, s) ∧
      ∀ (V : Type u) (I : Interpretation V) (locals : String → V),
        (Lua.parse code.render).map (Expr.eval I locals) = some (f.denote I locals) := by
  refine ⟨f.code job.options.target, Formula.exec_value hs f hnames, ?_⟩
  intro V I locals
  exact (Formula.denotes_code job.options.target f).expresses.parse_eval

/-- A power of a negative number inside a comparison of three operands. -/
theorem formula_keeps_meaning_nested :
    let s : Session :=
      { Session.start with
        scope := Session.start.scope.set "x" (.declare "x" .value .block false) }
    let two : Formula := .number true "2" (.whole ⟨by simp, by simp⟩) .none
    let x : Formula := .name ⟨"x", .none⟩
    let f : Formula := .operator .lt .none (.operator .pow .none two x [two] .none)
      (.negation .none two .none) [.operator .sub .none x two [] .none] .none
    s.StandardOperators ∧ (∀ n ∈ f.names, s.IsLocal n) ∧
      ∃ code, (Gen.value f.term).exec default s = (.ok code, s) ∧
        ∀ (V : Type) (I : Interpretation V) (locals : String → V),
          (Lua.parse code.render).map (Expr.eval I locals) = some (f.denote I locals) := by
  intro s two x f
  have hs : s.StandardOperators := ⟨fun op => by cases op <;> rfl, rfl⟩
  have hnames : ∀ n ∈ f.names, s.IsLocal n := by
    intro n hn
    have hx : f.names = ["x", "x"] := rfl
    rw [hx] at hn
    obtain rfl : n = "x" := by simpa using hn
    exact ⟨.value, rfl⟩
  exact ⟨hs, hnames, formula_keeps_meaning f default s hs hnames⟩

end LispLua
