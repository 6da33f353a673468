import LispLua.Proofs.Operators.Parsing

/-!
# Phrases

Pieces of text with the tokens and the tree they are read as. A phrase carries the proof that it is
read so, and so does every phrase made from it: the ways to make one are the ways in which operators
are emitted.
-/

namespace LispLua.Lua

/-- A text that is read as a tree where an expression at a limit is expected. -/
structure Phrase (limit : Nat) where
  text : List Char
  tokens : List Token
  expr : Expr
  lexes (rest : List Char) : Breaks rest → Lexes text tokens rest
  reads : ReadsAt limit tokens expr

/-- A text that is read as a tree where an operand is expected, whatever operators are around. -/
structure Operand where
  text : List Char
  tokens : List Token
  expr : Expr
  lexes (rest : List Char) : Breaks rest → Lexes text tokens rest
  begins : Begins text
  reads : ReadsOperand tightest tokens expr

theorem Phrase.parse_eq (p : Phrase 0) : parse (String.ofList p.text) = some p.expr := by
  have htokens : tokenise p.text = some p.tokens := (p.lexes [] (by rintro c ⟨⟩)).tokenise_eq
  have hexpr := p.reads p.tokens.length [] (Nat.le_refl _) trivial
  rw [List.append_nil] at hexpr
  simp [parse, htokens, hexpr]

/-- An operand as an expression. -/
def Operand.phrase (o : Operand) (limit : Nat) : Phrase limit where
  text := o.text
  tokens := o.tokens
  expr := o.expr
  lexes := o.lexes
  reads := o.reads.anywhere limit

/-! ### Words -/

/-- An emitted name. -/
def Operand.name (name : String) : Operand where
  text := (mangle name).toList
  tokens := [.name (mangle name)]
  expr := .name (mangle name)
  lexes _ := lexes_mangle name
  begins := begins_mangle name
  reads := readsOperand_name tightest _

/-- A numeral. -/
def Operand.numeral (digits : String) (h : IsUnsigned digits.toList) : Operand where
  text := digits.toList
  tokens := [.numeral digits]
  expr := .numeral digits
  lexes rest hrest := by
    have := lexes_numeral h hrest
    rwa [String.ofList_toList] at this
  begins := begins_of_isUnsigned h
  reads := readsOperand_numeral tightest _

/-- A minus sign in front of an operand. -/
def Operand.negative (o : Operand) {limit : Nat} (h : limit ≤ unaryLimit) : Phrase limit where
  text := Operator.sub.text.toList ++ o.text
  tokens := .binary (.arithmetic .sub) :: o.tokens
  expr := .neg o.expr
  lexes rest hrest := (lexes_operator .sub (o.begins.append rest)).append (o.lexes rest hrest)
  reads := (readsOperand_neg (o.reads.anywhere _)).below h

/-! ### Brackets -/

theorem breaks_cons {c : Char} (h : isNumeralChar c = false) (rest : List Char) :
    Breaks (c :: rest) := by
  rintro d ⟨⟩
  exact h

/-- An expression in parentheses. -/
def Operand.paren (p : Phrase 0) : Operand where
  text := '(' :: (p.text ++ [')'])
  tokens := .lparen :: (p.tokens ++ [.rparen])
  expr := p.expr
  lexes rest _ := by
    have hinner := p.lexes ([')'] ++ rest) (breaks_cons (by decide) rest)
    exact (lexes_lparen _).append (hinner.append (lexes_rparen rest))
  begins := ⟨'(', _, rfl, .inr rfl⟩
  reads := readsOperand_paren p.reads tightest

/-- A negation. -/
def Phrase.not (p : Phrase unaryLimit) : Phrase 0 where
  text := ['n', 'o', 't'] ++ ([' '] ++ p.text)
  tokens := .not :: p.tokens
  expr := .not p.expr
  lexes rest hrest := by
    have hword : Lexes ['n', 'o', 't'] [.not] ([' '] ++ p.text ++ rest) :=
      lexes_word (by decide) (by decide) (breaks_cons (by decide) _).isWordChar
    exact hword.append ((lexes_space _).append (p.lexes rest hrest))
  reads := (readsOperand_not p.reads).below (Nat.zero_le _)

theorem lexes_mathPow (rest : List Char) :
    Lexes "math.pow(".toList [.name "math", .point, .name "pow", .lparen] rest := by
  have hmath : Lexes ['m', 'a', 't', 'h'] [.name "math"] (['.', 'p', 'o', 'w', '('] ++ rest) :=
    lexes_word (by decide) (by decide) (by rintro d ⟨⟩; decide)
  have hpoint : Lexes ['.'] [.point] (['p', 'o', 'w', '('] ++ rest) :=
    @lexes_mark (['.'], .point) (by decide) _ ⟨'p', _, rfl, .inl (by decide)⟩
  have hpow : Lexes ['p', 'o', 'w'] [.name "pow"] (['('] ++ rest) :=
    lexes_word (by decide) (by decide) (breaks_cons (by decide) rest).isWordChar
  exact hmath.append (hpoint.append (hpow.append (lexes_lparen rest)))

/-- A call of `math.pow`. -/
def Operand.power (base exponent : Operand) : Operand where
  text := "math.pow(".toList ++ (base.text ++ ([','] ++ ([' '] ++ (exponent.text ++ [')']))))
  tokens := [.name "math", .point, .name "pow", .lparen] ++
    (base.tokens ++ ([.comma] ++ (exponent.tokens ++ [.rparen])))
  expr := .power base.expr exponent.expr
  lexes rest _ := by
    have hexponent := exponent.lexes ([')'] ++ rest) (breaks_cons (by decide) rest)
    have hbase := base.lexes ([','] ++ ([' '] ++ (exponent.text ++ [')'])) ++ rest)
      (breaks_cons (by decide) _)
    exact (lexes_mathPow _).append (hbase.append
      ((lexes_comma _).append ((lexes_space _).append (hexponent.append (lexes_rparen rest)))))
  begins := ⟨'m', _, rfl, .inl (by decide)⟩
  reads := readsOperand_power (base.reads.anywhere 0) (exponent.reads.anywhere 0) _

/-! ### Chains -/

/-- An operator with its right operand. -/
structure Link where
  op : Operator
  phrase : Phrase op.lua.right
  begins : Begins phrase.text

namespace Link

def text (l : Link) : List Char :=
  l.op.text.toList ++ l.phrase.text

def tokens (l : Link) : List Token :=
  .binary l.op.lua :: l.phrase.tokens

/-- The tree of a link behind another tree. -/
def behind (e : Expr) (l : Link) : Expr :=
  .binary l.op.lua e l.phrase.expr

end Link

/-- Links that are all taken at a limit, each with no more than its own operand. -/
def Joins (limit : Nat) : List Link → Prop
  | [] => True
  | l :: ls =>
    limit < l.op.lua.left ∧ limit ≤ l.op.lua.right ∧
      (∀ m, ls.head? = some m → m.op.lua.left ≤ l.op.lua.right) ∧ Joins limit ls

theorem breaks_links (ls : List Link) {rest : List Char} (h : Breaks rest) :
    Breaks (ls.flatMap Link.text ++ rest) := by
  cases ls with
  | nil => exact h
  | cons l ls =>
    simp only [List.flatMap_cons, Link.text, List.append_assoc]
    exact breaks_operator l.op _

theorem lexes_links (ls : List Link) {rest : List Char} (h : Breaks rest) :
    Lexes (ls.flatMap Link.text) (ls.flatMap Link.tokens) rest := by
  induction ls with
  | nil => simp [Lexes]
  | cons l ls ih =>
    rw [List.flatMap_cons, List.flatMap_cons]
    have hphrase := l.phrase.lexes _ (breaks_links ls h)
    exact ((lexes_operator l.op (l.begins.append _)).append hphrase).append ih

theorem readsAfter_links {limit : Nat} (ls : List Link) (h : Joins limit ls) (e : Expr) :
    ReadsAfter limit e (ls.flatMap Link.tokens) (ls.foldl Link.behind e) := by
  induction ls generalizing e with
  | nil => exact .nil limit e
  | cons l ls ih =>
    obtain ⟨hleft, hright, hnext, hjoins⟩ := h
    refine .cons hleft l.phrase.reads ?_ (ih hjoins _)
    intro rest hrest
    -- What follows the right operand is the next operator, or what follows the whole chain.
    cases ls with
    | nil => exact hrest.mono hright
    | cons m ls => exact hnext m rfl

/-- An operand and the links behind it. -/
def Operand.joined (o : Operand) {limit : Nat} (ls : List Link) (h : Joins limit ls) :
    Phrase limit where
  text := o.text ++ ls.flatMap Link.text
  tokens := o.tokens ++ ls.flatMap Link.tokens
  expr := ls.foldl Link.behind o.expr
  lexes _ hrest := (o.lexes _ (breaks_links ls hrest)).append (lexes_links ls hrest)
  reads := by
    refine o.reads.readsAt (fun rest hrest => ?_) (readsAfter_links ls h o.expr)
    -- An operand is not taken apart by the operator behind it, whichever that is.
    cases ls with
    | nil => exact hrest.tightest
    | cons l ls => exact l.op.lua.left_bounds.2

/-- An operator with an operand behind it. -/
def Operand.link (op : Operator) (o : Operand) : Link :=
  ⟨op, o.phrase _, o.begins⟩

/-- Links of one operator join if it associates to the left, and one link always does. -/
theorem joins_link {op : Operator} {os : List Operand}
    (h : os.length ≤ 1 ∨ op.lua.left ≤ op.lua.right) : Joins 0 (os.map (Operand.link op)) := by
  induction os with
  | nil => trivial
  | cons o os ih =>
    have htail : os.length ≤ 1 ∨ op.lua.left ≤ op.lua.right :=
      h.imp_left (Nat.le_trans (Nat.le_succ _))
    refine ⟨op.lua.left_bounds.1, Nat.zero_le _, ?_, ih htail⟩
    intro m hm
    cases os with
    | nil => cases hm
    | cons p os =>
      cases hm
      exact h.resolve_left (by simp)

/-- A comparison binds its operands tighter than `and` does. -/
theorem and_lt_comparison {op : Operator} {k : Comparison} (h : op.lua = .comparison k) :
    Operator.and.lua.right < op.lua.left ∧ Operator.and.lua.right ≤ op.lua.right := by
  rw [h]
  exact ⟨Nat.lt_succ_self 2, Nat.le_succ 2⟩

/-- A comparison between two operands, behind `and`. -/
def pairLink {op : Operator} {k : Comparison} (h : op.lua = .comparison k)
    (pair : Operand × Operand) : Link where
  op := .and
  phrase := pair.1.joined [pair.2.link op]
    ⟨(and_lt_comparison h).1, (and_lt_comparison h).2, by rintro m ⟨⟩, trivial⟩
  begins := pair.1.begins.append _

theorem joins_pairLink {op : Operator} {k : Comparison} (h : op.lua = .comparison k)
    (pairs : List (Operand × Operand)) : Joins 0 (pairs.map (pairLink h)) := by
  induction pairs with
  | nil => trivial
  | cons pair pairs ih =>
    refine ⟨Nat.zero_lt_succ 1, Nat.zero_le _, ?_, ih⟩
    intro m hm
    cases pairs with
    | nil => cases hm
    | cons => cases hm; exact Nat.le_refl 2

/-- Comparisons between pairs of operands, joined by `and`. -/
def Phrase.comparisons {op : Operator} {k : Comparison} (h : op.lua = .comparison k)
    (first : Operand × Operand) (pairs : List (Operand × Operand)) : Phrase 0 :=
  first.1.joined (first.2.link op :: pairs.map (pairLink h)) <| by
    refine ⟨op.lua.left_bounds.1, Nat.zero_le _, ?_, joins_pairLink h pairs⟩
    intro m hm
    cases pairs with
    | nil => cases hm
    | cons => cases hm; exact (and_lt_comparison h).2

end LispLua.Lua
