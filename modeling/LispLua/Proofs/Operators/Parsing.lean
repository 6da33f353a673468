import LispLua.Proofs.Operators.Lexing

/-!
# Trees of emitted text

What the tokens of emitted text are read as. An operand is read as a whole whatever operator comes
next; operators behind it are taken one after the other, as long as they bind tighter than the limit
and no operator takes an operand from the one in front of it.
-/

namespace LispLua.Lua

/-- Tokens behind which an expression at a limit ends: they start with no operator that binds
tighter, nor with the point of a field. -/
def Closes (limit : Nat) : List Token → Prop
  | .binary op :: _ => op.left ≤ limit
  | .point :: _ => False
  | _ => True

theorem Closes.mono {limit bound : Nat} (h : limit ≤ bound) {rest : List Token}
    (hrest : Closes limit rest) : Closes bound rest := by
  unfold Closes at *
  split
  · exact Nat.le_trans hrest h
  · exact hrest
  · trivial

/-- No operator binds tighter than this limit. -/
def tightest : Nat := 8

theorem BinaryOp.left_bounds (op : BinaryOp) : 0 < op.left ∧ op.left ≤ tightest := by
  rcases op with _ | _ | op | op
  · decide
  · decide
  · cases op <;> decide
  · cases op <;> decide

theorem Closes.tightest {limit : Nat} {rest : List Token} (h : Closes limit rest) :
    Closes tightest rest := by
  unfold Closes at *
  split
  · exact (BinaryOp.left_bounds _).2
  · exact h
  · trivial

/-- Tokens that are read as a tree where an operand is expected. -/
def ReadsOperand (limit : Nat) (ts : List Token) (e : Expr) : Prop :=
  ∀ depth rest, ts.length ≤ depth + 1 → Closes limit rest →
    operand (expression depth) (ts ++ rest) = some (e, rest)

/-- Tokens that are read as a tree where an expression at a limit is expected. -/
def ReadsAt (limit : Nat) (ts : List Token) (e : Expr) : Prop :=
  ∀ depth rest, ts.length ≤ depth → Closes limit rest →
    expression depth limit (ts ++ rest) = some (e, rest)

/-- Tokens that lead from one tree to another where operators above a limit are expected. -/
def ReadsAfter (limit : Nat) (e : Expr) (ts : List Token) (e' : Expr) : Prop :=
  ∀ depth n rest, ts.length ≤ depth + 1 → ts.length ≤ n → Closes limit rest →
    operators (expression depth) limit n e (ts ++ rest) = some (e', rest)

/-! ### Operators behind a tree -/

theorem ReadsAfter.nil (limit : Nat) (e : Expr) : ReadsAfter limit e [] e := by
  intro depth n rest _ _ hrest
  rw [List.nil_append]
  unfold operators
  split
  · exact if_neg (Nat.not_lt.2 hrest)
  · rfl

/-- One more operator with its right operand. What comes behind must not bind that operand
tighter. -/
theorem ReadsAfter.cons {limit : Nat} {op : BinaryOp} {e right e' : Expr} {ts us : List Token}
    (hop : limit < op.left) (hright : ReadsAt op.right ts right)
    (hnext : ∀ rest, Closes limit rest → Closes op.right (us ++ rest))
    (hafter : ReadsAfter limit (.binary op e right) us e') :
    ReadsAfter limit e (.binary op :: (ts ++ us)) e' := by
  intro depth n rest hdepth hn hrest
  simp only [List.length_cons, List.length_append] at hdepth hn
  -- The operator itself pays for one turn of the loop and one level of nesting.
  obtain ⟨n, rfl⟩ : ∃ m, n = m + 1 := ⟨n - 1, by omega⟩
  rw [List.cons_append, List.append_assoc, operators, if_pos hop,
    hright depth (us ++ rest) (by omega) (hnext rest hrest)]
  exact hafter depth n rest (by omega) (by omega) hrest

-- Operators of one strength take one operand each; a power takes the powers behind it.
example : parse "1-2-3" = some (.binary (.arithmetic .sub)
    (.binary (.arithmetic .sub) (.numeral "1") (.numeral "2")) (.numeral "3")) := by cbv

example : parse "1^2^3" = some (.binary (.arithmetic .pow) (.numeral "1")
    (.binary (.arithmetic .pow) (.numeral "2") (.numeral "3"))) := by cbv

/-! ### Expressions -/

theorem ReadsOperand.ne_nil {limit : Nat} {ts : List Token} {e : Expr}
    (h : ReadsOperand limit ts e) : ts ≠ [] := by
  rintro rfl
  cases h 0 [] (Nat.zero_le 1) trivial

/-- An operand and the operators behind it. -/
theorem ReadsOperand.readsAt {bound limit : Nat} {ts us : List Token} {e e' : Expr}
    (h : ReadsOperand bound ts e) (hnext : ∀ rest, Closes limit rest → Closes bound (us ++ rest))
    (hafter : ReadsAfter limit e us e') : ReadsAt limit (ts ++ us) e' := by
  intro depth rest hdepth hrest
  have hpos := List.length_pos_iff.2 h.ne_nil
  rw [List.length_append] at hdepth
  obtain ⟨depth, rfl⟩ : ∃ d, depth = d + 1 := ⟨depth - 1, by omega⟩
  rw [List.append_assoc, expression, h depth (us ++ rest) (by omega) (hnext rest hrest)]
  refine hafter depth (us ++ rest).length rest (by omega) ?_ hrest
  simp

/-- An operand alone. -/
theorem ReadsOperand.alone {bound limit : Nat} {ts : List Token} {e : Expr}
    (h : ReadsOperand bound ts e) (hnext : ∀ rest, Closes limit rest → Closes bound rest) :
    ReadsAt limit ts e := by
  have happend : ReadsAt limit (ts ++ []) e := h.readsAt hnext (.nil limit e)
  rwa [List.append_nil] at happend

/-- An operand that no operator takes apart is an expression at any limit. -/
theorem ReadsOperand.anywhere {ts : List Token} {e : Expr} (h : ReadsOperand tightest ts e)
    (limit : Nat) : ReadsAt limit ts e :=
  h.alone fun _ => Closes.tightest

/-- What is read behind an operator in front of a single operand can be read at lower limits. -/
theorem ReadsOperand.below {limit : Nat} {ts : List Token} {e : Expr}
    (h : ReadsOperand unaryLimit ts e) (hlimit : limit ≤ unaryLimit) : ReadsAt limit ts e :=
  h.alone fun _ hrest => hrest.mono hlimit

/-! ### Operands -/

theorem upTo_eq {t : Token} {p : Parser} {ts rest : List Token} {e : Expr}
    (h : p ts = some (e, t :: rest)) : upTo t p ts = some (e, rest) := by
  simp [upTo, h]

theorem readsOperand_numeral (limit : Nat) (text : String) :
    ReadsOperand limit [.numeral text] (.numeral text) := by
  intro depth rest _ _
  rfl

theorem readsOperand_name (limit : Nat) (text : String) :
    ReadsOperand limit [.name text] (.name text) := by
  intro depth rest _ hrest
  cases rest with
  | nil => rfl
  | cons t ts =>
    cases t with
    | point => exact hrest.elim
    | _ => rfl

/-- Parentheses make an operand of any expression. -/
theorem readsOperand_paren {ts : List Token} {e : Expr} (h : ReadsAt 0 ts e) (limit : Nat) :
    ReadsOperand limit (.lparen :: (ts ++ [.rparen])) e := by
  intro depth rest hdepth _
  simp only [List.length_cons, List.length_append, List.length_nil] at hdepth
  rw [List.cons_append, List.append_assoc]
  exact upTo_eq (h depth (.rparen :: rest) (by omega) trivial)

theorem readsOperand_power {ts us : List Token} {base exponent : Expr} (hbase : ReadsAt 0 ts base)
    (hexponent : ReadsAt 0 us exponent) (limit : Nat) :
    ReadsOperand limit
      ([.name "math", .point, .name "pow", .lparen] ++ (ts ++ .comma :: (us ++ [.rparen])))
      (.power base exponent) := by
  intro depth rest hdepth _
  simp only [List.length_cons, List.length_append, List.length_nil] at hdepth
  have hb := upTo_eq (hbase depth (.comma :: (us ++ .rparen :: rest)) (by omega) trivial)
  have he := upTo_eq (hexponent depth (.rparen :: rest) (by omega) trivial)
  simp [operand, hb, he]

theorem readsOperand_not {ts : List Token} {e : Expr} (h : ReadsAt unaryLimit ts e) :
    ReadsOperand unaryLimit (.not :: ts) (.not e) := by
  intro depth rest hdepth hrest
  simp [operand, h depth rest (by simpa using hdepth) hrest]

theorem readsOperand_neg {ts : List Token} {e : Expr} (h : ReadsAt unaryLimit ts e) :
    ReadsOperand unaryLimit (.binary (.arithmetic .sub) :: ts) (.neg e) := by
  intro depth rest hdepth hrest
  simp [operand, h depth rest (by simpa using hdepth) hrest]

-- A sign in front of a power is the sign of the power, and two signs are no sign.
example : parse "-x^2" = some (.neg (.binary (.arithmetic .pow) (.name "x") (.numeral "2"))) := by
  cbv

example : parse "x--2" = none := by cbv

end LispLua.Lua
