import LispLua.Generate.Operator
import LispLua.Proofs.Operators.Phrase
import LispLua.Proofs.Sugar.Pairs
import Mathlib.Data.List.Forall2

/-!
# Values of emitted operators

What the code of an operator denotes once its text is read as Lua reads it. Code stands as an
operand if its text is one; what operators are emitted as stands so as soon as their operands do.
-/

namespace LispLua.Lua

universe u

variable {V : Type u} (I : Interpretation V) (locals : String → V)

/-- A comparison of more than two values holds if it holds between every two of them. -/
def Interpretation.compare (op : Comparison) (vs : List V) : V :=
  I.truth (decide (vs.Pairwise fun a b => I.holds op a b = true))

/-- The value of an operator. Arithmetic and logic go from left to right. -/
def Interpretation.operator (op : Operator) (v : V) (vs : List V) : V :=
  match op with
  | .add => vs.foldl (I.arithmetic .add) v
  | .sub => vs.foldl (I.arithmetic .sub) v
  | .div => vs.foldl (I.arithmetic .div) v
  | .mul => vs.foldl (I.arithmetic .mul) v
  | .pow => vs.foldl (I.arithmetic .pow) v
  | .eq => I.compare .eq (v :: vs)
  | .ne => I.compare .ne (v :: vs)
  | .gt => I.compare .gt (v :: vs)
  | .lt => I.compare .lt (v :: vs)
  | .ge => I.compare .ge (v :: vs)
  | .le => I.compare .le (v :: vs)
  | .and => vs.foldl I.and v
  | .or => vs.foldl I.or v
  | .nand => I.not (vs.foldl I.and v)
  | .nor => I.not (vs.foldl I.or v)

/-- The text of code is an operand with a value. -/
def Stands (c : Code) (v : V) : Prop :=
  ∃ o : Operand, o.text = c.render.toList ∧ o.expr.eval I locals = v

/-- The text of code is an expression with a value, also behind `not`. -/
def Expresses (c : Code) (v : V) : Prop :=
  ∀ limit ≤ unaryLimit, ∃ p : Phrase limit,
    p.text = c.render.toList ∧ p.expr.eval I locals = v

/-- The text of code is an expression with a value, and an operand with that value if it is emitted
as one. -/
structure Denotes (c : Code) (v : V) : Prop where
  expresses : Expresses I locals c v
  operand : Stands I locals (Gen.operand c) v

variable {I locals} {c d : Code} {v w : V}

theorem Stands.expresses (h : Stands I locals c v) : Expresses I locals c v := by
  intro limit _
  obtain ⟨o, htext, hvalue⟩ := h
  exact ⟨o.phrase limit, htext, hvalue⟩

/-- Reading the text of code gives its value. -/
theorem Expresses.parse_eval (h : Expresses I locals c v) :
    (parse c.render).map (Expr.eval I locals) = some v := by
  obtain ⟨p, htext, hvalue⟩ := h 0 (Nat.zero_le _)
  have hparse := p.parse_eq
  rw [htext, String.ofList_toList] at hparse
  rw [hparse, Option.map_some, hvalue]

/-! ### Words and brackets -/

theorem stands_name (name : String) :
    Stands I locals (.word (mangle name)) (locals (mangle name)) :=
  ⟨.name name, rfl, rfl⟩

theorem stands_numeral {digits : String} (h : IsUnsigned digits.toList) :
    Stands I locals (.word digits) (I.numeral digits) :=
  ⟨.numeral digits h, rfl, rfl⟩

theorem expresses_negative {digits : String} (h : IsUnsigned digits.toList) :
    Expresses I locals (.word ("-" ++ digits)) (I.neg (I.numeral digits)) := by
  intro limit hlimit
  refine ⟨(Operand.numeral digits h).negative hlimit, ?_, rfl⟩
  exact (String.toList_append).symm

theorem Expresses.paren (h : Expresses I locals c v) : Stands I locals (.paren c) v := by
  obtain ⟨p, htext, hvalue⟩ := h 0 (Nat.zero_le _)
  refine ⟨.paren p, ?_, hvalue⟩
  show '(' :: (p.text ++ [')']) = ("(" ++ c.render ++ ")").toList
  simp [htext]

theorem Expresses.negate (h : Expresses I locals c v) : Stands I locals (.negate c) (I.not v) := by
  obtain ⟨p, htext, hvalue⟩ := h unaryLimit (Nat.le_refl _)
  refine ⟨.paren p.not, ?_, congrArg I.not hvalue⟩
  show '(' :: (['n', 'o', 't'] ++ ([' '] ++ p.text) ++ [')']) = ("(not " ++ c.render ++ ")").toList
  simp [htext]

theorem Stands.operand_eq (h : Stands I locals c v) : Gen.operand c = c := by
  obtain ⟨o, htext, -⟩ := h
  obtain ⟨d, rest, ho, hd⟩ := o.begins
  -- An operand starts with a name, a numeral or a parenthesis, so with no minus sign.
  refine if_neg ?_
  rw [← htext, ho, List.head?_cons, Option.some.injEq]
  rintro rfl
  revert hd
  decide

theorem Stands.denotes (h : Stands I locals c v) : Denotes I locals c v :=
  ⟨h.expresses, h.operand_eq.symm ▸ h⟩

/-- A negative numeral is put into parentheses as an operand. -/
theorem denotes_negative {digits : String} (h : IsUnsigned digits.toList) :
    Denotes I locals (.word ("-" ++ digits)) (I.neg (I.numeral digits)) := by
  have hexpr : Expresses I locals (.word ("-" ++ digits)) (I.neg (I.numeral digits)) :=
    expresses_negative h
  have hhead : (Code.word ("-" ++ digits)).render.toList.head? = some '-' := by
    show ("-" ++ digits).toList.head? = some '-'
    simp
  refine ⟨hexpr, ?_⟩
  rw [Gen.operand, if_pos hhead]
  exact hexpr.paren

/-! ### Chains -/

theorem intercalate_cons_eq_flatMap (sep t : List Char) (ts : List (List Char)) :
    sep.intercalate (t :: ts) = t ++ ts.flatMap (sep ++ ·) := by
  induction ts generalizing t with
  | nil => simp
  | cons u us ih => simp [List.intercalate_cons_cons, ih]

theorem toList_chain (op : String) (cs : List Code) :
    (Code.chain op cs).render.toList =
      '(' :: (op.toList.intercalate (cs.map fun c => c.render.toList) ++ [')']) := by
  show ("(" ++ String.intercalate op (renderAll cs) ++ ")").toList = _
  simp [renderAll_eq_map, String.toList_intercalate, Function.comp_def]

/-- The operands that some code stands as. -/
theorem exists_operands {cs : List Code} {vs : List V}
    (h : List.Forall₂ (Stands I locals) cs vs) :
    ∃ os : List Operand, os.map Operand.text = cs.map (fun c => c.render.toList) ∧
      os.map (fun o => o.expr.eval I locals) = vs := by
  induction h with
  | nil => exact ⟨[], rfl, rfl⟩
  | cons hc _ ih =>
    obtain ⟨o, htext, hvalue⟩ := hc
    obtain ⟨os, htexts, hvalues⟩ := ih
    exact ⟨o :: os, by simp [htext, htexts], by simp [hvalue, hvalues]⟩

/-- Links are applied from left to right. -/
theorem eval_foldl_behind (ls : List Link) (e : Expr) :
    (ls.foldl Link.behind e).eval I locals =
      ls.foldl (fun v l => I.apply l.op.lua v (l.phrase.expr.eval I locals)) (e.eval I locals) := by
  induction ls generalizing e with
  | nil => rfl
  | cons l ls ih => exact ih (.binary l.op.lua e l.phrase.expr)

/-- Operands joined by one operator are folded from the left. -/
theorem stands_chain {op : Operator} {cs : List Code} {vs : List V}
    (hop : cs.length ≤ 1 ∨ op.lua.left ≤ op.lua.right)
    (hc : Stands I locals c v) (hcs : List.Forall₂ (Stands I locals) cs vs) :
    Stands I locals (.chain op.text (c :: cs)) (vs.foldl (I.apply op.lua) v) := by
  obtain ⟨o, htext, rfl⟩ := hc
  obtain ⟨os, htexts, rfl⟩ := exists_operands hcs
  have hlen : os.length = cs.length := by simpa using congrArg List.length htexts
  -- The parentheses of a chain let it stand as an operand in turn.
  refine ⟨.paren (o.joined (os.map (Operand.link op)) (joins_link (hlen ▸ hop))), ?_, ?_⟩
  · rw [toList_chain, List.map_cons, intercalate_cons_eq_flatMap, ← htexts, ← htext,
      List.flatMap_map]
    show '(' :: (o.text ++ (os.map (Operand.link op)).flatMap Link.text ++ [')']) = _
    rw [List.flatMap_map]
    rfl
  · show ((os.map (Operand.link op)).foldl Link.behind o.expr).eval I locals = _
    rw [eval_foldl_behind, List.foldl_map, List.foldl_map]
    rfl

theorem Stands.power (target : Target) (hc : Stands I locals c v) (hd : Stands I locals d w) :
    Stands I locals (Gen.power target c d) (I.arithmetic .pow v w) := by
  by_cases hcall : target.powerIsCall = true
  · rw [Gen.power, if_pos hcall]
    obtain ⟨o, htext, rfl⟩ := hc
    obtain ⟨p, htext', rfl⟩ := hd
    refine ⟨.power o p, ?_, rfl⟩
    show "math.pow(".toList ++ (o.text ++ ([','] ++ ([' '] ++ (p.text ++ [')'])))) =
      ("math.pow(" ++ c.render ++ ", " ++ d.render ++ ")").toList
    simp [htext, htext']
  · rw [Gen.power, if_neg hcall]
    -- Powers associate to the right, but a chain of one power has nothing to associate.
    exact @stands_chain _ I locals c v .pow [d] [w] (.inl (Nat.le_refl 1)) hc (.cons hd .nil)

theorem stands_foldl_power (target : Target) {cs : List Code} {vs : List V}
    (hc : Stands I locals c v) (hcs : List.Forall₂ (Stands I locals) cs vs) :
    Stands I locals (cs.foldl (Gen.power target) c) (vs.foldl (I.arithmetic .pow) v) := by
  induction hcs generalizing c v with
  | nil => exact hc
  | cons hd _ ih => exact ih (hc.power target hd)

/-! ### Comparisons -/

/-- A relation holds of all pairs if it holds between every two elements. -/
theorem all_uniquePairs {α : Type} (r : α → α → Bool) (as : List α) :
    (uniquePairs as).all (fun p => r p.1 p.2) = decide (as.Pairwise fun a b => r a b = true) := by
  rw [Bool.eq_iff_iff, List.all_eq_true, decide_eq_true_iff]
  exact forall_mem_uniquePairs_iff

/-- A conjunction of comparisons holds if all of them hold. -/
theorem foldl_and_truth (bs : List Bool) (b : Bool) :
    bs.foldl (fun v b => I.and v (I.truth b)) (I.truth b) = I.truth ((b :: bs).all id) := by
  induction bs generalizing b with
  | nil => simp
  | cons b' bs ih =>
    have hand : I.and (I.truth b) (I.truth b') = I.truth (b && b') := by
      unfold Interpretation.and
      rw [I.truthy_truth]
      cases b <;> rfl
    rw [List.foldl_cons, hand, ih]
    simp [Bool.and_assoc]

/-- The texts of the comparisons between every two of some operands. -/
theorem texts_binary (op : String) {os : List Operand} {cs : List Code}
    (h : os.map Operand.text = cs.map fun c => c.render.toList) :
    ((uniquePairs cs).map fun (a, b) => Code.binary op a b).map (fun c => c.render.toList) =
      (uniquePairs os).map fun pair => pair.1.text ++ (op.toList ++ pair.2.text) := by
  let join (pair : List Char × List Char) : List Char := pair.1 ++ (op.toList ++ pair.2)
  have hbinary (a b : Code) :
      (Code.binary op a b).render.toList = join (a.render.toList, b.render.toList) := by
    show (a.render ++ op ++ b.render).toList = _
    simp [join]
  calc ((uniquePairs cs).map fun (a, b) => Code.binary op a b).map (fun c => c.render.toList)
    _ = (uniquePairs (cs.map fun c => c.render.toList)).map join := by
      rw [uniquePairs_map, List.map_map, List.map_map]
      exact List.map_congr_left fun pair _ => hbinary pair.1 pair.2
    _ = (uniquePairs (os.map Operand.text)).map join := by rw [h]
    _ = (uniquePairs os).map fun pair => pair.1.text ++ (op.toList ++ pair.2.text) := by
      rw [uniquePairs_map, List.map_map]
      rfl

theorem text_comparisons {op : Operator} {k : Comparison} (h : op.lua = .comparison k)
    (first : Operand × Operand) (pairs : List (Operand × Operand)) :
    (Phrase.comparisons h first pairs).text =
      Operator.and.text.toList.intercalate ((first :: pairs).map fun pair =>
        pair.1.text ++ (op.text.toList ++ pair.2.text)) := by
  have hlink (pair : Operand × Operand) : (pairLink h pair).text =
      Operator.and.text.toList ++ (pair.1.text ++ (op.text.toList ++ pair.2.text)) := by
    show _ ++ (pair.1.text ++ [pair.2.link op].flatMap Link.text) = _
    rw [List.flatMap_singleton]
    rfl
  rw [List.map_cons, intercalate_cons_eq_flatMap, List.flatMap_map]
  show first.1.text ++ ((first.2.link op :: pairs.map (pairLink h)).flatMap Link.text) = _
  rw [List.flatMap_cons, List.flatMap_map, ← List.append_assoc]
  simp only [hlink]
  rfl

theorem eval_comparisons {op : Operator} {k : Comparison} (h : op.lua = .comparison k)
    (first : Operand × Operand) (pairs : List (Operand × Operand)) :
    (Phrase.comparisons h first pairs).expr.eval I locals =
      I.truth ((first :: pairs).all fun pair =>
        I.holds k (pair.1.expr.eval I locals) (pair.2.expr.eval I locals)) := by
  have happly (a b : V) : I.apply op.lua a b = I.truth (I.holds k a b) := by
    rw [h]
    rfl
  have hfirst : I.apply (first.2.link op).op.lua (first.1.expr.eval I locals)
      ((first.2.link op).phrase.expr.eval I locals) =
        I.truth (I.holds k (first.1.expr.eval I locals) (first.2.expr.eval I locals)) :=
    happly _ _
  have hpair (pair : Operand × Operand) : (pairLink h pair).phrase.expr.eval I locals =
      I.truth (I.holds k (pair.1.expr.eval I locals) (pair.2.expr.eval I locals)) :=
    happly _ _
  have hfold := @foldl_and_truth _ I (pairs.map fun pair =>
    I.holds k (pair.1.expr.eval I locals) (pair.2.expr.eval I locals))
  simp only [List.foldl_map, List.all_cons, List.all_map] at hfold
  show ((first.2.link op :: pairs.map (pairLink h)).foldl Link.behind first.1.expr).eval
    I locals = _
  rw [eval_foldl_behind, List.foldl_cons, List.foldl_map, hfirst]
  simp only [hpair]
  exact hfold _

/-- A comparison is emitted as the conjunction of its instances for every two operands. -/
theorem stands_comparison {op : Operator} {k : Comparison} (hop : op.lua = .comparison k)
    {cs : List Code} {vs : List V} (hcs : List.Forall₂ (Stands I locals) cs vs)
    (hlen : 2 ≤ cs.length) :
    Stands I locals (.chain " and " ((uniquePairs cs).map fun (a, b) => .binary op.text a b))
      (I.compare k vs) := by
  obtain ⟨os, htexts, rfl⟩ := exists_operands hcs
  have hlen' : os.length = cs.length := by simpa using congrArg List.length htexts
  -- Two operands make a pair at least, so the conjunction is not empty.
  obtain ⟨first, pairs, hpairs⟩ : ∃ first pairs, uniquePairs os = first :: pairs := by
    match os, (hlen'.symm ▸ hlen : 2 ≤ os.length) with
    | o :: p :: qs, _ => exact ⟨_, _, rfl⟩
  refine ⟨.paren (.comparisons hop first pairs), ?_, ?_⟩
  · rw [toList_chain]
    show '(' :: ((Phrase.comparisons hop first pairs).text ++ [')']) = _
    rw [text_comparisons, ← hpairs, texts_binary op.text htexts]
    rfl
  · show (Phrase.comparisons hop first pairs).expr.eval I locals = _
    rw [eval_comparisons, ← hpairs, Interpretation.compare]
    refine congrArg I.truth ((all_uniquePairs (fun a b : Operand =>
      I.holds k (a.expr.eval I locals) (b.expr.eval I locals)) os).trans ?_)
    rw [decide_eq_decide, List.pairwise_map]

/-! ### Every operator -/

/-- An operator between operands denotes its value. -/
theorem stands_combine (op : Operator) (target : Target) {cs : List Code} {vs : List V}
    (hc : Stands I locals c v) (hd : Stands I locals d w)
    (hcs : List.Forall₂ (Stands I locals) cs vs) :
    Stands I locals (Gen.combine op target (c :: d :: cs)) (I.operator op v (w :: vs)) := by
  have hrest : List.Forall₂ (Stands I locals) (d :: cs) (w :: vs) := .cons hd hcs
  have hall : List.Forall₂ (Stands I locals) (c :: d :: cs) (v :: w :: vs) := .cons hc hrest
  have hlen : 2 ≤ (c :: d :: cs).length := by simp
  cases op with
  | add | sub | mul | div | and | or => exact stands_chain (.inr (Nat.le_refl _)) hc hrest
  | pow => exact stands_foldl_power target hc hrest
  | nand | nor => exact (stands_chain (.inr (Nat.le_refl _)) hc hrest).expresses.negate
  | eq | ne | gt | lt | ge | le => exact stands_comparison rfl hall hlen

end LispLua.Lua
