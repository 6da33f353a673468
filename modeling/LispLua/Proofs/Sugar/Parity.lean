import LispLua.Report.Failure
import LispLua.Term.Sugar
import Mathlib.Algebra.Ring.Parity

/-!
# Exclusive or

Exclusive or of any number of terms is sugar for a term of conjunctions, disjunctions and negations.
This module says what that term is made of and when it is true.

A step of the fold writes both of its operands twice, so the term doubles with every argument.
`Connects` keeps the operands as a list in the order of the text, every copy of its own.
-/

namespace LispLua

theorem Call.target_of_name? {c : Call} {n : String} (h : c.name? = some n) :
    ∃ t : Token, c.target = .name t ∧ t.text = n := by
  unfold Call.name? at h
  split at h
  · exact ⟨_, ‹_›, Option.some.inj h⟩
  · cases h

namespace Term

/-- The truth of terms. A conjunction holds if all its arguments do, a disjunction if any does, and
a negation if its only argument does not. -/
structure Valuation where
  holds : Term → Bool
  conjunction {c : Call} : c.name? = some "and" → holds c.term = c.args.all holds
  disjunction {c : Call} : c.name? = some "or" → holds c.term = c.args.any holds
  negation {c : Call} {t : Term} : c.name? = some "not" → c.args = [t] → holds c.term = !holds t

/-! ### Valuations with given truths -/

mutual

/-- The truth of a term, where `leaf` gives that of all terms but calls of the connectives. -/
def truth (leaf : Term → Bool) : Term → Bool
  | call (name t) args span =>
    if t.text = "and" then (truths leaf args).all id
    else if t.text = "or" then (truths leaf args).any id
    else if t.text = "not" then
      match truths leaf args with
      | [b] => !b
      | _ => leaf (call (name t) args span)
    else leaf (call (name t) args span)
  | t => leaf t

/-- The truths of some terms, in order. -/
def truths (leaf : Term → Bool) : List Term → List Bool
  | [] => []
  | t :: ts => t.truth leaf :: truths leaf ts

end

theorem truths_eq_map (leaf : Term → Bool) (ts : List Term) :
    truths leaf ts = ts.map (truth leaf) := by
  induction ts with
  | nil => rfl
  | cons t ts ih => rw [truths, ih, List.map_cons]

/-- The valuation in which all terms but calls of the connectives have the given truth. -/
def Valuation.extend (leaf : Term → Bool) : Valuation where
  holds := truth leaf
  conjunction {c} h := by
    obtain ⟨t, htarget, htext⟩ := Call.target_of_name? h
    rw [Call.term, htarget, truth, if_pos htext, truths_eq_map, List.all_map]
    rfl
  disjunction {c} h := by
    obtain ⟨t, htarget, htext⟩ := Call.target_of_name? h
    rw [Call.term, htarget, truth, htext, if_neg (by decide), if_pos rfl, truths_eq_map,
      List.any_map]
    rfl
  negation {c t'} h hargs := by
    obtain ⟨t, htarget, htext⟩ := Call.target_of_name? h
    rw [Call.term, htarget, hargs, truth, htext, if_neg (by decide), if_neg (by decide), if_pos rfl]
    rfl

/-! ### The truth of the sugar -/

namespace Valuation

variable (v : Valuation)

theorem holds_exclusive (span : Span) (a b : Term) :
    v.holds (exclusive span a b) = (v.holds a ^^ v.holds b) := by
  have hnot (span : Span) (t : Term) : v.holds (named "not" span [t]) = !v.holds t :=
    v.negation (c := .named "not" span [t]) rfl rfl
  have hand (span : Span) (t u : Term) :
      v.holds (named "and" span [t, u]) = (v.holds t && v.holds u) := by
    rw [named, v.conjunction (c := .named "and" span [t, u]) rfl, Call.named]
    simp
  have hor (span : Span) (t u : Term) :
      v.holds (named "or" span [t, u]) = (v.holds t || v.holds u) := by
    rw [named, v.disjunction (c := .named "or" span [t, u]) rfl, Call.named]
    simp
  rw [exclusive, hor, hand, hand, hnot, hnot]
  cases v.holds a <;> cases v.holds b <;> rfl

theorem holds_foldl (span : Span) (first : Term) (rest : List Term) :
    v.holds (rest.foldl (exclusive span) first) =
      (rest.map v.holds).foldl (· ^^ ·) (v.holds first) := by
  induction rest generalizing first with
  | nil => rfl
  | cons t rest ih => rw [List.foldl_cons, ih, holds_exclusive, List.map_cons, List.foldl_cons]

end Valuation

/-- Exclusive or of some truths holds if an odd number of them does. -/
theorem foldl_xor_iff (start : Bool) (bs : List Bool) :
    bs.foldl (· ^^ ·) start = true ↔ (start = true ↔ Even (bs.count true)) := by
  induction bs generalizing start with
  | nil => simp
  | cons b bs ih =>
    rw [List.foldl_cons, ih]
    cases b with
    | false => simp
    | true => cases start <;> simp [Nat.even_add_one]

/-! ### What the sugar is made of -/

/-- A term is made of the terms `leaves`, in this order, by calls of the connectives alone. -/
inductive Connects : List Term → Term → Prop
  | leaf (t : Term) : Connects [t] t
  | not (span : Span) {as : List Term} {a : Term} : Connects as a →
      Connects as (named "not" span [a])
  | and (span : Span) {as bs : List Term} {a b : Term} : Connects as a → Connects bs b →
      Connects (as ++ bs) (named "and" span [a, b])
  | or (span : Span) {as bs : List Term} {a b : Term} : Connects as a → Connects bs b →
      Connects (as ++ bs) (named "or" span [a, b])

theorem Connects.exclusive (span : Span) {as bs : List Term} {a b : Term} (ha : Connects as a)
    (hb : Connects bs b) : Connects (as ++ bs ++ (as ++ bs)) (exclusive span a b) :=
  .or span (.and b.span (.not a.span ha) hb) (.and a.span ha (.not b.span hb))

/-- The fold uses what the first term is made of and every other term as it is, and no more. -/
theorem exists_connects_foldl (span : Span) {leaves : List Term} {first : Term}
    (h : Connects leaves first) (rest : List Term) :
    ∃ all, Connects all (rest.foldl (Term.exclusive span) first) ∧
      ∀ t, t ∈ all ↔ t ∈ leaves ++ rest := by
  induction rest generalizing leaves first with
  | nil => exact ⟨leaves, h, by simp⟩
  | cons t rest ih =>
    obtain ⟨all, hall, hmem⟩ := ih (h.exclusive span (.leaf t))
    refine ⟨all, hall, fun u => ?_⟩
    rw [hmem]
    simp only [List.mem_append, List.mem_cons, List.not_mem_nil, or_false, or_self, or_assoc]

end Term

/-- Exclusive or of some terms is refused, as malformed and at the place of the call, exactly if
there are none. Else it is a term of conjunctions, disjunctions and negations over the terms
themselves, all of them and no others, and in every valuation it has the exclusive or of their
truths: it holds if an odd number of them does. -/
theorem parity_of_truths (ts : List Term) (span : Span) :
    (∀ f, Term.parity ts span = .error f ↔ ts = [] ∧ f = ⟨.parityArity, span⟩) ∧
    (∀ code, (Fault.failure code ⟨.parityArity, span⟩).title = "Syntax error" ∧
      (Fault.failure code ⟨.parityArity, span⟩).span? = some span) ∧
    (ts ≠ [] → ∃ t, Term.parity ts span = .ok t ∧
      (∃ leaves, Term.Connects leaves t ∧ ∀ u, u ∈ leaves ↔ u ∈ ts) ∧
      ∀ v : Term.Valuation, v.holds t = (ts.map v.holds).foldl (· ^^ ·) false ∧
        (v.holds t = true ↔ Odd (ts.countP v.holds))) := by
  refine ⟨fun f => ?_, fun code => ⟨rfl, rfl⟩, fun hne => ?_⟩
  · cases ts with
    | nil => simp [Term.parity, eq_comm]
    | cons first rest => simp [Term.parity]
  · obtain ⟨first, rest, rfl⟩ := List.exists_cons_of_ne_nil hne
    refine ⟨_, rfl, Term.exists_connects_foldl span (.leaf first) rest, fun v => ?_⟩
    have hfold : v.holds (rest.foldl (Term.exclusive span) first) =
        ((first :: rest).map v.holds).foldl (· ^^ ·) false := by
      rw [v.holds_foldl, List.map_cons, List.foldl_cons, Bool.false_xor]
    refine ⟨hfold, ?_⟩
    rw [hfold, Term.foldl_xor_iff, ← Nat.not_even_iff_odd, List.count, List.countP_map]
    simp [Function.comp_def]

/-- The exclusive or of a true, a false and a true term, of which one is a negation. -/
theorem parity_of_truths_three :
    let yes : Term := .name ⟨"a", .none⟩
    let no : Term := .named "not" .none [yes]
    [yes, no, yes] ≠ [] ∧
      ∃ t, Term.parity [yes, no, yes] .none = .ok t ∧
        (Term.Valuation.extend fun _ => true).holds t = false := by
  intro yes no
  have hne : [yes, no, yes] ≠ [] := List.cons_ne_nil _ _
  obtain ⟨t, ht, -, htruth⟩ := (parity_of_truths [yes, no, yes] .none).2.2 hne
  refine ⟨hne, t, ht, ?_⟩
  rw [(htruth _).1]
  rfl

end LispLua
