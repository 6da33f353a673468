import LispLua.Generate.Term

/-!
# Ranks

The rank of a term is above the ranks of the terms inside it, and the rank of sugar is above that
of the term it stands for.
-/

namespace LispLua

namespace Term

theorem rank_pos (t : Term) : 0 < t.rank := by
  cases t with
  | call target args span => cases target <;> simp only [rank] <;> (try split) <;> omega
  | _ => simp [rank]

theorem rank_le_rankMax {t : Term} {ts : List Term} (h : t ∈ ts) : t.rank ≤ rankMax ts := by
  induction ts with
  | nil => cases h
  | cons u us ih =>
    simp only [rankMax]
    rcases List.mem_cons.1 h with rfl | h
    · omega
    · have := ih h
      omega

theorem rank_add_three_le_rankSum {t : Term} {ts : List Term} (h : t ∈ ts) :
    t.rank + 3 ≤ rankSum ts := by
  induction ts with
  | nil => cases h
  | cons u us ih =>
    simp only [rankSum]
    rcases List.mem_cons.1 h with rfl | h
    · omega
    · have := ih h
      omega

theorem rank_lt_list {t : Term} {items : List Term} (span : Span) (h : t ∈ items) :
    t.rank < (list items span).rank := by
  have := rank_le_rankMax h
  simp only [rank]
  omega

theorem rank_lt_table {t : Term} {items : List Term} (escaped : Bool) (span : Span)
    (h : t ∈ items) : t.rank < (table items escaped span).rank := by
  have := rank_le_rankMax h
  simp only [rank]
  omega

theorem rank_lt_call {t : Term} {args : List Term} (target : Term) (span : Span) (h : t ∈ args) :
    t.rank < (call target args span).rank := by
  have := rank_le_rankMax h
  have := rank_add_three_le_rankSum h
  cases target <;> simp only [rank] <;> (try split) <;> omega

/-- A call of a symbol or a number ranks above the call it stands for. -/
theorem rank_indexed_lt (c : Call) (target : Token)
    (h : c.target = .symbol target ∨ c.target = .number target) :
    c.indexed.term.rank < c.term.rank := by
  obtain ⟨t, args, span⟩ := c
  have hl : isSugared "list/get" = false := by decide +kernel
  have ht : isSugared "table/get" = false := by decide +kernel
  rcases h with h | h <;> cases h <;> simp only [Call.indexed, indexer, Call.term]
  · split <;> simp only [rank, rankMax, hl, ht, Bool.false_eq_true, if_false] <;> omega
  · simp only [rank, rankMax, hl, Bool.false_eq_true, if_false]
    omega

/-- Putting a value into a stage raises the rank by that of the value and three at most. -/
theorem rank_feed {slot : Slot} {value stage t : Term} (h : feed slot value stage = .ok t) :
    t.rank ≤ value.rank + stage.rank + 3 := by
  have append (ts : List Term) : rankMax (ts ++ [value]) = max (rankMax ts) value.rank := by
    induction ts with
    | nil => simp [rankMax]
    | cons u us ih => simp only [List.cons_append, rankMax, ih]; omega
  have sum (ts : List Term) : rankSum (ts ++ [value]) = rankSum ts + (value.rank + 3) := by
    induction ts with
    | nil => simp [rankSum]
    | cons u us ih => simp only [List.cons_append, rankSum, ih]; omega
  have := rank_pos value
  cases stage with
  | call target args span =>
    cases h
    cases slot <;> cases target <;>
      simp only [Call.insert, Call.term, rank, rankMax, rankSum, append, sum] <;>
      (try split) <;> omega
  | _ => cases h

/-- The terms of a thread rank together at least as high as what it stands for. -/
theorem rank_thread {slot : Slot} {terms : List Term} {span : Span} {t : Term}
    (h : thread slot terms span = .ok t) : t.rank ≤ rankSum terms := by
  cases terms with
  | nil => cases h
  | cons value stages =>
    suffices t.rank ≤ value.rank + rankSum stages by simp only [rankSum]; omega
    induction stages generalizing value with
    | nil => cases h; omega
    | cons stage stages ih =>
      cases hf : feed slot value stage with
      | error f => simp [thread, hf, bind, Except.bind] at h
      | ok u =>
        have := rank_feed hf
        have := ih u (by simpa [thread, hf, bind, Except.bind] using h)
        simp only [rankSum]
        omega

/-- The terms of a fan rank together at least as high as what it stands for. -/
theorem rank_fan {slot : Slot} {terms : List Term} {span : Span} {t : Term}
    (h : fan slot terms span = .ok t) : t.rank ≤ rankSum terms := by
  cases terms with
  | nil => cases h
  | cons value stages =>
    simp only [fan, bind, Except.bind] at h
    cases hs : stages.mapM (feed slot value) with
    | error f => simp [hs] at h
    | ok us =>
      simp only [hs, pure, Except.pure, Except.ok.injEq] at h
      subst h
      have := rank_pos value
      suffices rankMax us ≤ value.rank + rankSum stages by simp only [rank, rankSum]; omega
      clear this
      induction stages generalizing us with
      | nil => cases hs; simp [rankMax]
      | cons stage stages ih =>
        simp only [List.mapM_cons, bind, Except.bind] at hs
        cases hf : feed slot value stage with
        | error f => simp [hf] at hs
        | ok v =>
          cases hr : stages.mapM (feed slot value) with
          | error f => simp [hf, hr] at hs
          | ok vs =>
            simp only [hf, hr, pure, Except.pure, Except.ok.injEq] at hs
            subst hs
            have := rank_feed hf
            have := ih vs hr
            simp only [rankMax, rankSum]
            omega

theorem rank_exclusive (span : Span) (a b : Term) :
    (exclusive span a b).rank = max a.rank b.rank + 3 := by
  have := rank_pos a
  have := rank_pos b
  have h₁ : isSugared "or" = false := by decide +kernel
  have h₂ : isSugared "and" = false := by decide +kernel
  have h₃ : isSugared "not" = false := by decide +kernel
  simp only [exclusive, named, Call.named, Call.term, rank, rankMax, h₁, h₂, h₃,
    Bool.false_eq_true, if_false]
  omega

/-- The terms of an exclusive or rank together at least as high as what it stands for. -/
theorem rank_parity {terms : List Term} {span : Span} {t : Term}
    (h : parity terms span = .ok t) : t.rank ≤ rankSum terms := by
  cases terms with
  | nil => cases h
  | cons first rest =>
    cases h
    suffices (rest.foldl (exclusive span) first).rank ≤ first.rank + rankSum rest by
      simp only [rankSum]; omega
    induction rest generalizing first with
    | nil => simp [rankSum]
    | cons b bs ih =>
      have := ih (exclusive span first b)
      have := rank_exclusive span first b
      simp only [List.foldl_cons, rankSum]
      omega

end Term
end LispLua
