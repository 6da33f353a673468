import LispLua.Term.Sugar
import Mathlib.Data.List.Sort
import Mathlib.Data.Nat.Choose.Basic

/-!
# Pairs of operands

A comparison of many operands is made between every two of them. The pairs are listed by the places
of their elements, so that equal elements at different places count as different.

A list is the image of the list of its places, which increases. So only the pairs of increasing
lists have to be looked at for their order and number.
-/

namespace LispLua

variable {α β : Type}

theorem uniquePairs_map (f : α → β) (as : List α) :
    uniquePairs (as.map f) = (uniquePairs as).map (Prod.map f f) := by
  induction as with
  | nil => rfl
  | cons a as ih => simp [uniquePairs, ih, Function.comp_def]

/-- What holds of all pairs holds between every two elements. -/
theorem forall_mem_uniquePairs_iff {P : α × α → Prop} {as : List α} :
    (∀ pair ∈ uniquePairs as, P pair) ↔ as.Pairwise fun a b => P (a, b) := by
  induction as with
  | nil => simp [uniquePairs]
  | cons a as ih => simp only [uniquePairs, List.forall_mem_append, List.forall_mem_map, ih,
      List.pairwise_cons]

/-- Every element makes a pair with each one behind it. -/
theorem length_uniquePairs (as : List α) :
    (uniquePairs as).length = as.length * (as.length - 1) / 2 := by
  induction as with
  | nil => simp [uniquePairs]
  | cons a as ih =>
    rw [uniquePairs, List.length_append, List.length_map, ih, List.length_cons, Nat.triangle_succ,
      Nat.add_comm]

/-! ### Increasing lists -/

section Increasing

variable [LinearOrder α] {as : List α}

/-- In an increasing list an element stands in front of another if it is the smaller one. -/
theorem mem_uniquePairs (h : as.Pairwise (· < ·)) {a b : α} :
    (a, b) ∈ uniquePairs as ↔ a ∈ as ∧ b ∈ as ∧ a < b := by
  induction as with
  | nil => simp [uniquePairs]
  | cons x as ih =>
    obtain ⟨hx, has⟩ := List.pairwise_cons.1 h
    have hfront : (a, b) ∈ as.map (fun y => (x, y)) ↔ a = x ∧ b ∈ as := by
      simp [eq_comm, and_comm]
    rw [uniquePairs, List.mem_append, hfront, ih has, List.mem_cons, List.mem_cons]
    constructor
    · rintro (⟨rfl, hb⟩ | ⟨ha, hb, hab⟩)
      · exact ⟨.inl rfl, .inr hb, hx b hb⟩
      · exact ⟨.inr ha, .inr hb, hab⟩
    · rintro ⟨rfl | ha, rfl | hb, hab⟩
      · exact absurd hab (lt_irrefl _)
      · exact .inl ⟨rfl, hb⟩
      · exact absurd (hx a ha) (lt_asymm hab)
      · exact .inr ⟨ha, hb, hab⟩

/-- The pairs of an increasing list increase, first by the element in front. -/
theorem pairwise_uniquePairs (h : as.Pairwise (· < ·)) :
    (uniquePairs as).Pairwise (Prod.Lex (· < ·) (· < ·)) := by
  induction as with
  | nil => exact .nil
  | cons x as ih =>
    obtain ⟨hx, has⟩ := List.pairwise_cons.1 h
    rw [uniquePairs, List.pairwise_append]
    refine ⟨?_, ih has, ?_⟩
    · rw [List.pairwise_map]
      exact has.imp fun hab => .right x hab
    · rintro _ hfront ⟨a, b⟩ hback
      obtain ⟨y, -, rfl⟩ := List.mem_map.1 hfront
      exact .left _ _ (hx a ((mem_uniquePairs has).1 hback).1)

end Increasing

/-! ### Places -/

/-- Every two of `n` places, the one in front first. -/
def placePairs (n : Nat) : List (Fin n × Fin n) :=
  uniquePairs (List.finRange n)

theorem pairwise_placePairs (n : Nat) : (placePairs n).Pairwise (Prod.Lex (· < ·) (· < ·)) :=
  pairwise_uniquePairs (List.sortedLT_finRange n).pairwise

theorem mem_placePairs {n : Nat} {i j : Fin n} : (i, j) ∈ placePairs n ↔ i < j := by
  rw [placePairs, mem_uniquePairs (List.sortedLT_finRange n).pairwise]
  simp

/-- No two places are paired twice. -/
theorem count_placePairs {n : Nat} (i j : Fin n) :
    (placePairs n).count (i, j) = if i < j then 1 else 0 := by
  by_cases hij : i < j
  · rw [if_pos hij]
    exact List.count_eq_one_of_mem (pairwise_placePairs n).nodup (mem_placePairs.2 hij)
  · rw [if_neg hij]
    exact List.count_eq_zero.2 (mt mem_placePairs.1 hij)

theorem uniquePairs_eq_map_placePairs (as : List α) :
    uniquePairs as = (placePairs as.length).map (Prod.map as.get as.get) := by
  rw [placePairs, ← uniquePairs_map, List.map_get_finRange]

/-- The pairs of a list are made of every two of its places, the one in front first, each once and in
lexicographic order. So there are `n (n - 1) / 2` of them, a property holds of all if it holds between
every two elements, and a transitive relation does so if it holds between neighbours. -/
theorem uniquePairs_lists_places (as : List α) :
    (∃ places : List (Fin as.length × Fin as.length),
      uniquePairs as = places.map (fun (i, j) => (as.get i, as.get j)) ∧
      places.Pairwise (Prod.Lex (· < ·) (· < ·)) ∧
      ∀ i j, places.count (i, j) = if i < j then 1 else 0) ∧
    (uniquePairs as).length = as.length * (as.length - 1) / 2 ∧
    (∀ P : α × α → Prop,
      (∀ pair ∈ uniquePairs as, P pair) ↔ as.Pairwise fun a b => P (a, b)) ∧
    ∀ R : α → α → Prop, (∀ a b c, R a b → R b c → R a c) →
      ((∀ pair ∈ uniquePairs as, R pair.1 pair.2) ↔ as.IsChain R) := by
  refine ⟨⟨placePairs as.length, uniquePairs_eq_map_placePairs as, pairwise_placePairs _,
    count_placePairs⟩, length_uniquePairs as, fun P => forall_mem_uniquePairs_iff, ?_⟩
  intro R htrans
  have : Trans R R R := ⟨fun hab hbc => htrans _ _ _ hab hbc⟩
  rw [forall_mem_uniquePairs_iff, List.isChain_iff_pairwise]

/-- Equal elements at different places, and an order that holds between neighbours. -/
theorem uniquePairs_lists_places_repeated :
    uniquePairs [2, 2, 3] = [(2, 2), (2, 3), (2, 3)] ∧
    (∀ pair ∈ uniquePairs [2, 2, 3], pair.1 ≤ pair.2) ∧
    ¬ ∀ pair ∈ uniquePairs [2, 2, 3], pair.1 < pair.2 := by
  obtain ⟨-, -, -, hchain⟩ := uniquePairs_lists_places [2, 2, 3]
  refine ⟨rfl, (hchain (· ≤ ·) fun _ _ _ => Nat.le_trans).2 (by decide), ?_⟩
  rw [hchain (· < ·) fun _ _ _ => Nat.lt_trans]
  decide

end LispLua
