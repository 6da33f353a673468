import LispLua.Proofs.Lowering.Rules
import LispLua.Proofs.Reading.WellFormed

/-!
# Literals

Numbers and strings are emitted as they are written. This module says how they start, for all
terms the lowering of a source can meet, those that sugar makes included.
-/

namespace LispLua

/-- A text starts with a digit, a sign or a quote. -/
def StartsLiteral (text : String) : Prop :=
  ∃ c cs, text.toList = c :: cs ∧ (c.isDigit = true ∨ c = '-' ∨ c = '+' ∨ c = '"')

/-- The numbers and the strings in a term start like literals. -/
inductive Term.Literate : Term → Prop
  | list {items : List Term} {span : Span} :
      (∀ t ∈ items, t.Literate) → (Term.list items span).Literate
  | table {items : List Term} {escaped : Bool} {span : Span} :
      (∀ t ∈ items, t.Literate) → (Term.table items escaped span).Literate
  | call {target : Term} {args : List Term} {span : Span} :
      target.Literate → (∀ t ∈ args, t.Literate) → (Term.call target args span).Literate
  | number {t : Token} : StartsLiteral t.text → (Term.number t).Literate
  | string {t : Token} : StartsLiteral (Gen.stringText t.text) → (Term.string t).Literate
  | path {p : Path} : (Term.path p).Literate
  | symbol {t : Token} : (Term.symbol t).Literate
  | name {t : Token} : (Term.name t).Literate
  | wildcard {t : Token} : (Term.wildcard t).Literate

theorem startsLiteral_of_isIndex {text : String} (h : isIndex text = true) : StartsLiteral text := by
  unfold isIndex at h
  split at h
  · rename_i digits htext
    exact ⟨'-', digits, htext, .inr (.inl rfl)⟩
  · rename_i digits htext
    exact ⟨'+', digits, htext, .inr (.inr (.inl rfl))⟩
  · cases htext : text.toList with
    | nil =>
      rw [htext] at h
      cases h
    | cons c cs =>
      rw [htext] at h
      simp only [Index.within, List.all_cons, Bool.and_eq_true] at h
      exact ⟨c, cs, htext, .inl h.1.2.1⟩

theorem startsLiteral_of_isNumeral {text : String} (h : IsNumeral text.toList) :
    StartsLiteral text := by
  generalize hcs : text.toList = cs at h
  cases h with
  | plain h =>
    obtain ⟨d, ds, rfl, hd⟩ := h.head
    exact ⟨d, ds, hcs, .inl hd⟩
  | negative _ => exact ⟨'-', _, hcs, .inr (.inl rfl)⟩

theorem startsLiteral_of_isLiteral {text : String} (h : IsLiteral text.toList) :
    StartsLiteral (Gen.stringText text) := by
  generalize hcs : text.toList = cs at h
  cases h with
  | mk _ =>
    have htext : (Gen.stringText text).toList.head? = some '"' := by
      rw [Gen.stringText, hcs, List.flatMap_cons, String.toList_ofList]
      rfl
    obtain ⟨rest, hrest⟩ := List.head?_eq_some_iff.1 htext
    exact ⟨'"', rest, hrest, .inr (.inr (.inr rfl))⟩

namespace Term.Literate

variable {target t : Term} {args : List Term} {span : Span}

theorem target_of_call (h : (Term.call target args span).Literate) : target.Literate := by
  cases h with
  | call htarget _ => exact htarget

theorem args_of_call (h : (Term.call target args span).Literate) : ∀ t ∈ args, t.Literate := by
  cases h with
  | call _ hargs => exact hargs

/-- The key that a symbol or a number stands for as a target. -/
theorem indexer (h : t.Literate) : t.indexer.2.Literate := by
  unfold Term.indexer
  split
  · split
    · exact .number (startsLiteral_of_isIndex ‹_›)
    · exact h
  · exact h
  · exact h

end Term.Literate

theorem hereditary_literate : Term.Hereditary Term.Literate where
  items h := by
    cases h with
    | list h => exact h
  cells h := by
    cases h with
    | table h => exact h
  args h := h.args_of_call
  list _ h := .list h
  named _ _ h := .call .name h
  insert {c t} slot hc ht := by
    have hargs := hc.args_of_call
    cases slot with
    | first => exact .call hc.target_of_call (List.forall_mem_cons.2 ⟨ht, hargs⟩)
    | last =>
      exact .call hc.target_of_call
        (List.forall_mem_append.2 ⟨hargs, List.forall_mem_singleton.2 ht⟩)
  indexed hc :=
    .call .name (List.forall_mem_cons.2 ⟨hc.target_of_call.indexer, hc.args_of_call⟩)

theorem Term.WellFormed.literate {t : Term} (h : t.WellFormed) : t.Literate := by
  induction h with
  | list _ ih => exact .list ih
  | table _ ih => exact .table ih
  | call _ _ _ ih ih' => exact .call ih ih'
  | path _ => exact .path
  | number h => exact .number (startsLiteral_of_isNumeral h)
  | string h => exact .string (startsLiteral_of_isLiteral h)
  | symbol _ _ => exact .symbol
  | name _ => exact .name
  | wildcard _ => exact .wildcard

/-! ### Words -/

/-- A text that starts neither with a point nor with an underscore. -/
def StartsPlain (text : String) : Prop :=
  text.toList.head? ≠ some '.' ∧ text.toList.head? ≠ some '_'

instance : DecidablePred StartsPlain :=
  fun _ => inferInstanceAs (Decidable (_ ∧ _))

theorem StartsLiteral.startsPlain {text : String} (h : StartsLiteral text) : StartsPlain text := by
  obtain ⟨c, cs, htext, hc⟩ := h
  rw [StartsPlain, htext, List.head?_cons]
  rcases hc with hc | rfl | rfl | rfl
  · constructor
    · rintro ⟨⟩
      cases hc
    · rintro ⟨⟩
      cases hc
  · decide
  · decide
  · decide

namespace Standard

theorem startsPlain_table : ∀ e ∈ table, StartsPlain e.emitted ∧
    ∀ f ∈ (Meaning.standard e).function?, StartsPlain f := by
  decide +kernel

theorem mem_table_of_find? {name : String} {e : Entry} (h : find? name = some e) : e ∈ table :=
  List.mem_of_find?_eq_some h

end Standard

/-- A function that stands for a special form is a function of the library. -/
theorem startsPlain_function? {s : Session} {name f : String} {m : Meaning}
    (h : s.find? name = some m) (hf : m.function? = some f) : StartsPlain f := by
  unfold Session.find? at h
  split at h
  · cases h
    cases hf
  · obtain ⟨e, he, rfl⟩ := Option.map_eq_some_iff.1 h
    exact (Standard.startsPlain_table e (Standard.mem_table_of_find? he)).2 f hf

theorem literate_of_parse {source : String} {p : Program} (h : parse source = .ok p) :
    ∀ c ∈ p, c.term.Literate :=
  fun c hc => (wellFormed_of_parse h c hc).literate

end LispLua
