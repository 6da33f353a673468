import LispLua.Proofs.Pairing.Term
import LispLua.Proofs.Reading.RoundTrip

/-!
# Layout does not matter

Two sources that differ only in what stands between their tokens compile to the same text, or are
refused for the same reason. Only the places of messages can differ, and what quotes the source.
-/

namespace LispLua

/-! ### Failures in no place -/

/-- A failure in no place: without its span, and without the report that quotes the source. -/
def Failure.unplaced : Failure → Failure
  | unreadable message _ => unreadable message none
  | malformed message _ => malformed message none
  | unbound name _ => unbound name none
  | impure message _ => impure message none
  | mistyped message _ => mistyped message none
  | misused message _ => misused message none
  | internal message _ _ => internal message none none
  | f => f

/-- Two compilations give one text or fail for one reason. -/
inductive Alike : Except Failure String → Except Failure String → Prop
  | text (text : String) : Alike (.ok text) (.ok text)
  | failure {f f' : Failure} : f.cause.unplaced = f'.cause.unplaced → f.message = f'.message →
      Alike (.error f) (.error f')

/-- The failure of a fault, but for the place, is that of its cause. -/
theorem Fault.failure_unplaced {f f' : Fault} (h : f'.cause = f.cause) (code code' : String) :
    (f.failure code).cause.unplaced = (f'.failure code').cause.unplaced ∧
      (f.failure code).message = (f'.failure code').message := by
  simp only [Fault.failure, h]
  cases f.cause.category <;>
    simp only [Failure.cause, Failure.unplaced, Failure.message, and_self]

namespace Gen

/-! ### Programs that differ in their spans -/

/-- Spans, the code of the job and the events have no part in generation. -/
def layoutPairing : Pairing where
  name _ := True
  cause _ := True
  span _ _ := True
  job j j' := j'.options = j.options ∧ j'.sourceName = j.sourceName
  session s s' := s'.scope = s.scope ∧ s'.package = s.package ∧ s'.moduleName = s.moduleName
  fault _ _ f f' := f'.cause = f.cause
  implied _ _ := trivial
  ordinary _ := trivial
  options_eq h := h.1
  sourceName_eq h := h.2
  find?_eq h _ := by rw [Session.find?, Session.find?, h.1]
  getRoot?_eq h _ := by rw [h.1]
  isPure_eq h := by rw [Session.isPure, Session.isPure, h.1]
  package_eq h := h.2.1
  moduleName_eq h := h.2.2
  session_enter pure? h := ⟨by simp only [Session.enter, Session.isPure, h.1], h.2⟩
  session_leave h := ⟨by simp only [Session.leave, h.1], h.2⟩
  session_set b h _ := ⟨by simp only [h.1], h.2⟩
  session_setRoot b h _ := ⟨by simp only [h.1], h.2⟩
  session_rename _ _ h := ⟨h.1, rfl, rfl⟩
  session_log _ h := h
  session_warn _ _ _ h := h
  fault_refuse _ _ := rfl
  fault_append _ h := h
  fault_layer _ h := h
  fault_call _ _ h := h

theorem segments_of_bare {ss ss' : List Segment} (h : ss.map Segment.bare = ss'.map Segment.bare) :
    List.Forall₂ layoutPairing.Segments ss ss' := by
  induction ss generalizing ss' with
  | nil =>
    cases ss' with
    | nil => exact .nil
    | cons _ _ => cases h
  | cons s ss ih =>
    cases ss' with
    | nil => cases h
    | cons s' ss' =>
      simp only [List.map_cons, List.cons.injEq, Segment.bare, Token.bare, Segment.mk.injEq,
        Token.mk.injEq, and_true] at h
      obtain ⟨⟨hlink, hname⟩, hss⟩ := h
      exact .cons ⟨hlink.symm, hname.symm, trivial⟩ (ih hss)

mutual

/-- Terms that are equal without their spans differ in nothing that matters. -/
theorem terms_of_bare : ∀ {t t' : Term}, t.bare = t'.bare → layoutPairing.Terms t t'
  | .list _ _, t', h => by
    cases t' <;> simp only [Term.bare, reduceCtorEq, Term.list.injEq, and_true] at h
    exact .list (forall₂_of_bare h) trivial
  | .table _ _ _, t', h => by
    cases t' <;> simp only [Term.bare, reduceCtorEq, Term.table.injEq, and_true] at h
    obtain ⟨hitems, rfl⟩ := h
    exact .table _ (forall₂_of_bare hitems) trivial
  | .call _ _ _, t', h => by
    cases t' <;> simp only [Term.bare, reduceCtorEq, Term.call.injEq, and_true] at h
    exact .call (terms_of_bare h.1) (fun _ _ => trivial) (forall₂_of_bare h.2) trivial
  | .path q, t', h => by
    cases t' <;> simp only [Term.bare, reduceCtorEq, Term.path.injEq, Path.bare, Path.mk.injEq,
      Token.bare, Token.mk.injEq, and_true] at h
    exact .path ⟨⟨⟨h.1.symm, trivial⟩, trivial⟩, segments_of_bare h.2, trivial⟩
  | .number _, t', h => by
    cases t' <;> simp only [Term.bare, reduceCtorEq, Term.number.injEq, Token.bare, Token.mk.injEq,
      and_true] at h
    exact .number ⟨h.symm, trivial⟩
  | .string _, t', h => by
    cases t' <;> simp only [Term.bare, reduceCtorEq, Term.string.injEq, Token.bare, Token.mk.injEq,
      and_true] at h
    exact .string ⟨h.symm, trivial⟩
  | .symbol _, t', h => by
    cases t' <;> simp only [Term.bare, reduceCtorEq, Term.symbol.injEq, Token.bare, Token.mk.injEq,
      and_true] at h
    exact .symbol ⟨h.symm, trivial⟩
  | .name _, t', h => by
    cases t' <;> simp only [Term.bare, reduceCtorEq, Term.name.injEq, Token.bare, Token.mk.injEq,
      and_true] at h
    exact .name ⟨⟨h.symm, trivial⟩, trivial⟩
  | .wildcard _, t', h => by
    cases t' <;> simp only [Term.bare, reduceCtorEq, Term.wildcard.injEq, Token.bare,
      Token.mk.injEq, and_true] at h
    exact .wildcard ⟨h.symm, trivial⟩

theorem forall₂_of_bare : ∀ {ts ts' : List Term}, Term.bareAll ts = Term.bareAll ts' →
    List.Forall₂ layoutPairing.Terms ts ts'
  | [], [], _ => .nil
  | _ :: _, _ :: _, h => by
    simp only [Term.bareAll, List.cons.injEq] at h
    exact .cons (terms_of_bare h.1) (forall₂_of_bare h.2)
  | [], _ :: _, h | _ :: _, [], h => by simp only [Term.bareAll, reduceCtorEq] at h

end

theorem program_of_bare {p p' : Program} (h : Program.bare p = Program.bare p') :
    List.Forall₂ (fun c c' => layoutPairing.Terms c.term c'.term) p p' := by
  rw [Program.bare, Program.bare, ← List.forall₂_eq_eq_eq, List.forall₂_map_left_iff,
    List.forall₂_map_right_iff] at h
  exact h.imp fun _ _ => terms_of_bare

end Gen

/-! ### Compilation -/

theorem alike_of_bare {source source' : String} {p p' : Program} (hp : parse source = .ok p)
    (hp' : parse source' = .ok p') (hbare : Program.bare p = Program.bare p') (sourceName : String)
    (options : Options) :
    Alike (compile source sourceName options).1 (compile source' sourceName options).1 := by
  have hruns := Gen.Pairing.runs_program (Gen.layoutPairing.accounts_of_cause (fun _ => trivial) _)
    (Gen.program_of_bare hbare)
  have hends := @hruns ⟨options, sourceName, source⟩ ⟨options, sourceName, source'⟩ .start .start
    ⟨rfl, rfl⟩ ⟨rfl, rfl, rfl⟩
  simp only [compile, hp, hp']
  rw [Gen.Pairing.RunsFrom] at hends
  generalize (Gen.program p).exec ⟨options, sourceName, source⟩ .start = r at hends
  generalize (Gen.program p').exec ⟨options, sourceName, source'⟩ .start = r' at hends
  cases hends with
  | ok hchunk _ =>
    cases hchunk
    exact .text _
  | error hcause _ =>
    obtain ⟨hunplaced, hmessage⟩ := Fault.failure_unplaced hcause source source'
    exact .failure hunplaced hmessage

/-- Two sources whose programs are printed alike are read as one program, but for the places. -/
theorem bare_eq_of_render_eq {source source' : String} {p p' : Program}
    (hp : parse source = .ok p) (hp' : parse source' = .ok p')
    (h : String.join (p.map Call.render) = String.join (p'.map Call.render)) :
    Program.bare p = Program.bare p' := by
  obtain ⟨q, hq, hbare⟩ := parse_of_layout (wellFormed_of_parse hp) (ProgramLayout.render p)
  obtain ⟨q', hq', hbare'⟩ := parse_of_layout (wellFormed_of_parse hp') (ProgramLayout.render p')
  rw [h, hq'] at hq
  cases hq
  exact hbare.symm.trans hbare'

theorem exists_parse_of_printed (source text : String)
    (h : (parse source).toOption.map (fun p => String.join (p.map Call.render)) = some text) :
    ∃ p, parse source = .ok p ∧ String.join (p.map Call.render) = text := by
  cases hp : parse source with
  | error f =>
    rw [hp] at h
    cases h
  | ok p =>
    rw [hp] at h
    exact ⟨p, rfl, Option.some.inj h⟩

/-- Compilation does not depend on layout. Two sources that are read as one program, but for the
places in it, compile to one text or fail for one reason, and so do all ways of writing a program
down. -/
theorem compile_ignores_layout :
    (∀ source source' p p', parse source = .ok p → parse source' = .ok p' →
      Program.bare p = Program.bare p' → ∀ sourceName options,
      Alike (compile source sourceName options).1 (compile source' sourceName options).1) ∧
    (∀ p cs cs', Program.WellFormed p → ProgramLayout p cs → ProgramLayout p cs' →
      ∀ sourceName options, Alike (compile (.ofList cs) sourceName options).1
        (compile (.ofList cs') sourceName options).1) := by
  refine ⟨fun _ _ _ _ => alike_of_bare, fun p cs cs' hw hcs hcs' sourceName options => ?_⟩
  obtain ⟨q, hq, hbare⟩ := parse_of_layout hw hcs
  obtain ⟨q', hq', hbare'⟩ := parse_of_layout hw hcs'
  exact alike_of_bare hq hq' (hbare.trans hbare'.symm) sourceName options

/-- A thread with a comment and line ends in it; both ways of writing it are refused for the unbound
name inside the call that the thread stands for. -/
theorem compile_ignores_layout_thread :
    ∃ p p', parse "(->> 1 (+ y))" = .ok p ∧ parse "(->>\t1 ;c\r\n(+,y\n)) ;" = .ok p' ∧
      Program.bare p = Program.bare p' ∧
      ∀ sourceName options, Alike (compile "(->> 1 (+ y))" sourceName options).1
        (compile "(->>\t1 ;c\r\n(+,y\n)) ;" sourceName options).1 := by
  obtain ⟨p, hp, hprinted⟩ :=
    exists_parse_of_printed "(->> 1 (+ y))" "(->> 1 (+ y))" (by decide +kernel)
  obtain ⟨p', hp', hprinted'⟩ :=
    exists_parse_of_printed "(->>\t1 ;c\r\n(+,y\n)) ;" "(->> 1 (+ y))" (by decide +kernel)
  have hbare := bare_eq_of_render_eq hp hp' (hprinted.trans hprinted'.symm)
  exact ⟨p, p', hp, hp', hbare, compile_ignores_layout.1 _ _ _ _ hp hp' hbare⟩

end LispLua
