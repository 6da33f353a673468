import LispLua.Proofs.Pairing.Term
import LispLua.Proofs.Reading.Location

/-!
# Where faults point

A fault of a generation has a cause and a span. Both come from what is lowered: a term that sugar
stands for takes its spans over from the terms it is made of. So a failed compilation always points
at a node of the program, or else at the point where reading stopped.

Limits are about one run. It is compared with itself, so nothing about the forms is said again here.
-/

namespace LispLua

namespace Gen

/-- The causes a program can be refused for and the spans it is refused at, and the faults of runs
that keep to those. -/
structure Limits where
  cause : Cause → Prop
  span : Span → Prop
  /-- The faults of a run that took the steps. -/
  fault : Job → List Step → Fault → Prop
  ordinary {c : Cause} : c.isOrdinary = true → cause c
  refuse {j : Job} {c : Cause} {sp : Span} : cause c → span sp → fault j [] ⟨c, sp⟩
  append {j : Job} {f : Fault} {v : List Step} (u : List Step) : fault j v f → fault j (u ++ v) f
  layer {j : Job} {f : Fault} {u : List Step} (s : Session) : fault j u f → fault j [.layer s u] f
  call {j : Job} {f : Fault} {u : List Step} (c : Call) (s : Session) : fault j u f →
    fault j [.call c s u] f

namespace Limits

/-- A run and the same run once more. -/
def pairing (l : Limits) : Pairing where
  name _ := True
  cause := l.cause
  span sp sp' := sp' = sp ∧ l.span sp
  job j j' := j' = j
  session s s' := s' = s
  fault j u f f' := f' = f ∧ l.fault j u f
  implied _ _ := trivial
  ordinary := l.ordinary
  options_eq := @Pairing.options_of_eq
  sourceName_eq := @Pairing.sourceName_of_eq
  find?_eq h _ := by rw [h]
  getRoot?_eq h _ := by rw [h]
  isPure_eq h := by rw [h]
  package_eq h := by rw [h]
  moduleName_eq h := by rw [h]
  session_enter _ h := by rw [h]
  session_leave h := by rw [h]
  session_set _ h _ := by rw [h]
  session_setRoot _ h _ := by rw [h]
  session_rename _ _ h := by rw [h]
  session_log _ h := by rw [h]
  session_warn _ hj hsp h := by rw [hj, hsp.1, h]
  fault_refuse hc hsp := ⟨by rw [hsp.1], l.refuse hc hsp.2⟩
  fault_append u h := ⟨h.1, l.append u h.2⟩
  fault_layer s h := ⟨h.1, l.layer s h.2⟩
  fault_call c s h := ⟨h.1, l.call c s h.2⟩

/-- What a program fails with is within limits that its terms and its calls keep to. -/
theorem fault_of_program {l : Limits} (ha : l.pairing.Accounts term) {P : Term → Prop}
    (hP : l.pairing.Hereditary P) {p : Program} (hp : ∀ c ∈ p, P c.term) {job : Job}
    {s s' : Session} {f : Fault} (h : (program p).exec job s = (.error f, s')) :
    l.fault job ((program p).steps job s) f := by
  have hterms : List.Forall₂ (fun c c' => l.pairing.Terms c.term c'.term) p p :=
    List.forall₂_same.2 fun c hc => hP.terms (hp c hc)
  have hends := Pairing.runs_program ha hterms (rfl : job = job) (rfl : s = s)
  rw [Pairing.RunsFrom, h] at hends
  cases hends with
  | error hf _ => exact hf.2

end Limits

/-! ### Places in a program -/

/-- The places at hand are those of the nodes of a program. -/
def placeLimits (p : Program) : Limits where
  cause _ := True
  span sp := ∃ n : Node, n.OccursIn p ∧ sp = n.span
  fault _ _ f := ∃ n : Node, n.OccursIn p ∧ f.span = n.span
  ordinary _ := trivial
  refuse _ hsp := hsp
  append _ h := h
  layer _ h := h
  call _ _ h := h

/-- Every node of a term stands in a program. -/
def StandsIn (p : Program) (t : Term) : Prop :=
  ∀ n : Node, n.Within (.term t) → n.OccursIn p

theorem StandsIn.part {p : Program} {t u : Term} (h : StandsIn p t)
    (hu : Node.term u ∈ (Node.term t).children) : StandsIn p u :=
  fun n hn => h n (.part hu hn)

theorem hereditary_standsIn (p : Program) :
    (placeLimits p).pairing.Hereditary (StandsIn p) where
  span h := ⟨rfl, _, h _ .self, rfl⟩
  name _ := trivial
  path {q} h := by
    refine ⟨⟨⟨rfl, rfl, .token q.root, ?_, rfl⟩, trivial⟩, ?_, rfl, _, h _ .self, rfl⟩
    · exact h _ (.part List.mem_cons_self .self)
    · refine List.forall₂_same.2 fun s hs => ⟨rfl, rfl, rfl, .segment s, ?_, rfl⟩
      exact h _ (.part (List.mem_cons_of_mem _ (List.mem_map_of_mem hs)) .self)
  items h _ ht := h.part (List.mem_map_of_mem ht)
  entries h _ ht := h.part (List.mem_map_of_mem ht)
  target h := h.part (List.mem_map_of_mem List.mem_cons_self)
  args h _ ht := h.part (List.mem_map_of_mem (List.mem_cons_of_mem _ ht))
  refusal _ _ _ := trivial

end Gen

/-! ### Compilation -/

/-- Whether a failure is the fault of a program, and not of an option, a file or a run. -/
def Failure.isOfProgram : Failure → Bool
  | unreadable .. | malformed .. | unbound .. | impure .. | mistyped .. | misused ..
  | internal .. => true
  | config _ | file .. | execution _ | compilation .. => false

theorem Fault.isOfProgram_failure (f : Fault) (code : String) :
    (f.failure code).isOfProgram = true ∧ (f.failure code).span? = some f.span := by
  simp only [Fault.failure]
  cases f.cause.category <;> simp only [Failure.isOfProgram, Failure.span?, and_self]

/-- A compilation fails where reading does, or else where generation does. -/
theorem fault_of_compile {source sourceName : String} {options : Options} {f : Failure}
    (h : (compile source sourceName options).1 = .error f) :
    ∃ fault : Fault, f = .compilation sourceName source (fault.failure source) ∧
      (parse source = .error fault ∨ ∃ p s, parse source = .ok p ∧
        (Gen.program p).exec ⟨options, sourceName, source⟩ .start = (.error fault, s)) := by
  simp only [compile] at h
  split at h
  · rename_i fault hparse
    cases h
    exact ⟨fault, rfl, .inl hparse⟩
  · rename_i p hparse
    rcases hexec : (Gen.program p).exec ⟨options, sourceName, source⟩ .start with ⟨fault | chunk, s⟩
    · rw [hexec] at h
      cases h
      exact ⟨fault, rfl, .inr ⟨p, s, hparse, hexec⟩⟩
    · rw [hexec] at h
      cases h

/-- A failed compilation is wrapped once, with its source, around a fault of the program, and points
at the place where reading stopped or at a node of the program. -/
theorem compile_failure_points_into_source {source sourceName : String} {options : Options}
    {f : Failure} (h : (compile source sourceName options).1 = .error f) :
    ∃ cause span, f = .compilation sourceName source cause ∧ cause.isOfProgram = true ∧
      f.span? = some span ∧
      ((∃ fault, parse source = .error fault ∧ span = fault.span) ∨
        ∃ p, ∃ n : Node, parse source = .ok p ∧ n.OccursIn p ∧ span = n.span) := by
  obtain ⟨fault, rfl, hfault⟩ := fault_of_compile h
  obtain ⟨hkind, hspan⟩ := fault.isOfProgram_failure source
  refine ⟨fault.failure source, fault.span, rfl, hkind, hspan, ?_⟩
  rcases hfault with hparse | ⟨p, s, hparse, hexec⟩
  · exact .inl ⟨fault, hparse, rfl⟩
  · have haccounts := (Gen.placeLimits p).pairing.accounts_of_cause (fun _ => trivial) Gen.term
    obtain ⟨n, hn, hplace⟩ := Gen.Limits.fault_of_program haccounts (Gen.hereditary_standsIn p)
      (fun c hc n hn => ⟨c, hc, hn⟩) hexec
    exact .inr ⟨p, n, hparse, hn, hplace⟩

/-- An unbound name, of which two pieces of sugar have made copies. -/
theorem compile_failure_points_into_source_sugar :
    (compile "(def x\n (xor 1 (:k y)))" "a.lisp" .library).1 =
      .error (.compilation "a.lisp" "(def x\n (xor 1 (:k y)))"
        (.unbound "y" (some ⟨⟨19, 2, 13⟩, ⟨20, 2, 14⟩⟩))) ∧
    ∃ p, ∃ n : Node, parse "(def x\n (xor 1 (:k y)))" = .ok p ∧ n.OccursIn p ∧
      n.span = ⟨⟨19, 2, 13⟩, ⟨20, 2, 14⟩⟩ := by
  have hcompile : (compile "(def x\n (xor 1 (:k y)))" "a.lisp" .library).1 =
      .error (.compilation "a.lisp" "(def x\n (xor 1 (:k y)))"
        (.unbound "y" (some ⟨⟨19, 2, 13⟩, ⟨20, 2, 14⟩⟩))) := by
    decide +kernel
  have hread : (parse "(def x\n (xor 1 (:k y)))").toOption.isSome = true := by decide +kernel
  obtain ⟨cause, span, -, -, hspan, hplace⟩ := compile_failure_points_into_source hcompile
  cases hspan
  rcases hplace with ⟨fault, hparse, -⟩ | ⟨p, n, hparse, hn, hplace⟩
  · rw [hparse] at hread
    cases hread
  · exact ⟨hcompile, p, n, hparse, hn, hplace.symm⟩

end LispLua
