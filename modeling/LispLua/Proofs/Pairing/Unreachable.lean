import LispLua.Proofs.Pairing.Blame
import LispLua.Proofs.Pairing.Explicit
import LispLua.Proofs.Reading.LineTable
import LispLua.Proofs.Reading.WellFormed

/-!
# What cannot happen in a compilation

Whatever is done in the arms for what cannot happen, a compilation comes out the same. Only one
fault is left that is not the program's: a special form that no function stands for is an argument
of a call.

Two invariants meet here. That calls are made through what can be called holds of what is read, and
the terms that sugar stands for inherit it. That arguments are in range is checked by the forms.
-/

namespace LispLua

/-! ### Targets -/

theorem Term.WellFormed.refusal?_eq_none {target : Term} {args : List Term} {span : Span}
    (h : (Term.call target args span).WellFormed) : target.refusal? = none := by
  cases h with
  | call htarget hwell _ =>
    cases hwell with
    | wildcard htext => rw [refusal?, if_pos htext]
    | symbol _ _ | number _ | name _ | path _ => rfl
    | _ => simp [IsTarget, shape] at htarget

namespace Gen

/-! ### Faults of well-formed programs -/

/-- An argument of a call refers to a special form that no function stands for. -/
def Unsupplied (job : Job) (steps : List Step) (f : Fault) : Prop :=
  ∃ c s inner t, (Step.call c s inner).Occurs steps ∧ Unvalued term job s c.args t ∧
    f = ⟨.noFunctionFor t.text, t.span⟩

theorem Unsupplied.mono {job : Job} {u v : List Step} {f : Fault} (h : Unsupplied job u f)
    (hsub : ∀ step, Step.Occurs step u → Step.Occurs step v) : Unsupplied job v f := by
  obtain ⟨c, s, inner, t, hstep, ht⟩ := h
  exact ⟨c, s, inner, t, hsub _ hstep, ht⟩

/-- Forms have ordinary faults, and calls can have arguments without a value. -/
def callLimits : Limits where
  cause c := c.isOrdinary = true
  span _ := True
  fault job u f := f.cause.isOrdinary = true ∨ Unsupplied job u f
  ordinary h := h
  refuse h _ := .inl h
  append _ h := h.imp_right (·.mono fun _ hstep => Step.occurs_append.2 (.inr hstep))
  layer _ h := h.imp_right (·.mono fun _ hstep => Step.occurs_layer.2 (.inr hstep))
  call _ _ h := h.imp_right (·.mono fun _ hstep => Step.occurs_call.2 (.inr hstep))

theorem accounts_callLimits : callLimits.pairing.Accounts term :=
  fun _ c s t _ u h hsp =>
    ⟨by rw [hsp.1], .inr ⟨c, s, u, t, Step.occurs_call.2 (.inl rfl), h, rfl⟩⟩

theorem hereditary_wellFormed : callLimits.pairing.Hereditary Term.WellFormed where
  span _ := ⟨rfl, trivial⟩
  name _ := trivial
  path _ :=
    ⟨⟨⟨rfl, rfl, trivial⟩, trivial⟩, List.forall₂_same.2 fun _ _ => ⟨rfl, rfl, rfl, trivial⟩, rfl,
      trivial⟩
  items h := by
    cases h with
    | list h => exact h
  entries h := by
    cases h with
    | table h => exact h
  target h := by
    cases h with
    | call _ h _ => exact h
  args h := by
    cases h with
    | call _ _ h => exact h
  refusal h c hc := by
    rw [h.refusal?_eq_none] at hc
    cases hc

/-! ### The arms are not reached -/

/-- Corresponding calls are made through what can be called. -/
theorem refusal?_eq_none_of_terms {c : Call} {t : Term} (h : callLimits.pairing.Terms t c.term) :
    c.target.refusal? = none := by
  obtain ⟨target, args, span⟩ := c
  cases h with
  | @call target' _ _ _ _ _ htarget hrefusal _ _ =>
    rw [htarget.refusal?_eq]
    cases hcause : target'.refusal? with
    | none => rfl
    | some cause =>
      have hordinary : cause.isOrdinary = true := hrefusal cause hcause
      rw [Term.isOrdinary_of_refusal? hcause] at hordinary
      cases hordinary

/-- The generator with arms lowers a term as the generator does, at any depth from its rank on. -/
theorem runs_explicit_within (crash : Crash) {depth : Nat} {t t' : Term} (hrank : t.rank ≤ depth)
    (h : callLimits.pairing.Terms t t') :
    callLimits.pairing.Runs Eq (term t) (Explicit.within crash depth t') := by
  induction depth generalizing t t' with
  | zero => exact absurd t.rank_pos (by omega)
  | succ depth ih =>
    have hlowers : callLimits.pairing.Lowers term (Explicit.within crash depth) t.rank :=
      fun u u' hu => ih (by have := hu.rank; omega) hu.terms
    have hstep : Explicit.step crash (Explicit.within crash depth) t' =
        step (Explicit.within crash depth) t' :=
      Explicit.step_eq fun c hc => refusal?_eq_none_of_terms (hc ▸ h)
    rw [term_eq_step, Explicit.within, hstep]
    exact hlowers.step accounts_callLimits h rfl

theorem runs_explicit_program (crash : Crash) {p : Program} (hp : p.WellFormed) :
    callLimits.pairing.Runs Eq (program p) (Explicit.program crash p) := by
  have hsame : List.Forall₂ (fun c c' => c' = c ∧ c.term.WellFormed) p p :=
    List.forall₂_same.2 fun c hc => ⟨rfl, hp c hc⟩
  have hterms : callLimits.pairing.Runs Eq (statements p)
      (p.mapM fun c => Explicit.term crash c.term) := by
    refine .mapEqM hsame ?_
    rintro c _ ⟨rfl, hc⟩
    exact runs_explicit_within crash le_rfl (hereditary_wellFormed.terms hc)
  exact Pairing.runs_read.bind fun _ _ hj =>
    (Pairing.runs_publish hj).seq fun _ => hterms.seq Pairing.runs_chunk

/-- Runs that are compared with themselves end alike. -/
theorem Limits.exec_eq {α : Type} {l : Limits} {g h : Gen α} (hruns : l.pairing.Runs Eq g h)
    (job : Job) (s : Session) : h.exec job s = g.exec job s := by
  have hends := hruns (rfl : job = job) (rfl : s = s)
  rw [Pairing.RunsFrom] at hends
  generalize g.exec job s = r, h.exec job s = r' at hends
  cases hends with
  | ok hvalue hs => rw [hvalue, hs]
  | error hf hs => rw [hf.1, hs]

/-- A compilation does not depend on what is done where something happens that cannot. -/
theorem Explicit.compile_eq (crash : Crash) (source sourceName : String) (options : Options) :
    Explicit.compile crash source sourceName options =
      LispLua.compile source sourceName options := by
  simp only [Explicit.compile, LispLua.compile]
  cases hparse : parse source with
  | error f => rfl
  | ok p =>
    have hruns := runs_explicit_program crash (wellFormed_of_parse hparse)
    simp only [Limits.exec_eq hruns]

end Gen

/-! ### Compilation -/

theorem Cause.category_ne_internal {c : Cause} (h : c.isOrdinary = true) :
    c.category ≠ .internal := by
  cases c with
  | wildcardText _ | badTarget _ | noFunctionFor _ | unfinished => cases h
  | _ => exact nofun

theorem isOrdinary_of_parse {text : String} {f : Fault} (h : parse text = .error f) :
    f.cause.isOrdinary = true := by
  simp only [parse] at h
  split at h
  · cases h
  · cases h
    dsimp only
    split <;> rfl

theorem Fault.internal_of_failure {f : Fault} {code message : String} {report : Option String}
    {span : Option Span} (h : (f.failure code).cause = .internal message report span) :
    f.cause.category = .internal ∧ message = f.cause.message ∧ span = some f.span := by
  simp only [Fault.failure] at h
  cases hcategory : f.cause.category with
  | internal =>
    rw [hcategory] at h
    cases h
    exact ⟨rfl, rfl, rfl⟩
  | _ =>
    rw [hcategory] at h
    cases h

/-- A failed compilation that is not the program's fault has met a special form among arguments. -/
theorem unsupplied_of_internal {source sourceName message : String} {options : Options}
    {f : Failure} {report : Option String} {span : Option Span}
    (h : (compile source sourceName options).1 = .error f)
    (hf : f.cause = .internal message report span) :
    ∃ p fault, parse source = .ok p ∧ message = fault.cause.message ∧ span = some fault.span ∧
      Gen.Unsupplied ⟨options, sourceName, source⟩
        ((Gen.program p).steps ⟨options, sourceName, source⟩ .start) fault := by
  obtain ⟨fault, rfl, hfault⟩ := fault_of_compile h
  obtain ⟨hcategory, hmessage, hspan⟩ := Fault.internal_of_failure hf
  rcases hfault with hparse | ⟨p, s, hparse, hexec⟩
  · exact absurd hcategory (Cause.category_ne_internal (isOrdinary_of_parse hparse))
  · have hlimits := Gen.Limits.fault_of_program Gen.accounts_callLimits Gen.hereditary_wellFormed
      (wellFormed_of_parse hparse) hexec
    rcases hlimits with hordinary | hunsupplied
    · exact absurd hcategory (Cause.category_ne_internal hordinary)
    · exact ⟨p, fault, hparse, hmessage, hspan, hunsupplied⟩

/-- Whatever is done in the arms for what cannot happen makes no difference to a compilation, every
position of the text can be looked up in its table of lines, and a failure that is not the program's
fault is about a name among the arguments of a call, which stands for a special form at that point and
has no function to take its place. -/
theorem compile_reaches_no_fault_arm (source sourceName : String) (options : Options) :
    (∀ crash : Gen.Crash, Gen.Explicit.compile crash source sourceName options =
      compile source sourceName options) ∧
    (∀ search, Searches search → ∀ before rest, source.toList = before ++ rest →
      Position.lookup? search source rest = some (.behind before)) ∧
    ∀ f message report span, (compile source sourceName options).1 = .error f →
      f.cause = .internal message report span →
      ∃ p c s inner t, parse source = .ok p ∧
        (Step.call c s inner).Occurs
          ((Gen.program p).steps ⟨options, sourceName, source⟩ .start) ∧
        Gen.Unvalued Gen.term ⟨options, sourceName, source⟩ s c.args t ∧
        message = (Cause.noFunctionFor t.text).message ∧ span = some t.span := by
  refine ⟨fun crash => Gen.Explicit.compile_eq crash source sourceName options,
    fun search hsearch before rest h => Position.lookup?_eq_some hsearch h, ?_⟩
  intro f message report span h hf
  obtain ⟨p, fault, hparse, rfl, rfl, c, s, inner, t, hstep, ht, rfl⟩ := unsupplied_of_internal h hf
  exact ⟨p, c, s, inner, t, hparse, hstep, ht, rfl, rfl⟩

/-- Where a failure lies that is not the program's fault. -/
def Failure.internalSpan? (f : Failure) : Option Span :=
  match f.cause with
  | .internal _ _ span => span
  | _ => none

/-- The form `let` as an argument, in the second line. -/
theorem compile_reaches_no_fault_arm_let :
    Gen.Explicit.compile (fun _ _ => Gen.refuse .unfinished .none) "(str 1\n let)" "a.lisp" .library =
      compile "(str 1\n let)" "a.lisp" .library ∧
    Position.lookup? scan "(str 1\n let)" "let)".toList = some ⟨8, 2, 2⟩ ∧
    (compile "(str 1\n let)" "a.lisp" .library).1.mapError Failure.internalSpan? =
      .error (some ⟨⟨8, 2, 2⟩, ⟨11, 2, 5⟩⟩) ∧
    ∃ p c s inner t, parse "(str 1\n let)" = .ok p ∧
      (Step.call c s inner).Occurs
        ((Gen.program p).steps ⟨.library, "a.lisp", "(str 1\n let)"⟩ .start) ∧
      Gen.Unvalued Gen.term ⟨.library, "a.lisp", "(str 1\n let)"⟩ s c.args t ∧
      t.span = ⟨⟨8, 2, 2⟩, ⟨11, 2, 5⟩⟩ := by
  obtain ⟨hexplicit, hlookup, hinternal⟩ :=
    compile_reaches_no_fault_arm "(str 1\n let)" "a.lisp" .library
  have hspan : (compile "(str 1\n let)" "a.lisp" .library).1.mapError Failure.internalSpan? =
      .error (some ⟨⟨8, 2, 2⟩, ⟨11, 2, 5⟩⟩) := by
    decide +kernel
  refine ⟨hexplicit _, ?_, hspan, ?_⟩
  · exact hlookup scan searches_scan "(str 1\n ".toList "let)".toList (by decide)
  · cases hcompile : (compile "(str 1\n let)" "a.lisp" .library).1 with
    | ok text =>
      rw [hcompile] at hspan
      cases hspan
    | error f =>
      rw [hcompile] at hspan
      have hf : f.internalSpan? = some ⟨⟨8, 2, 2⟩, ⟨11, 2, 5⟩⟩ := Except.error.inj hspan
      rw [Failure.internalSpan?] at hf
      split at hf
      · rename_i hcause
        obtain ⟨p, c, s, inner, t, hparse, hstep, ht, -, ht'⟩ := hinternal f _ _ _ hcompile hcause
        exact ⟨p, c, s, inner, t, hparse, hstep, ht, Option.some.inj (ht'.symm.trans hf)⟩
      · cases hf

end LispLua
