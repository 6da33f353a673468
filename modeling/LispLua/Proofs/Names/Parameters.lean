import LispLua.Proofs.Names.Patterns

/-!
# Formal arguments

Formal arguments are names, and the last one may stand behind `&` and take all arguments that are
left. A list of terms is either of this form or has a first flaw, at which it is refused.
-/

namespace LispLua

open Lua

/-! ### The form of formal arguments -/

/-- Formal arguments: names other than `&`, and then perhaps `&` and the name of the tail. That name
may be any. -/
inductive Signature : List Term → List Token → Option Token → Prop
  | plain {fixed : List Token} (hfixed : ∀ t ∈ fixed, t.text ≠ "&") :
    Signature (fixed.map .name) fixed none
  | variadic {fixed : List Token} (hfixed : ∀ t ∈ fixed, t.text ≠ "&") {mark : Token}
      (hmark : mark.text = "&") (tail : Token) :
    Signature (fixed.map .name ++ [.name mark, .name tail]) fixed (some tail)

/-- Terms that are no formal arguments, and the first reason why: a term that is no name, with at most
the name of the tail between `&` and it, a name behind that of the tail, or a `&` at the end. -/
inductive Flawed : List Term → Fault → Prop
  | parameterName {fixed : List Token} (hfixed : ∀ t ∈ fixed, t.text ≠ "&") {t : Term}
      (ht : t.shape ≠ .name) (back : List Term) :
    Flawed (fixed.map .name ++ t :: back) ⟨.parameterName, t.span⟩
  | tailName {fixed : List Token} (hfixed : ∀ t ∈ fixed, t.text ≠ "&") {mark : Token}
      (hmark : mark.text = "&") (tail? : Option Token) {t : Term} (ht : t.shape ≠ .name)
      (back : List Term) :
    Flawed (fixed.map .name ++ .name mark :: (tail?.toList.map .name ++ t :: back))
      ⟨.parameterName, t.span⟩
  | afterTail {fixed : List Token} (hfixed : ∀ t ∈ fixed, t.text ≠ "&") {mark : Token}
      (hmark : mark.text = "&") (tail t : Token) (back : List Term) :
    Flawed (fixed.map .name ++ .name mark :: .name tail :: .name t :: back) ⟨.afterTail, t.span⟩
  | danglingTail {fixed : List Token} (hfixed : ∀ t ∈ fixed, t.text ≠ "&") {mark : Token}
      (hmark : mark.text = "&") :
    Flawed (fixed.map .name ++ [.name mark]) ⟨.danglingTail, mark.span⟩

section

variable {formals : List Term} {fixed : List Token} {tail? : Option Token} {x : Token} {f : Fault}

theorem Signature.cons (hx : x.text ≠ "&") (h : Signature formals fixed tail?) :
    Signature (.name x :: formals) (x :: fixed) tail? := by
  cases h with
  | plain hfixed => exact .plain (List.forall_mem_cons.2 ⟨hx, hfixed⟩)
  | variadic hfixed hmark tail => exact .variadic (List.forall_mem_cons.2 ⟨hx, hfixed⟩) hmark tail

theorem Flawed.cons (hx : x.text ≠ "&") (h : Flawed formals f) : Flawed (.name x :: formals) f := by
  cases h with
  | parameterName hfixed ht back =>
    exact .parameterName (List.forall_mem_cons.2 ⟨hx, hfixed⟩) ht back
  | tailName hfixed hmark tail? ht back =>
    exact .tailName (List.forall_mem_cons.2 ⟨hx, hfixed⟩) hmark tail? ht back
  | afterTail hfixed hmark tail t back =>
    exact .afterTail (List.forall_mem_cons.2 ⟨hx, hfixed⟩) hmark tail t back
  | danglingTail hfixed hmark => exact .danglingTail (List.forall_mem_cons.2 ⟨hx, hfixed⟩) hmark

end

theorem Term.eq_name_or_ne (t : Term) : (∃ token, t = .name token) ∨ t.shape ≠ .name := by
  cases t <;> simp [shape]

/-- What may stand behind `&`. -/
theorem signature_or_flawed_mark {mark : Token} (hmark : mark.text = "&") (ts : List Term) :
    (∃ fixed tail?, Signature (.name mark :: ts) fixed tail?) ∨ ∃ f, Flawed (.name mark :: ts) f := by
  have hnone : ∀ t ∈ ([] : List Token), t.text ≠ "&" := by simp
  rcases ts with _ | ⟨t, ts⟩
  · exact .inr ⟨_, .danglingTail hnone hmark⟩
  obtain ⟨tail, rfl⟩ | ht := t.eq_name_or_ne
  · rcases ts with _ | ⟨u, ts⟩
    · exact .inl ⟨_, _, .variadic hnone hmark tail⟩
    obtain ⟨u, rfl⟩ | hu := u.eq_name_or_ne
    · exact .inr ⟨_, .afterTail hnone hmark tail u ts⟩
    · exact .inr ⟨_, .tailName hnone hmark (some tail) hu ts⟩
  · exact .inr ⟨_, .tailName hnone hmark none ht ts⟩

/-- Terms are formal arguments, or they have a first flaw. -/
theorem signature_or_flawed (formals : List Term) :
    (∃ fixed tail?, Signature formals fixed tail?) ∨ ∃ f, Flawed formals f := by
  induction formals with
  | nil => exact .inl ⟨[], none, @Signature.plain [] (by simp)⟩
  | cons t ts ih =>
    obtain ⟨x, rfl⟩ | ht := t.eq_name_or_ne
    · by_cases hx : x.text = "&"
      · exact signature_or_flawed_mark hx ts
      · rcases ih with ⟨fixed, tail?, h⟩ | ⟨f, h⟩
        · exact .inl ⟨x :: fixed, tail?, h.cons hx⟩
        · exact .inr ⟨f, h.cons hx⟩
    · exact .inr ⟨_, @Flawed.parameterName [] (by simp) t ht ts⟩

/-! ### Where the mark stands -/

theorem Term.isName_name {t : Token} {n : String} : (name t).isName n = false ↔ t.text ≠ n := by
  rw [isName, beq_eq_false_iff_ne]

theorem Term.findIdx_mark {fixed : List Token} (hfixed : ∀ t ∈ fixed, t.text ≠ "&") {mark : Token}
    (hmark : mark.text = "&") (ts : List Term) :
    (fixed.map name ++ name mark :: ts).findIdx (isName "&") = fixed.length := by
  induction fixed with
  | nil => simp [List.findIdx_cons, isName, hmark]
  | cons t fixed ih =>
    obtain ⟨ht, hrest⟩ := List.forall_mem_cons.1 hfixed
    rw [List.map_cons, List.cons_append, List.findIdx_cons, isName_name.2 ht, ih hrest,
      List.length_cons]
    rfl

/-- The form of formal arguments, by the place of the first `&`. -/
theorem exists_signature_iff {formals : List Term} :
    (∃ fixed tail?, Signature formals fixed tail?) ↔
      (∀ t ∈ formals, t.shape = .name) ∧ ((∀ t ∈ formals, t.isName "&" = false) ∨
        formals.findIdx (Term.isName "&") + 2 = formals.length) := by
  constructor
  · rintro ⟨fixed, tail?, h⟩
    cases h with
    | plain hfixed =>
      refine ⟨by simp [Term.shape], .inl ?_⟩
      exact List.forall_mem_map.2 fun t ht => Term.isName_name.2 (hfixed t ht)
    | variadic hfixed hmark tail =>
      refine ⟨by simp [Term.shape, or_imp, forall_and], .inr ?_⟩
      rw [Term.findIdx_mark hfixed hmark]
      simp
  · rintro ⟨hnames, hplace⟩
    refine (signature_or_flawed formals).resolve_right ?_
    -- Behind a first `&`, the list is either too short or too long.
    have hbehind {fixed : List Token} (hfixed : ∀ t ∈ fixed, t.text ≠ "&") {mark : Token}
        (hmark : mark.text = "&") (ts : List Term)
        (heq : formals = fixed.map .name ++ .name mark :: ts) : ts.length = 1 := by
      subst heq
      have hmem : Term.name mark ∈ fixed.map .name ++ .name mark :: ts := by simp
      have hfirst := hplace.resolve_left fun hnone => Term.isName_name.1 (hnone _ hmem) hmark
      rw [Term.findIdx_mark hfixed hmark] at hfirst
      simpa using hfirst
    rintro ⟨f, h⟩
    cases h with
    | parameterName hfixed ht back => exact ht (hnames _ (by simp))
    | tailName hfixed hmark tail? ht back => exact ht (hnames _ (by simp))
    | afterTail hfixed hmark tail t back => simpa using hbehind hfixed hmark _ rfl
    | danglingTail hfixed hmark => simpa using hbehind hfixed hmark _ rfl

/-! ### Binding -/

namespace Gen

variable {job : Job} {s : Session}

theorem exec_registerLocal (t : Token) :
    (registerLocal t).exec job s = (.ok (mangle t.text), s.withLocal t) := rfl

/-- The names in front of `&` are bound one after the other. -/
theorem exec_parameters_append {fixed : List Token} (hfixed : ∀ t ∈ fixed, t.text ≠ "&")
    {ts : List Term} {r : Except Fault (List String × Option String)} {s' : Session}
    (h : (parameters ts).exec job (s.withLocals fixed) = (r, s')) :
    (parameters (fixed.map .name ++ ts)).exec job s =
      (r.map fun q => (fixed.map (fun t => mangle t.text) ++ q.1, q.2), s') := by
  induction fixed generalizing s with
  | nil => cases r <;> exact h
  | cons t fixed ih =>
    obtain ⟨ht, hrest⟩ := List.forall_mem_cons.1 hfixed
    rw [List.map_cons, List.cons_append, parameters, if_neg ht, exec_bind, exec_registerLocal]
    dsimp only
    rw [exec_bind, ih hrest h]
    cases r <;> rfl

theorem exec_parameters_mark {mark : Token} (hmark : mark.text = "&") {ts : List Term}
    {r : Except Fault String} {s' : Session}
    (h : (restParameter mark.span ts).exec job s = (r, s')) :
    (parameters (.name mark :: ts)).exec job s = (r.map fun name => ([], some name), s') := by
  rw [parameters, if_pos hmark, exec_bind, h]
  cases r <;> rfl

theorem exec_parameters_refused {t : Term} (ht : t.shape ≠ .name) (back : List Term) :
    (parameters (t :: back)).exec job s = (.error ⟨.parameterName, t.span⟩, s) := by
  cases t <;> first | rfl | exact absurd rfl ht

theorem exec_restParameter_refused (ampersand : Span) (tail? : Option Token) {t : Term}
    (ht : t.shape ≠ .name) (back : List Term) :
    (restParameter ampersand (tail?.toList.map .name ++ t :: back)).exec job s =
      (.error ⟨.parameterName, t.span⟩, s) := by
  cases tail? <;> cases t <;> first | rfl | exact absurd rfl ht

end Gen

open Gen

variable {formals : List Term} {job : Job} {s : Session}

/-- Formal arguments are bound from left to right. -/
theorem Signature.exec_parameters {fixed : List Token} {tail? : Option Token}
    (h : Signature formals fixed tail?) :
    (parameters formals).exec job s =
      (.ok (fixed.map fun t => mangle t.text, tail?.map fun t => mangle t.text),
        s.withLocals (fixed ++ tail?.toList)) := by
  cases h with
  | plain hfixed =>
    have hnil : (parameters []).exec job (s.withLocals fixed) =
      (.ok ([], none), s.withLocals fixed) := rfl
    simpa [Except.map] using exec_parameters_append hfixed hnil
  | @variadic _ hfixed mark hmark tail =>
    have htail : (restParameter mark.span [.name tail]).exec job (s.withLocals fixed) =
      (.ok (mangle tail.text), (s.withLocals fixed).withLocal tail) := rfl
    rw [exec_parameters_append hfixed (exec_parameters_mark hmark htail), Session.withLocals,
      Session.withLocals, List.foldl_append]
    simp [Except.map]

/-- Other terms are refused at their first flaw. -/
theorem Flawed.exec_parameters {f : Fault} (h : Flawed formals f) :
    ((parameters formals).exec job s).1 = .error f := by
  cases h with
  | parameterName hfixed ht back =>
    rw [exec_parameters_append hfixed (exec_parameters_refused ht back)]
    rfl
  | tailName hfixed hmark tail? ht back =>
    rw [exec_parameters_append hfixed
      (exec_parameters_mark hmark (exec_restParameter_refused _ tail? ht back))]
    rfl
  | afterTail hfixed hmark tail t back =>
    rw [exec_parameters_append hfixed (exec_parameters_mark hmark rfl)]
    rfl
  | danglingTail hfixed hmark =>
    rw [exec_parameters_append hfixed (exec_parameters_mark hmark rfl)]
    rfl

namespace Gen

theorem parameters_eq_error_iff {f : Fault} :
    ((parameters formals).exec job s).1 = .error f ↔ Flawed formals f := by
  refine ⟨fun h => ?_, fun h => h.exec_parameters⟩
  rcases signature_or_flawed formals with ⟨fixed, tail?, hsignature⟩ | ⟨f', hf⟩
  · rw [hsignature.exec_parameters] at h
    cases h
  · rw [hf.exec_parameters] at h
    cases h
    exact hf

theorem parameters_eq_ok_iff {names : List String} {rest : Option String} {s' : Session} :
    (parameters formals).exec job s = (.ok (names, rest), s') ↔
      ∃ fixed tail?, Signature formals fixed tail? ∧ names = fixed.map (fun t => mangle t.text) ∧
        rest = tail?.map (fun t => mangle t.text) ∧
        s' = s.withLocals (fixed ++ tail?.toList) := by
  constructor
  · intro h
    rcases signature_or_flawed formals with ⟨fixed, tail?, hsignature⟩ | ⟨f, hf⟩
    · rw [hsignature.exec_parameters] at h
      cases h
      exact ⟨fixed, tail?, hsignature, rfl, rfl, rfl⟩
    · have herror : ((parameters formals).exec job s).1 = .error f := hf.exec_parameters
      rw [h] at herror
      cases herror
  · rintro ⟨fixed, tail?, hsignature, rfl, rfl, rfl⟩
    exact hsignature.exec_parameters

end Gen

/-! ### Functions -/

namespace Gen

/-- The body of a function. Without one, it gives unit. -/
def closureBody (lower : Lower) (ts : List Term) : Gen (List Code) :=
  if ts.isEmpty then pure [giveUnit] else body lower ts

theorem closure_eq (lower : Lower) (formals ts : List Term) :
    closure lower formals ts = (do
      let formals ← parameters formals
      return .closure formals.1 formals.2 (.lines (← closureBody lower ts))) := by
  cases ts <;> rfl

variable {lower : Lower} {ts : List Term}

theorem exec_closure {r : List String × Option String} {s' s'' : Session} {lines : List Code}
    (hformals : (parameters formals).exec job s = (.ok r, s'))
    (hbody : (closureBody lower ts).exec job s' = (.ok lines, s'')) :
    (closure lower formals ts).exec job s = (.ok (.closure r.1 r.2 (.lines lines)), s'') := by
  rw [closure_eq, exec_bind, hformals]
  simp only [exec_bind, hbody, exec_pure]

theorem exec_closure_body_refused {r : List String × Option String} {s' s'' : Session} {f : Fault}
    (hformals : (parameters formals).exec job s = (.ok r, s'))
    (hbody : (closureBody lower ts).exec job s' = (.error f, s'')) :
    (closure lower formals ts).exec job s = (.error f, s'') := by
  rw [closure_eq, exec_bind, hformals]
  simp only [exec_bind, hbody]

theorem exec_closure_refused {f : Fault} (hf : Flawed formals f) :
    ((closure lower formals ts).exec job s).1 = .error f := by
  have hformals : ((parameters formals).exec job s).1 = .error f := hf.exec_parameters
  rw [closure_eq, exec_bind]
  rcases hrun : (parameters formals).exec job s with ⟨r, s'⟩
  rw [hrun] at hformals
  cases hformals
  rfl

theorem render_closure (names : List String) (rest : Option String) (inner : Code) :
    (Code.closure names rest inner).render =
      "(function() local __self_ref__; __self_ref__ = function(" ++
        String.intercalate ", " (names ++ if rest.isSome then ["..."] else []) ++ ")" ++
        rest.elim "" (fun name => " local " ++ name ++ " = charon.list\x7b...\x7d;") ++ " " ++
        inner.render ++ " end; return __self_ref__; end)()" := by
  cases rest <;> rw [Code.render.eq_def] <;> rfl

/-- Formal arguments are accepted if all are names and the first `&`, if there is one, is the last but
one of them. The names in front of it and the one behind it become local names, which are the
parameters of the function, with `...` for the one behind. Other terms are refused at the first
flaw, and the function with them. -/
theorem formals_are_names_with_tail (formals : List Term) (job : Job) (s : Session) :
    ((∃ r s', (parameters formals).exec job s = (.ok r, s')) ↔
      (∀ t ∈ formals, t.shape = .name) ∧ ((∀ t ∈ formals, t.isName "&" = false) ∨
        formals.findIdx (Term.isName "&") + 2 = formals.length)) ∧
    (∀ names rest s', (parameters formals).exec job s = (.ok (names, rest), s') →
      ∃ fixed tail?, Signature formals fixed tail? ∧
        names = fixed.map (fun t => mangle t.text) ∧ rest = tail?.map (fun t => mangle t.text) ∧
        s.Gains ((fixed ++ tail?.toList).map Token.text) s' ∧
        ∀ lower ts,
          (∀ lines s'', (closureBody lower ts).exec job s' = (.ok lines, s'') →
            ∃ code, (closure lower formals ts).exec job s = (.ok code, s'') ∧
              code.render = "(function() local __self_ref__; __self_ref__ = function(" ++
                String.intercalate ", " (names ++ if tail?.isSome then ["..."] else []) ++ ")" ++
                rest.elim "" (fun name => " local " ++ name ++ " = charon.list\x7b...\x7d;") ++
                " " ++ (Code.lines lines).render ++ " end; return __self_ref__; end)()") ∧
          (∀ f s'', (closureBody lower ts).exec job s' = (.error f, s'') →
            (closure lower formals ts).exec job s = (.error f, s''))) ∧
    (∀ f, ((parameters formals).exec job s).1 = .error f ↔ Flawed formals f) ∧
    (∀ f, Flawed formals f → ∀ lower ts, ((closure lower formals ts).exec job s).1 = .error f) := by
  refine ⟨?_, ?_, fun f => parameters_eq_error_iff, fun f hf lower ts => exec_closure_refused hf⟩
  · rw [← exists_signature_iff]
    constructor
    · rintro ⟨⟨names, rest⟩, s', h⟩
      obtain ⟨fixed, tail?, hsignature, -⟩ := parameters_eq_ok_iff.1 h
      exact ⟨fixed, tail?, hsignature⟩
    · rintro ⟨fixed, tail?, hsignature⟩
      exact ⟨_, _, hsignature.exec_parameters⟩
  · intro names rest s' h
    obtain ⟨fixed, tail?, hsignature, rfl, rfl, rfl⟩ := parameters_eq_ok_iff.1 h
    refine ⟨fixed, tail?, hsignature, rfl, rfl, s.gains_withLocals _, fun lower ts => ⟨?_, ?_⟩⟩
    · intro lines s'' hbody
      have htext := render_closure (fixed.map fun t => mangle t.text)
        (tail?.map fun t => mangle t.text) (.lines lines)
      rw [Option.isSome_map] at htext
      exact ⟨_, exec_closure h hbody, htext⟩
    · intro f s'' hbody
      exact exec_closure_body_refused h hbody

/-- The formal arguments `[a & &]` are accepted, and the tail is called `&`. `[a & b 1]` is refused at
the number, and `[&]` at its only name. -/
theorem formals_are_names_with_tail_ampersand :
    let a : Term := .name ⟨"a", .none⟩
    let b : Term := .name ⟨"b", .none⟩
    let ampersand : Term := .name ⟨"&", .none⟩
    let one : Term := .number ⟨"1", .none⟩
    (∃ r s', (parameters [a, ampersand, ampersand]).exec default .start = (.ok r, s')) ∧
    ((parameters [a, ampersand, b, one]).exec default .start).1 =
      .error ⟨.parameterName, .none⟩ ∧
    ((parameters [ampersand]).exec default .start).1 = .error ⟨.danglingTail, .none⟩ := by
  intro a b ampersand one
  have hnumber : Flawed [a, ampersand, b, one] ⟨.parameterName, .none⟩ :=
    @Flawed.tailName [⟨"a", .none⟩] (by simp) ⟨"&", .none⟩ rfl (some ⟨"b", .none⟩) one
      (by decide) []
  have hdangling : Flawed [ampersand] ⟨.danglingTail, .none⟩ :=
    @Flawed.danglingTail [] (by simp) ⟨"&", .none⟩ rfl
  exact ⟨(formals_are_names_with_tail _ default .start).1.2 (by decide),
    ((formals_are_names_with_tail _ default .start).2.2.1 _).2 hnumber,
    ((formals_are_names_with_tail _ default .start).2.2.1 _).2 hdangling⟩

end Gen

end LispLua
