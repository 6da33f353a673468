import LispLua.Generate.Equation
import LispLua.Proofs.Generation.Scoping
import LispLua.Proofs.Lowering.Rules

/-! # Lowering follows the rules -/

namespace LispLua.Gen

open Lua

variable {P : Term → Prop} {job : Job} {lower : Lower} {s s' : Session} {u : List Step}

/-! ### Declarations -/

theorem gives_registerLocal {t : Token} {n : String} :
    (registerLocal t).Gives job s n u s' ↔ n = mangle t.text ∧ u = [] ∧ s' = s.withLocal t :=
  gives_of_run rfl

theorem gives_bindLocal {t : Token} {value c : Code} :
    (bindLocal t value).Gives job s c u s' ↔
      c = .bind (mangle t.text) value ∧ u = [] ∧ s' = s.withLocal t :=
  gives_of_run rfl

mutual

theorem destructs_destructure {value part : Code} (hpart : Session.Part value part) :
    ∀ (t : Term) {bs : List Code} {s s' : Session} {u : List Step},
      (destructure t part).Gives job s bs u s' →
        u = [] ∧ s.Destructs value bs s' ∧ bs.length = t.binders.length
  | .list items _, _, _, _, _, h => destructs_destructureItems hpart items 0 h
  | .name t, bs, s, s', u, h => by
    obtain ⟨c, hc, rfl⟩ := gives_map.1 h
    obtain ⟨rfl, rfl, rfl⟩ := gives_bindLocal.1 hc
    exact ⟨rfl, .cons t hpart .nil, rfl⟩
  | .table .., _, _, _, _, h | .call .., _, _, _, _, h | .path _, _, _, _, _, h
  | .number _, _, _, _, _, h | .string _, _, _, _, _, h | .symbol _, _, _, _, _, h
  | .wildcard _, _, _, _, _, h => (not_gives_refuse h).elim

theorem destructs_destructureItems {value part : Code} (hpart : Session.Part value part) :
    ∀ (ts : List Term) (index : Nat) {bs : List Code} {s s' : Session} {u : List Step},
      (destructureItems ts part index).Gives job s bs u s' →
        u = [] ∧ s.Destructs value bs s' ∧ bs.length = (Term.bindersAll ts).length
  | [], _, _, _, _, _, h => by
    obtain ⟨rfl, rfl, rfl⟩ := gives_pure.1 h
    exact ⟨rfl, .nil, rfl⟩
  | t :: ts, index, _, _, _, _, h => by
    obtain ⟨bs, v, s₁, w, ht, hrest, rfl⟩ := gives_bind.1 h
    obtain ⟨cs, hts, rfl⟩ := gives_map.1 hrest
    obtain ⟨rfl, hbs, hlength⟩ := destructs_destructure (hpart.item index) t ht
    obtain ⟨rfl, hcs, hlength'⟩ := destructs_destructureItems hpart ts (index + 1) hts
    refine ⟨rfl, hbs.append hcs, ?_⟩
    rw [Term.bindersAll, List.length_append, List.length_append, hlength, hlength']

end

theorem destructs_bindPair {left : Term} {value : Code} {bs : List Code}
    (h : (bindPair left value).Gives job s bs u s') :
    u = [] ∧ s.Destructs value bs s' ∧ bs.length = left.binders.length := by
  cases left with
  | name t => exact destructs_destructure .self (.name t) h
  | list items span =>
    apply destructs_destructureItems ?_ items 0 h
    unfold indexable
    split
    · exact .self
    · exact .paren
  | _ => exact (not_gives_refuse h).elim

theorem binds_restParameter {ampersand : Span} {ts : List Term} {n : String}
    (h : (restParameter ampersand ts).Gives job s n u s') : u = [] ∧ s.Binds [n] s' := by
  unfold restParameter at h
  split at h
  · exact (not_gives_refuse h).elim
  · obtain ⟨rfl, rfl, rfl⟩ := gives_registerLocal.1 h
    exact ⟨rfl, .cons _ .nil⟩
  · exact (not_gives_refuse h).elim
  · exact (not_gives_refuse h).elim
  · exact (not_gives_refuse h).elim

theorem binds_parameters {formals : List Term} {names : List String} {rest : Option String}
    (h : (parameters formals).Gives job s (names, rest) u s') :
    u = [] ∧ s.Binds (names ++ rest.toList) s' ∧
      rest.isSome = formals.any (Term.isName "&") := by
  induction formals generalizing s u names with
  | nil =>
    obtain ⟨hvalue, rfl, rfl⟩ := gives_pure.1 h
    cases hvalue
    exact ⟨rfl, .nil, rfl⟩
  | cons t ts ih =>
    cases t with
    | name t =>
      by_cases hrest : t.text = "&"
      · rw [parameters, if_pos hrest] at h
        obtain ⟨n, hn, hvalue⟩ := gives_map.1 h
        cases hvalue
        obtain ⟨rfl, hbinds⟩ := binds_restParameter hn
        exact ⟨rfl, hbinds, by simp [Term.isName, hrest]⟩
      · rw [parameters, if_neg hrest] at h
        obtain ⟨n, v, s₁, w, hn, htail, rfl⟩ := gives_bind.1 h
        obtain ⟨rfl, rfl, rfl⟩ := gives_registerLocal.1 hn
        obtain ⟨⟨names', rest'⟩, hts, hvalue⟩ := gives_map.1 htail
        cases hvalue
        obtain ⟨rfl, hbinds, hany⟩ := ih hts
        exact ⟨rfl, .cons t hbinds, by simp [Term.isName, hrest, hany]⟩
    | _ => exact (not_gives_refuse h).elim

theorem binds_importMembers {items : List Term} {names : List (String × String)}
    (h : (importMembers items).Gives job s names u s') :
    u = [] ∧ s.Binds (names.map Prod.fst) s' ∧ ∃ tokens : List Token, items = tokens.map Term.name ∧
      names = tokens.map fun t => (mangle t.text, t.text) := by
  induction items generalizing s u names with
  | nil =>
    obtain ⟨rfl, rfl, rfl⟩ := gives_pure.1 h
    exact ⟨rfl, .nil, [], rfl, rfl⟩
  | cons t ts ih =>
    cases t with
    | name t =>
      obtain ⟨n, v, s₁, w, hn, hrest, rfl⟩ := gives_bind.1 h
      obtain ⟨rfl, rfl, rfl⟩ := gives_registerLocal.1 hn
      obtain ⟨names', hts, rfl⟩ := gives_map.1 hrest
      obtain ⟨rfl, hbinds, tokens, rfl, rfl⟩ := ih hts
      exact ⟨rfl, .cons t hbinds, t :: tokens, rfl, rfl⟩
    | _ => exact (not_gives_refuse h).elim

/-! ### Modules and operators, without a look at what is lowered -/

theorem quiet_importWord {t : Term} {a : Unit} (h : (importWord t).Gives job s a u s') :
    u = [] ∧ s' = s := by
  unfold importWord at h
  split at h
  · split at h
    · exact (gives_pure.1 h).2
    · exact (not_gives_refuse h).elim
  · exact (not_gives_refuse h).elim

theorem gives_importClause {clause : Term} {ts : List Term}
    (h : (importClause clause).Gives job s ts u s') :
    u = [] ∧ s' = s ∧ ((∃ span, clause = .list ts span) ∨
      ∃ target args span, clause = .call target args span ∧ ts = target :: args) := by
  cases clause with
  | list items span =>
    obtain ⟨rfl, rfl, rfl⟩ := gives_pure.1 h
    exact ⟨rfl, rfl, .inl ⟨span, rfl⟩⟩
  | call target args span =>
    obtain ⟨rfl, rfl, rfl⟩ := gives_pure.1 h
    exact ⟨rfl, rfl, .inr ⟨target, args, span, rfl, rfl⟩⟩
  | _ => exact (not_gives_refuse h).elim

theorem gives_moduleImport (hP : Term.Hereditary P) {clause : Term} {code : Code}
    (hclause : P clause) (h : (moduleImport lower clause).Gives job s code u s') :
    ∃ ts, (∀ t ∈ ts, P t) ∧
      (∃ t span, clause = .list (.symbol t :: ts) span ∨ clause = .call (.symbol t) ts span) ∧
      (importModule lower ts clause.span).Gives job s code u s' := by
  obtain ⟨ts, _, _, _, hts, hk, rfl⟩ := gives_bind.1 h
  obtain ⟨rfl, rfl, hshape⟩ := gives_importClause hts
  obtain ⟨-, himport⟩ := gives_guard.1 hk
  clear hk
  split at himport
  · exact (not_gives_refuse himport).elim
  · rename_i t rest
    split at himport
    · rcases hshape with ⟨span, rfl⟩ | ⟨target, args, span, rfl, heq⟩
      · exact ⟨rest, fun t ht => hP.items hclause t (List.mem_cons_of_mem _ ht),
          ⟨t, span, .inl rfl⟩, himport⟩
      · cases heq
        exact ⟨rest, hP.args (c := ⟨.symbol t, rest, span⟩) hclause, ⟨t, span, .inr rfl⟩, himport⟩
    · exact (not_gives_refuse himport).elim
  · exact (not_gives_refuse himport).elim

theorem gives_operands {ts : List Term} {ds : List Code}
    (h : (ts.mapM fun t => return operand (← eval lower t)).Gives job s ds u s') :
    ∃ cs, (evalAll lower ts).Gives job s cs u s' ∧ ds = cs.map operand := by
  induction ts generalizing s ds u with
  | nil =>
    obtain ⟨rfl, rfl, rfl⟩ := gives_mapM_nil.1 h
    exact ⟨[], gives_mapM_nil.2 ⟨rfl, rfl, rfl⟩, rfl⟩
  | cons t ts ih =>
    obtain ⟨d, v, s₁, ds, w, hd, hds, rfl, rfl⟩ := gives_mapM_cons.1 h
    obtain ⟨c, hc, rfl⟩ := gives_map.1 hd
    obtain ⟨cs, hcs, rfl⟩ := ih hds
    exact ⟨c :: cs, gives_mapM_cons.2 ⟨c, v, s₁, cs, w, hc, hcs, rfl, rfl⟩, rfl⟩

/-! ### Terms in rows -/

variable (P job lower) in
/-- Whatever `lower` gives for the terms of a class follows the rules, and a statement without a
semicolon is a comment. -/
def Follows : Prop :=
  ∀ {t : Term} {s s' : Session} {stmt : Stmt} {u : List Step}, P t →
    (lower t).Gives job s stmt u s' →
      Lowers P job (.term t) s [stmt.code] u s' ∧ (stmt.separated = true ∨ stmt.code.IsNote)

variable (hl : Follows P job lower)

include hl

theorem lowers_eval {t : Term} {c : Code} (ht : P t) (h : (eval lower t).Gives job s c u s') :
    Lowers P job (.term t) s [c] u s' := by
  obtain ⟨stmt, hstmt, rfl⟩ := gives_map.1 h
  exact (hl ht hstmt).1

theorem lowers_evalAll {ts : List Term} {cs : List Code} (hts : ∀ t ∈ ts, P t)
    (h : (evalAll lower ts).Gives job s cs u s') : Lowers P job (.values ts) s cs u s' := by
  induction ts generalizing s cs u with
  | nil =>
    obtain ⟨rfl, rfl, rfl⟩ := gives_mapM_nil.1 h
    exact .valuesNil
  | cons t ts ih =>
    obtain ⟨ht, hts⟩ := List.forall_mem_cons.1 hts
    obtain ⟨c, v, s₁, cs, w, hc, hcs, rfl, rfl⟩ := gives_mapM_cons.1 h
    exact .valuesCons (lowers_eval hl ht hc) (ih hts hcs)

omit hl in
theorem gives_arg {t : Term} {c : Code} (h : (arg lower t).Gives job s c u s') :
    (∃ token m f, t = .name token ∧ s.find? token.text = some m ∧ m.isForm = true ∧
      m.function? = some f ∧ c = .word f ∧ u = [] ∧ s' = s) ∨
    (eval lower t).Gives job s c u s' := by
  cases t with
  | name token =>
    replace h := (gives_bind_of_eq gives_find?).1 h
    cases hm : s.find? token.text with
    | none =>
      rw [hm] at h
      exact .inr h
    | some m =>
      rw [hm] at h
      by_cases hform : m.isForm = true
      · simp only [hform, if_true] at h
        cases hf : m.function? with
        | none =>
          rw [hf] at h
          exact (not_gives_refuse h).elim
        | some f =>
          rw [hf] at h
          obtain ⟨rfl, rfl, rfl⟩ := gives_pure.1 h
          exact .inl ⟨token, m, f, rfl, hm, hform, hf, rfl, rfl, rfl⟩
      · simp only [hform] at h
        exact .inr h
  | _ => exact .inr h

theorem lowers_args {ts : List Term} {cs : List Code} (hts : ∀ t ∈ ts, P t)
    (h : (args lower ts).Gives job s cs u s') : Lowers P job (.args ts) s cs u s' := by
  induction ts generalizing s cs u with
  | nil =>
    obtain ⟨rfl, rfl, rfl⟩ := gives_mapM_nil.1 h
    exact .argsNil
  | cons t ts ih =>
    obtain ⟨ht, hts'⟩ := List.forall_mem_cons.1 hts
    obtain ⟨c, v, s₁, cs, w, hc, hcs, rfl, rfl⟩ := gives_mapM_cons.1 h
    rcases gives_arg hc with ⟨token, m, f, rfl, hm, hform, hf, rfl, rfl, rfl⟩ | hc
    · exact .argsForm hm hform hf (ih hts' hcs)
    · exact .argsCons (lowers_eval hl ht hc) (ih hts' hcs)

theorem lowers_key {escaped : Bool} {t : Term} {c : Code} (ht : P t)
    (h : (key lower escaped t).Gives job s c u s') : Lowers P job (.key escaped t) s [c] u s' := by
  cases t with
  | symbol token =>
    cases escaped with
    | true =>
      obtain ⟨rfl, rfl, rfl⟩ := gives_pure.1 h
      exact .keyQuoted
    | false => exact .keyTerm (lowers_eval hl ht h)
  | _ => exact .keyTerm (lowers_eval hl ht h)

omit hl in
theorem gives_nameValue {t : Token} {c : Code} (h : (nameValue t).Gives job s c u s') :
    ∃ m, s.find? t.text = some m ∧ u = [] ∧ s' = s ∧
      ((m.isForm = true ∧ ∃ f, m.function? = some f ∧ c = .word f) ∨
        (m.isForm = false ∧ c = m.reference s.package)) := by
  obtain ⟨m, v, s₁, w, hresolve, hrest, rfl⟩ := gives_bind.1 h
  obtain ⟨hm, rfl, rfl⟩ := gives_resolve.1 hresolve
  cases hform : m.isForm with
  | true =>
    simp only [hform, if_true] at hrest
    cases hf : m.function? with
    | none =>
      rw [hf] at hrest
      exact (not_gives_refuse hrest).elim
    | some f =>
      rw [hf] at hrest
      obtain ⟨rfl, rfl, rfl⟩ := gives_pure.1 hrest
      exact ⟨m, hm, rfl, rfl, .inl ⟨hform, f, hf, rfl⟩⟩
  | false =>
    simp only [hform] at hrest
    obtain ⟨rfl, rfl, rfl⟩ := gives_reference.1 hrest
    exact ⟨m, hm, rfl, rfl, .inr ⟨hform, rfl⟩⟩

omit hl in
/-- No program can make `unit` a special form. -/
theorem isForm_unit {m : Meaning} (h : s.find? "unit" = some m) : m.isForm = false := by
  unfold Session.find? at h
  split at h
  · cases h
    rfl
  · revert m
    decide

omit hl in
theorem quiet_isDefinition {t : Term} {d : Bool} (h : (isDefinition t).Gives job s d u s') :
    u = [] ∧ s' = s := by
  unfold isDefinition at h
  split at h
  · obtain ⟨m, hm, -⟩ := gives_map.1 h
    exact (gives_find?.1 hm).2
  · exact (gives_pure.1 h).2

theorem lowers_entries {escaped : Bool} : ∀ {ts : List Term} {cs : List Code} {s : Session}
    {u : List Step}, (∀ t ∈ ts, P t) → (entries lower escaped ts).Gives job s cs u s' →
      Lowers P job (.entries escaped ts) s cs u s'
  | [], _, _, _, _, h => by
    obtain ⟨rfl, rfl, rfl⟩ := gives_pure.1 h
    exact .entriesNil
  | [k], _, _, _, hts, h => by
    obtain ⟨c, v, s₁, w, hc, hrest, rfl⟩ := gives_bind.1 h
    obtain ⟨d, hd, rfl⟩ := gives_map.1 hrest
    obtain ⟨m, hm, rfl, rfl, hvalue⟩ := gives_nameValue hd
    have hform := isForm_unit hm
    rw [List.append_nil]
    rcases hvalue with ⟨htrue, _⟩ | ⟨_, rfl⟩
    · rw [hform] at htrue
      cases htrue
    · exact .entriesLast (lowers_key hl (hts k (by simp)) hc) hm hform
  | k :: t :: ts, _, _, _, hts, h => by
    obtain ⟨c, v, s₁, w, hc, hrest, rfl⟩ := gives_bind.1 h
    obtain ⟨d, v', s₂, w', hd, hrest', rfl⟩ := gives_bind.1 hrest
    obtain ⟨cs, hcs, rfl⟩ := gives_map.1 hrest'
    exact .entriesCons (lowers_key hl (hts k (by simp)) hc) (lowers_eval hl (hts t (by simp)) hd)
      (lowers_entries (fun t ht => hts t (by simp [ht])) hcs)

theorem lowers_body : ∀ {ts : List Term} {cs : List Code} {s : Session} {u : List Step},
    (∀ t ∈ ts, P t) → (body lower ts).Gives job s cs u s' → Lowers P job (.body ts) s cs u s'
  | [], _, _, _, _, h => by
    obtain ⟨rfl, rfl, rfl⟩ := gives_pure.1 h
    exact .bodyNil
  | [t], _, s, _, hts, h => by
    obtain ⟨definition, v, s₁, w, hd, hrest, rfl⟩ := gives_bind.1 h
    obtain ⟨stmt, hstmt, rfl⟩ := gives_map.1 hrest
    obtain ⟨rfl, rfl⟩ := quiet_isDefinition hd
    obtain ⟨hlowers, hnote⟩ := hl (hts t (by simp)) hstmt
    exact .bodyLast hd hnote hlowers
  | t :: t' :: ts, _, _, _, hts, h => by
    obtain ⟨stmt, v, s₁, w, hstmt, hrest, rfl⟩ := gives_bind.1 h
    obtain ⟨cs, hcs, rfl⟩ := gives_map.1 hrest
    obtain ⟨hlowers, hnote⟩ := hl (hts t (by simp)) hstmt
    exact .bodyCons hnote hlowers
      (lowers_body (fun t ht => hts t (List.mem_cons_of_mem _ ht)) hcs)

/-! ### Blocks -/

theorem lowers_bindPairs : ∀ {ts : List Term} {cs : List Code} {s : Session} {u : List Step},
    (∀ t ∈ ts, P t) → (bindPairs lower ts).Gives job s cs u s' → Lowers P job (.pairs ts) s cs u s'
  | [], _, _, _, _, h | [_], _, _, _, _, h => by
    obtain ⟨rfl, rfl, rfl⟩ := gives_pure.1 h
    exact .pairsNil (by simp)
  | left :: t :: ts, _, _, _, hts, h => by
    obtain ⟨c, v, s₁, w, hc, hrest, rfl⟩ := gives_bind.1 h
    obtain ⟨bs, v', s₂, w', hbs, hrest', rfl⟩ := gives_bind.1 hrest
    obtain ⟨cs, hcs, rfl⟩ := gives_map.1 hrest'
    obtain ⟨rfl, hdestructs, hlength⟩ := destructs_bindPair hbs
    exact .pairsCons (lowers_eval hl (hts t (by simp)) hc) hdestructs hlength
      (lowers_bindPairs (fun t ht => hts t (by simp [ht])) hcs)

theorem lowers_itemTests {subject : Code} {ts : List Term} {index : Nat} {cs : List Code}
    (hts : ∀ t ∈ ts, P t) (h : (itemTests lower subject ts index).Gives job s cs u s') :
    Lowers P job (.tests subject ts index) s cs u s' := by
  induction ts generalizing index s cs u with
  | nil =>
    obtain ⟨rfl, rfl, rfl⟩ := gives_pure.1 h
    exact .testsNil
  | cons t ts ih =>
    obtain ⟨ht, hts⟩ := List.forall_mem_cons.1 hts
    by_cases hany : t.isName "_" = true
    · rw [itemTests, if_pos hany] at h
      exact .testsAny (ih hts h)
    · rw [itemTests, if_neg hany] at h
      obtain ⟨c, v, s₁, w, hc, hrest, rfl⟩ := gives_bind.1 h
      obtain ⟨cs, hcs, rfl⟩ := gives_map.1 hrest
      exact .testsCons (lowers_eval hl ht hc) (ih hts hcs)

omit hl in
theorem gives_warn {message : String} {span : Span} {a : Unit}
    (h : (warn message span).Gives job s a u s') :
    u = [] ∧ ∃ events, s' = { s with log := events } := by
  replace h := (gives_bind_of_eq gives_read).1 h
  obtain ⟨-, rfl, rfl⟩ := gives_log.1 h
  exact ⟨rfl, _, rfl⟩

theorem lowers_arms (hP : Term.Hereditary P) {subject : Code} : ∀ {ts : List Term} {seen : Bool}
    {cs : List Code} {s : Session} {u : List Step}, (∀ t ∈ ts, P t) →
      (arms lower subject ts seen).Gives job s cs u s' → Lowers P job (.arms subject ts) s cs u s'
  | [], _, _, _, _, _, h | [_], _, _, _, _, _, h => by
    obtain ⟨rfl, rfl, rfl⟩ := gives_pure.1 h
    exact .armsNil (by simp)
  | left :: right :: ts, seen, _, s, _, hts, h => by
    have hleft := hts left (by simp)
    have hright := hts right (by simp)
    have htail : ∀ t ∈ ts, P t := fun t ht => hts t (by simp [ht])
    by_cases hany : left.isName "_" = true
    · simp only [arms, hany, if_true] at h
      cases seen with
      | true =>
        obtain ⟨_, v, s₁, w, hwarn, hrest, rfl⟩ := gives_bind.1 h
        obtain ⟨rfl, events, rfl⟩ := gives_warn hwarn
        exact .armsAny (lowers_arms hP htail hrest)
      | false => exact .armsAny (lowers_arms hP htail h : Lowers P job _ { s with log := s.log } _ _ _)
    · simp only [arms, hany] at h
      obtain ⟨value, v, s₁, w, hvalue, hrest, rfl⟩ := gives_bind.1 h
      obtain ⟨test, v', s₂, w', htest, hrest', rfl⟩ := gives_bind.1 hrest
      obtain ⟨cs, hcs, rfl⟩ := gives_map.1 hrest'
      have hvalue := lowers_eval hl hright hvalue
      have hcs := lowers_arms hP htail hcs
      cases left with
      | list items span =>
        obtain ⟨tests, htests, rfl⟩ := gives_map.1 htest
        exact .armsList hvalue (lowers_itemTests hl (hP.items hleft) htests) hcs
      | _ =>
        obtain ⟨c, hc, rfl⟩ := gives_map.1 htest
        exact .armsTerm (by simpa using hany) hvalue (lowers_eval hl hleft hc) hcs

omit hl in
theorem gives_loopName {cause : Cause} {t : Term} {token : Token}
    (h : (loopName cause t).Gives job s token u s') : u = [] ∧ s' = s := by
  unfold loopName at h
  split at h
  · exact (gives_pure.1 h).2
  · exact (not_gives_refuse h).elim

omit hl in
theorem gives_loopSource {source : Term} {x : List Code ⊕ Code}
    (h : (loopSource lower source).Gives job s x u s') :
    (∃ t bounds span bs, source = .call (.name t) bounds span ∧
      (evalAll lower bounds).Gives job s bs u s' ∧ x = .inl bs) ∨
    (∃ c, (eval lower source).Gives job s c u s' ∧ x = .inr c) := by
  unfold loopSource at h
  split at h
  · rename_i t bounds span
    split at h
    · obtain ⟨bs, hbs, rfl⟩ := gives_map.1 h
      exact .inl ⟨t, bounds, span, bs, rfl, hbs, rfl⟩
    · exact .inr (gives_map.1 h)
  · exact .inr (gives_map.1 h)

section

variable (hP : Term.Hereditary P) {c : Call} {code : Code} (hc : ∀ t ∈ c.args, P t)

include hP hc

omit hP in
theorem lowers_block (h : (block lower c.args).Gives job s code u s') :
    Lowers P job (.form .block c) s [code] u s' := by
  obtain ⟨cs, v, s₁, w, hcs, hthunk, rfl⟩ := gives_bind.1 h
  obtain ⟨rfl, rfl, rfl⟩ := gives_thunk.1 hthunk
  rw [List.append_nil]
  exact .block (lowers_body hl hc hcs)

theorem lowers_bindings (h : (bindings lower c).Gives job s code u s') :
    Lowers P job (.form .bindings c) s [code] u s' := by
  unfold bindings at h
  split at h
  · rename_i pairs span ts hargs
    rw [hargs] at hc
    obtain ⟨hpairs, hts⟩ := List.forall_mem_cons.1 hc
    obtain ⟨-, hlayer⟩ := gives_guard.1 h
    obtain ⟨v, s₁, hinside, rfl, rfl⟩ := gives_inLayer.1 hlayer
    obtain ⟨bs, v, s₂, w, hbs, hrest, rfl⟩ := gives_bind.1 hinside
    obtain ⟨cs, v', s₃, w', hcs, hthunk, rfl⟩ := gives_bind.1 hrest
    obtain ⟨rfl, rfl, rfl⟩ := gives_thunk.1 hthunk
    rw [List.append_nil]
    exact .bindings hargs (lowers_bindPairs hl (hP.items hpairs) hbs) (lowers_body hl hts hcs)
  · exact (not_gives_refuse h).elim
  · exact (not_gives_refuse h).elim

omit hP in
theorem lowers_conditional (h : (conditional lower c).Gives job s code u s') :
    Lowers P job (.form .conditional c) s [code] u s' := by
  unfold conditional at h
  split at h
  · rename_i test yes no hargs
    rw [hargs] at hc
    obtain ⟨-, hrest⟩ := gives_guard.1 h
    obtain ⟨code₁, v, s₁, w, htest, hrest', rfl⟩ := gives_bind.1 hrest
    obtain ⟨code₂, v', s₂, w', hyes, hrest'', rfl⟩ := gives_bind.1 hrest'
    obtain ⟨cs, v'', s₃, w'', hno, hthunk, rfl⟩ := gives_bind.1 hrest''
    obtain ⟨rfl, rfl, rfl⟩ := gives_thunk.1 hthunk
    rw [List.append_nil]
    exact .conditional hargs (lowers_eval hl (hc _ (by simp)) htest)
      (lowers_eval hl (hc _ (by simp)) hyes) (lowers_body hl (fun t ht => hc t (by simp [ht])) hno)
  · exact (not_gives_refuse h).elim

theorem lowers_matching (h : (matching lower c).Gives job s code u s') :
    Lowers P job (.form .matching c) s [code] u s' := by
  unfold matching at h
  split at h
  · exact (not_gives_refuse h).elim
  · rename_i value cases' hargs
    rw [hargs] at hc
    obtain ⟨hvalue, hcases⟩ := List.forall_mem_cons.1 hc
    obtain ⟨-, hrest⟩ := gives_guard.1 h
    obtain ⟨subject, v, s₁, w, hsubject, hrest', rfl⟩ := gives_bind.1 hrest
    obtain ⟨cs, v', s₂, w', hcs, hrest'', rfl⟩ := gives_bind.1 hrest'
    obtain ⟨otherwise, v'', s₃, w'', hlast, hthunk, rfl⟩ := gives_bind.1 hrest''
    obtain ⟨rfl, rfl, rfl⟩ := gives_thunk.1 hthunk
    rw [List.append_nil]
    have hsubject := lowers_eval hl hvalue hsubject
    have hcs := lowers_arms hl hP hcases hcs
    cases hfallback : fallback? cases' with
    | none =>
      rw [hfallback] at hlast
      obtain ⟨rfl, rfl, rfl⟩ := gives_pure.1 hlast
      rw [List.append_nil]
      exact .matching hargs hfallback hsubject hcs
    | some last =>
      rw [hfallback] at hlast
      obtain ⟨ds, hds, rfl⟩ := gives_map.1 hlast
      have hlast : P last := hcases last (mem_of_fallback? hfallback)
      exact .matchingElse hargs hfallback hsubject hcs
        (lowers_body hl (fun t ht => List.mem_singleton.1 ht ▸ hlast) hds)

theorem lowers_loop (h : (inLayer none (loop lower c)).Gives job s code u s') :
    Lowers P job (.form .loop c) s [code] u s' := by
  obtain ⟨v, s₁, hinside, rfl, rfl⟩ := gives_inLayer.1 h
  unfold loop at hinside
  split at hinside
  · rename_i item source span ts hargs
    rw [hargs] at hc
    obtain ⟨hlist, hts⟩ := List.forall_mem_cons.1 hc
    have hsource : P source := hP.items hlist source (by simp)
    obtain ⟨t, _, _, _, hitem, hrest, rfl⟩ := gives_bind.1 hinside
    obtain ⟨rfl, rfl⟩ := gives_loopName hitem
    obtain ⟨x, _, s₂, _, hx, hrest', rfl⟩ := gives_bind.1 hrest
    obtain ⟨n, _, _, _, hn, hrest'', rfl⟩ := gives_bind.1 hrest'
    obtain ⟨rfl, rfl, rfl⟩ := gives_registerLocal.1 hn
    obtain ⟨cs, _, s₃, _, hcs, hthunk, rfl⟩ := gives_bind.1 hrest''
    have hcs := lowers_evalAll hl hts hcs
    rcases gives_loopSource hx with ⟨r, bounds, span', bs, rfl, hbs, rfl⟩ | ⟨d, hd, rfl⟩
    · obtain ⟨rfl, rfl, rfl⟩ := gives_thunk.1 hthunk
      simp only [List.append_nil, List.nil_append]
      have hbounds : ∀ t ∈ bounds, P t := hP.args (c := ⟨.name r, bounds, span'⟩) hsource
      exact .loopCount hargs (lowers_evalAll hl hbounds hbs) hcs
    · obtain ⟨rfl, rfl, rfl⟩ := gives_thunk.1 hthunk
      simp only [List.append_nil, List.nil_append]
      exact .loopEach hargs (lowers_eval hl hsource hd) hcs
  · rename_i item key source span ts hargs
    rw [hargs] at hc
    obtain ⟨hlist, hts⟩ := List.forall_mem_cons.1 hc
    have hsource : P source := hP.items hlist source (by simp)
    obtain ⟨t, _, _, _, hitem, hrest, rfl⟩ := gives_bind.1 hinside
    obtain ⟨rfl, rfl⟩ := gives_loopName hitem
    obtain ⟨t', _, _, _, hkey, hrest', rfl⟩ := gives_bind.1 hrest
    obtain ⟨rfl, rfl⟩ := gives_loopName hkey
    obtain ⟨d, _, s₂, _, hd, hnames, rfl⟩ := gives_bind.1 hrest'
    obtain ⟨n, _, _, _, hn, hnames', rfl⟩ := gives_bind.1 hnames
    obtain ⟨rfl, rfl, rfl⟩ := gives_registerLocal.1 hn
    obtain ⟨n', _, _, _, hn', hterms, rfl⟩ := gives_bind.1 hnames'
    obtain ⟨rfl, rfl, rfl⟩ := gives_registerLocal.1 hn'
    obtain ⟨cs, _, s₃, _, hcs, hthunk, rfl⟩ := gives_bind.1 hterms
    obtain ⟨rfl, rfl, rfl⟩ := gives_thunk.1 hthunk
    simp only [List.append_nil, List.nil_append]
    exact .loopPairs hargs (lowers_eval hl hsource hd) (lowers_evalAll hl hts hcs)
  · exact (not_gives_refuse hinside).elim
  · exact (not_gives_refuse hinside).elim
  · exact (not_gives_refuse hinside).elim

omit hP in
theorem lowers_attempt (h : (attempt lower c.args).Gives job s code u s') :
    Lowers P job (.form .attempt c) s [code] u s' := by
  obtain ⟨cs, _, s₁, _, hcs, hrest, rfl⟩ := gives_bind.1 h
  obtain ⟨ds, _, s₂, _, hds, hrest', rfl⟩ := gives_bind.1 hrest
  obtain ⟨rfl, rfl, rfl⟩ := gives_thunk.1 ((gives_bind_of_eq gives_read).1 hrest')
  rw [List.append_nil]
  exact .attempt (lowers_body hl (fun t ht => hc t (List.mem_filter.1 ht).1) hcs)
    (lowers_body hl (fun t ht => hc t (List.mem_filter.1 ht).1) hds)

omit hP in
theorem lowers_handler (h : (handler lower c).Gives job s code u s') :
    Lowers P job (.form .handler c) s [code] u s' := by
  unfold handler at h
  split at h
  · rename_i items span ts hargs
    rw [hargs] at hc
    split at h
    · obtain ⟨_, s₁, hinside, rfl, rfl⟩ := gives_inLayer.1 h
      obtain ⟨n, _, _, _, hn, hrest, rfl⟩ := gives_bind.1 hinside
      obtain ⟨rfl, rfl, rfl⟩ := gives_registerLocal.1 hn
      obtain ⟨cs, hcs, rfl⟩ := gives_map.1 hrest
      exact .handler hargs (lowers_body hl (fun t ht => hc t (List.mem_cons_of_mem _ ht)) hcs)
    · exact (not_gives_refuse h).elim
  · exact (not_gives_refuse h).elim

end

/-! ### Functions -/

theorem lowers_closure {formals ts : List Term} {code : Code} (hts : ∀ t ∈ ts, P t)
    (h : (closure lower formals ts).Gives job s code u s') :
    Lowers P job (.closure formals ts) s [code] u s' := by
  obtain ⟨⟨names, rest⟩, _, s₁, _, hnames, hrest, rfl⟩ := gives_bind.1 h
  obtain ⟨rfl, hbinds, hany⟩ := binds_parameters hnames
  cases ts with
  | nil =>
    obtain ⟨cs, hcs, rfl⟩ := gives_map.1 hrest
    obtain ⟨rfl, rfl, rfl⟩ := gives_pure.1 hcs
    exact .closureEmpty hbinds hany
  | cons t ts =>
    obtain ⟨cs, hcs, rfl⟩ := gives_map.1 hrest
    exact .closure hbinds hany (lowers_body hl hts hcs)

theorem lowers_named {isPure hidden : Bool} {t : Token} {formals rest : List Term} {code : Code}
    (hrest : ∀ t ∈ rest, P t) (h : (named lower isPure hidden t formals rest).Gives job s code u s') :
    Lowers P job (.named isPure hidden t formals rest) s [code] u s' := by
  obtain ⟨b, _, s₁, _, hregister, hk, rfl⟩ := gives_bind.1 h
  obtain ⟨hb, rfl⟩ := gives_register.1 hregister
  obtain ⟨_, _, s₂, _, hlog, hk', rfl⟩ := gives_bind.1 hk
  obtain ⟨-, rfl, hs₂⟩ := gives_log.1 hlog
  obtain ⟨c, _, _, _, hlayer, hk'', rfl⟩ := gives_bind.1 hk'
  obtain ⟨_, s₃, hclosure, rfl, rfl⟩ := gives_inLayer.1 hlayer
  have hts : ∀ t ∈ (if isGlobal rest then rest.drop 1 else rest), P t := by
    intro t ht
    split at ht
    · exact hrest t (List.mem_of_mem_drop ht)
    · exact hrest t ht
  have hnamed := Lowers.named hb hs₂ (lowers_closure hl hts hclosure)
  by_cases hlocal : (hidden && !isGlobal rest) = true
  · rw [if_pos hlocal] at hk'' hnamed
    obtain ⟨rfl, rfl, rfl⟩ := gives_pure.1 hk''
    exact hnamed
  · rw [if_neg hlocal] at hk'' hnamed
    obtain ⟨place, hplace, rfl⟩ := gives_map.1 hk''
    obtain ⟨rfl, rfl, rfl⟩ := gives_reference.1 hplace
    exact hnamed

section

variable {c : Call} {code : Code} (hc : ∀ t ∈ c.args, P t)

include hc

theorem lowers_lambda (h : (lambda lower c).Gives job s code u s') :
    Lowers P job (.form .lambda c) s [code] u s' := by
  unfold lambda at h
  split at h
  · rename_i formals span ts hargs
    rw [hargs] at hc
    obtain ⟨_, s₁, hclosure, rfl, rfl⟩ := gives_inLayer.1 h
    exact .lambda hargs
      (lowers_closure hl (fun t ht => hc t (List.mem_cons_of_mem _ ht)) hclosure)
  · exact (not_gives_refuse h).elim
  · exact (not_gives_refuse h).elim

theorem lowers_function {isPure hidden : Bool}
    (h : (function lower c isPure hidden).Gives job s code u s') :
    Lowers P job (.form (.function isPure hidden) c) s [code] u s' := by
  obtain ⟨hpure, h⟩ := gives_unlessPure.1 h
  split at h
  · rename_i t formals span rest hargs
    rw [hargs] at hc
    exact .function hargs hpure (lowers_named hl (fun t ht => hc t (by simp [ht])) h)
  · exact (not_gives_refuse h).elim
  · exact (not_gives_refuse h).elim
  · exact (not_gives_refuse h).elim

theorem lowers_define {isPure : Bool} (h : (define lower c isPure).Gives job s code u s') :
    Lowers P job (.form (.define isPure) c) s [code] u s' := by
  obtain ⟨hpure, h⟩ := gives_unlessPure.1 h
  split at h
  · rename_i t formals span first rest hargs
    rw [hargs] at hc
    exact .defineFunction hargs hpure (lowers_named hl (fun t ht => hc t (by grind)) h)
  · rename_i t value hargs
    rw [hargs] at hc
    split at h
    · obtain ⟨d, _, s₁, _, hd, hk, rfl⟩ := gives_bind.1 h
      obtain ⟨b, _, s₂, _, hregister, hk', rfl⟩ := gives_bind.1 hk
      obtain ⟨hb, rfl⟩ := gives_register.1 hregister
      obtain ⟨place, hplace, rfl⟩ := gives_map.1 hk'
      obtain ⟨rfl, rfl, rfl⟩ := gives_reference.1 hplace
      simp only [List.append_nil]
      exact .defineValue hargs hpure (lowers_eval hl (hc value (by simp)) hd) hb
    · exact (not_gives_refuse h).elim
  · exact (not_gives_refuse h).elim

/-! ### Modules -/

omit hc in
theorem lowers_importModule {ts : List Term} {span : Span} (hts : ∀ t ∈ ts, P t)
    (h : (importModule lower ts span).Gives job s code u s') :
    Lowers P job (.imports ts) s [code] u s' := by
  unfold importModule at h
  split at h
  · exact (not_gives_refuse h).elim
  · rename_i source
    cases source with
    | string t =>
      obtain ⟨d, hd, rfl⟩ := gives_map.1 h
      exact .importWhole (lowers_eval hl (hts _ (by simp)) hd)
    | name t =>
      obtain ⟨rfl, rfl, rfl⟩ := gives_pure.1 h
      exact .importNamed
    | _ => exact (not_gives_refuse h).elim
  · rename_i binding word source
    obtain ⟨_, _, _, _, hword, hk, rfl⟩ := gives_bind.1 h
    obtain ⟨rfl, rfl⟩ := quiet_importWord hword
    obtain ⟨d, _, s₁, _, hd, hk', rfl⟩ := gives_bind.1 hk
    have hd := lowers_eval hl (hts source (by simp)) hd
    cases binding with
    | name t =>
      obtain ⟨n, hn, rfl⟩ := gives_map.1 hk'
      obtain ⟨rfl, rfl, rfl⟩ := gives_registerLocal.1 hn
      rw [List.append_nil]
      exact .importAs hd
    | list items span =>
      obtain ⟨names, hnames, rfl⟩ := gives_map.1 hk'
      obtain ⟨rfl, hbinds, htokens⟩ := binds_importMembers hnames
      rw [List.append_nil]
      exact .importMembers hd hbinds htokens
    | _ => exact (not_gives_refuse hk').elim
  · exact (not_gives_refuse h).elim

omit hc in
theorem lowers_moduleImports (hP : Term.Hereditary P) {clauses : List Term} {cs : List Code}
    (hclauses : ∀ t ∈ clauses, P t) (h : (clauses.mapM (moduleImport lower)).Gives job s cs u s') :
    Lowers P job (.clauses clauses) s cs u s' := by
  induction clauses generalizing s cs u with
  | nil =>
    obtain ⟨rfl, rfl, rfl⟩ := gives_mapM_nil.1 h
    exact .clausesNil
  | cons clause clauses ih =>
    obtain ⟨hclause, htail⟩ := List.forall_mem_cons.1 hclauses
    obtain ⟨d, _, s₁, cs, _, hd, hcs, rfl, rfl⟩ := gives_mapM_cons.1 h
    obtain ⟨ts, hts, hshape, himport⟩ := gives_moduleImport hP hclause hd
    obtain ⟨t, span, hshape⟩ := hshape
    exact .clausesCons hshape (lowers_importModule hl hts himport) (ih htail hcs)

theorem lowers_nameModule (hP : Term.Hereditary P) (h : (nameModule lower c).Gives job s code u s') :
    Lowers P job (.form .nameModule c) s [code] u s' := by
  unfold nameModule at h
  split at h
  · rename_i t clauses hargs
    rw [hargs] at hc
    replace h := (gives_bind_of_eq gives_read).1 h
    obtain ⟨_, _, _, _, hmodify, hk, rfl⟩ := gives_bind.1 h
    obtain ⟨-, rfl, rfl⟩ := gives_modify.1 hmodify
    obtain ⟨cs, hcs, rfl⟩ := gives_map.1 hk
    exact .nameModule hargs
      (lowers_moduleImports hl hP (fun t ht => hc t (List.mem_cons_of_mem _ ht)) hcs)
  · exact (not_gives_refuse h).elim
  · exact (not_gives_refuse h).elim

/-! ### Operators -/

theorem lowers_operator {op : Operator} (h : (operator lower op c).Gives job s code u s') :
    Lowers P job (.form (.operator op) c) s [code] u s' := by
  obtain ⟨harity, h⟩ := gives_guard.1 h
  obtain ⟨ds, _, s₁, _, hds, hk, rfl⟩ := gives_bind.1 h
  obtain ⟨cs, hcs, rfl⟩ := gives_operands hds
  replace hk := (gives_bind_of_eq gives_read).1 hk
  obtain ⟨rfl, rfl, rfl⟩ := gives_pure.1 hk
  rw [List.append_nil]
  exact .operator (by omega) (lowers_evalAll hl hc hcs)

theorem lowers_negation (h : (negation lower c).Gives job s code u s') :
    Lowers P job (.form .negation c) s [code] u s' := by
  unfold negation at h
  split at h
  · rename_i t hargs
    rw [hargs] at hc
    obtain ⟨d, hd, rfl⟩ := gives_map.1 h
    exact .negation hargs (lowers_eval hl (hc t (by simp)) hd)
  · exact (not_gives_refuse h).elim

end

/-! ### Names from elsewhere -/

omit hl in
theorem gives_specifiers {given : List String} {ts : List Term} {r : List String × List Token}
    (hgiven : ∀ specifier ∈ given, specifier ∈ knownSpecifiers)
    (h : (specifiers given ts).Gives job s r u s') :
    u = [] ∧ s' = s ∧ (∀ t ∈ r.2, .name t ∈ ts) ∧
      ∀ specifier ∈ r.1, specifier ∈ knownSpecifiers := by
  induction ts generalizing given r u s with
  | nil =>
    obtain ⟨rfl, rfl, rfl⟩ := gives_pure.1 h
    exact ⟨rfl, rfl, by simp, hgiven⟩
  | cons t ts ih =>
    cases t with
    | name t =>
      obtain ⟨⟨given', names⟩, hts, rfl⟩ := gives_map.1 h
      obtain ⟨rfl, rfl, hnames, hgiven'⟩ := ih hgiven hts
      exact ⟨rfl, rfl, by simpa using fun t ht => .inr (hnames t ht), hgiven'⟩
    | symbol t =>
      rw [specifiers] at h
      split at h
      · exact (not_gives_refuse h).elim
      · rename_i hknown
        split at h
        · exact (not_gives_refuse h).elim
        · have hmore : ∀ specifier ∈ given ++ [t.text], specifier ∈ knownSpecifiers :=
            List.forall_mem_append.2 ⟨hgiven, List.forall_mem_singleton.2 (Decidable.not_not.1 hknown)⟩
          obtain ⟨rfl, rfl, hnames, hgiven'⟩ := ih hmore h
          exact ⟨rfl, rfl, fun t ht => List.mem_cons_of_mem _ (hnames t ht), hgiven'⟩
    | _ => exact (not_gives_refuse h).elim

omit hl in
theorem quiet_specifiedKind {given : List String} {span : Span} {kind : Kind}
    (h : (specifiedKind given span).Gives job s kind u s') : u = [] ∧ s' = s := by
  unfold specifiedKind at h
  split at h
  · exact (not_gives_refuse h).elim
  all_goals exact (gives_pure.1 h).2

omit hl in
theorem gives_externs {kind : Kind} {everywhere : Bool} {tokens : List Token} {names : List String}
    (h : (tokens.mapM fun t => return (← register t kind
      (if everywhere then .everywhere else .block) true).emitted).Gives job s names u s') :
    u = [] ∧ names = tokens.map Token.text ∧
      s' = tokens.foldl (Session.withExtern · kind everywhere ·) s := by
  induction tokens generalizing s names u with
  | nil =>
    obtain ⟨rfl, rfl, rfl⟩ := gives_mapM_nil.1 h
    exact ⟨rfl, rfl, rfl⟩
  | cons t ts ih =>
    obtain ⟨n, v, s₁, ns, w, hn, hns, rfl, rfl⟩ := gives_mapM_cons.1 h
    obtain ⟨b, hb, rfl⟩ := gives_map.1 hn
    obtain ⟨hregister, rfl⟩ := gives_register.1 hb
    have hdeclared : b.emitted = t.text ∧ s₁ = s.withExtern kind everywhere t := by
      cases everywhere with
      | true =>
        cases hregister
        exact ⟨rfl, rfl⟩
      | false =>
        cases hregister
        exact ⟨rfl, rfl⟩
    obtain ⟨hname, rfl⟩ := hdeclared
    obtain ⟨rfl, rfl, rfl⟩ := ih hns
    exact ⟨rfl, by rw [hname, List.map_cons], rfl⟩

omit hl in
theorem lowers_declare {c : Call} {stmt : Stmt} (h : (declare c).Gives job s stmt u s') :
    Lowers P job (.form .declare c) s [stmt.code] u s' := by
  obtain ⟨hpure, h⟩ := gives_unlessPure.1 h
  obtain ⟨⟨given, tokens⟩, _, _, _, hspecifiers, hk, rfl⟩ := gives_bind.1 h
  obtain ⟨rfl, rfl, htokens, hgiven⟩ := gives_specifiers (by simp) hspecifiers
  obtain ⟨kind, _, _, _, hkind, hk', rfl⟩ := gives_bind.1 hk
  obtain ⟨rfl, rfl⟩ := quiet_specifiedKind hkind
  obtain ⟨names, hnames, rfl⟩ := gives_map.1 hk'
  obtain ⟨rfl, rfl, hs'⟩ := gives_externs hnames
  exact .declare hpure htokens hgiven hs'

/-! ### All terms -/

omit hl in
theorem gives_plain {g : Gen Code} {stmt : Stmt} (h : (plain g).Gives job s stmt u s') :
    g.Gives job s stmt.code u s' := by
  obtain ⟨c, hc, rfl⟩ := gives_map.1 h
  exact hc

omit hl in
theorem separated_plain {g : Gen Code} {stmt : Stmt} (h : (plain g).Gives job s stmt u s') :
    stmt.separated = true := by
  obtain ⟨c, -, rfl⟩ := gives_map.1 h
  rfl

theorem lowers_desugared (hP : Term.Hereditary P) {form : Form} {c : Call} {r : Except Fault Term}
    {code : Code} (hc : ∀ t ∈ c.args, P t) (hform : ∀ t, r = .ok t → form.Expands c t)
    (h : (desugared lower r).Gives job s code u s') :
    Lowers P job (.form form c) s [code] u s' := by
  obtain ⟨t, _, _, _, ht, heval, rfl⟩ := gives_bind.1 h
  obtain ⟨hr, rfl, rfl⟩ := gives_ofExcept.1 ht
  have hexpands := hform t hr
  exact .sugar hexpands (lowers_eval hl (hP.expands hc hexpands) heval)

theorem lowers_expand (hP : Term.Hereditary P) {form : Form} {c : Call} {stmt : Stmt}
    (hc : ∀ t ∈ c.args, P t) (h : (expand lower form c).Gives job s stmt u s') :
    Lowers P job (.form form c) s [stmt.code] u s' := by
  cases form with
  | define isPure => exact lowers_define hl hc (gives_plain h)
  | function isPure hidden => exact lowers_function hl hc (gives_plain h)
  | declare => exact lowers_declare h
  | importModule => exact .importModule (lowers_importModule hl hc (gives_plain h))
  | nameModule => exact lowers_nameModule hl hc hP (gives_plain h)
  | bindings => exact lowers_bindings hl hP hc (gives_plain h)
  | conditional => exact lowers_conditional hl hc (gives_plain h)
  | matching => exact lowers_matching hl hP hc (gives_plain h)
  | block => exact lowers_block hl hc (gives_plain h)
  | loop => exact lowers_loop hl hP hc (gives_plain h)
  | lambda => exact lowers_lambda hl hc (gives_plain h)
  | attempt => exact lowers_attempt hl hc (gives_plain h)
  | handler => exact lowers_handler hl hc (gives_plain h)
  | arguments =>
    obtain ⟨hcode, rfl, rfl⟩ := gives_pure.1 (gives_plain h)
    rw [hcode]
    exact .arguments
  | negation => exact lowers_negation hl hc (gives_plain h)
  | operator op => exact lowers_operator hl hc (gives_plain h)
  | threadFirst => exact lowers_desugared hl hP hc (fun _ h => h) (gives_plain h)
  | threadLast => exact lowers_desugared hl hP hc (fun _ h => h) (gives_plain h)
  | fanFirst => exact lowers_desugared hl hP hc (fun _ h => h) (gives_plain h)
  | fanLast => exact lowers_desugared hl hP hc (fun _ h => h) (gives_plain h)
  | parity => exact lowers_desugared hl hP hc (fun _ h => h) (gives_plain h)

omit hl in
theorem gives_segments {root owner code : Code} {segments all : List Segment}
    (hall : ∀ x ∈ segments, x ∈ all) (howner : Accesses all root owner)
    (h : (segments.foldlM segment owner).Gives job s code u s') :
    Accesses all root code ∧ u = [] ∧ s' = s := by
  induction segments generalizing owner u s with
  | nil =>
    obtain ⟨rfl, rfl, rfl⟩ := gives_pure.1 h
    exact ⟨howner, rfl, rfl⟩
  | cons segment segments ih =>
    rw [List.foldlM_cons] at h
    obtain ⟨next, _, _, _, hnext, hk, rfl⟩ := gives_bind.1 h
    obtain ⟨hsegment, hall⟩ := List.forall_mem_cons.1 hall
    unfold Gen.segment at hnext
    split at hnext
    · obtain ⟨rfl, rfl, rfl⟩ := gives_pure.1 hnext
      exact ih hall (howner.method hsegment) hk
    · obtain ⟨rfl, rfl, rfl⟩ := gives_pure.1 hnext
      exact ih hall (howner.field hsegment) hk
    · exact (not_gives_refuse hnext).elim
    · exact (not_gives_refuse hnext).elim

omit hl in
theorem gives_access {p : Path} {code : Code} (h : (access p).Gives job s code u s') :
    ∃ m, s.find? p.root.text = some m ∧ m.isForm = false ∧
      Accesses p.segments (m.reference s.package) code ∧ u = [] ∧ s' = s := by
  obtain ⟨m, _, _, _, hresolve, hk, rfl⟩ := gives_bind.1 h
  obtain ⟨hm, rfl, rfl⟩ := gives_resolve.1 hresolve
  obtain ⟨hform, hk⟩ := gives_guard.1 hk
  obtain ⟨haccesses, rfl, rfl⟩ :=
    gives_segments (fun _ h => h) .root ((gives_bind_of_eq gives_reference).1 hk)
  exact ⟨m, hm, by simpa using hform, haccesses, rfl, rfl⟩

omit hl in
theorem quiet_permit {m : Meaning} {span : Span} {a : Unit}
    (h : (permit m span).Gives job s a u s') : u = [] ∧ s' = s := by
  replace h := (gives_bind_of_eq gives_isPure).1 h
  split at h
  · exact (not_gives_refuse h).elim
  · exact (gives_pure.1 h).2

theorem lowers_dispatch (hP : Term.Hereditary P) {c : Call} {stmt : Stmt} (hc : P c.term)
    (h : (dispatch lower c).Gives job s stmt u s') :
    Lowers P job (.term c.term) s [stmt.code] [.call c s u] s' := by
  have hargs := hP.args hc
  unfold dispatch at h
  split at h
  · rename_i t htarget
    have hform : s.form? c = none := by simp [Session.form?, Session.meaning?, Call.name?, htarget]
    exact .indexed hc hform (hl (hP.indexed hc) h).1
  · rename_i t htarget
    have hform : s.form? c = none := by simp [Session.form?, Session.meaning?, Call.name?, htarget]
    exact .indexed hc hform (hl (hP.indexed hc) h).1
  · rename_i t htarget
    have hform : s.form? c = none := by simp [Session.form?, Session.meaning?, Call.name?, htarget]
    obtain ⟨-, hk⟩ := gives_guard.1 (gives_plain h)
    obtain ⟨cs, hcs, hcode⟩ := gives_map.1 hk
    rw [hcode]
    exact .self hc hform (lowers_args hl hargs hcs)
  · rename_i t htarget
    obtain ⟨m, _, s₁, _, hresolve, hk, rfl⟩ := gives_bind.1 h
    obtain ⟨hm, rfl, rfl⟩ := gives_resolve.1 hresolve
    obtain ⟨_, _, s₂, _, hpermit, hk', rfl⟩ := gives_bind.1 hk
    obtain ⟨rfl, rfl⟩ := quiet_permit hpermit
    have hmeaning : s₂.form? c = m.form? := by
      rw [Session.form?, Session.meaning?_of_target htarget, hm]
      rfl
    unfold through at hk'
    split at hk'
    · rename_i form hform
      exact .special hc (hmeaning.trans hform) (lowers_expand hl hP hargs hk')
    · rename_i hform
      obtain ⟨cs, _, s₁, _, hcs, hcall, rfl⟩ := gives_bind.1 (gives_plain hk')
      obtain ⟨callee, hcallee, hcode⟩ := gives_map.1 hcall
      obtain ⟨rfl, rfl, rfl⟩ := gives_reference.1 hcallee
      rw [hcode, List.append_nil]
      exact .through hc (hmeaning.trans hform) htarget hm (by simp [Meaning.isForm, hform])
        (lowers_args hl hargs hcs)
  · rename_i p htarget
    have hform : s.form? c = none := by simp [Session.form?, Session.meaning?, Call.name?, htarget]
    obtain ⟨callee, _, _, _, hcallee, hk, rfl⟩ := gives_bind.1 (gives_plain h)
    obtain ⟨m, hm, hmform, haccesses, rfl, rfl⟩ := gives_access hcallee
    obtain ⟨cs, hcs, hcode⟩ := gives_map.1 hk
    rw [hcode]
    exact .reached hc hform htarget hm hmform haccesses (lowers_args hl hargs hcs)
  · exact (not_gives_refuse h).elim

theorem lowers_step (hP : Term.Hereditary P) {t : Term} {stmt : Stmt} (ht : P t)
    (h : (step lower t).Gives job s stmt u s') : Lowers P job (.term t) s [stmt.code] u s' := by
  cases t with
  | call target args span =>
    obtain ⟨v, hdispatch, rfl⟩ := gives_inCall.1 h
    exact lowers_dispatch hl hP (c := ⟨target, args, span⟩) ht hdispatch
  | list items span =>
    obtain ⟨cs, hcs, hcode⟩ := gives_map.1 (gives_plain h)
    rw [hcode]
    exact .list ht (lowers_evalAll hl (hP.items ht) hcs)
  | table items escaped span =>
    obtain ⟨cs, hcs, hcode⟩ := gives_map.1 (gives_plain h)
    rw [hcode]
    exact .table ht (lowers_entries hl (hP.cells ht) hcs)
  | path p =>
    obtain ⟨-, haccess⟩ := gives_guard.1 (gives_plain h)
    obtain ⟨m, hm, hform, haccesses, rfl, rfl⟩ := gives_access haccess
    exact .path ht hm hform haccesses
  | name t =>
    obtain ⟨m, hm, rfl, rfl, ⟨hform, f, hf, hcode⟩ | ⟨hform, hcode⟩⟩ :=
      gives_nameValue (gives_plain h)
    · rw [hcode]
      exact .nameForm ht hm hform hf
    · rw [hcode]
      exact .name ht hm hform
  | symbol t =>
    obtain ⟨hcode, rfl, rfl⟩ := gives_pure.1 (gives_plain h)
    rw [hcode]
    exact .symbol ht
  | number t =>
    obtain ⟨hcode, rfl, rfl⟩ := gives_pure.1 (gives_plain h)
    rw [hcode]
    exact .number ht
  | string t =>
    obtain ⟨hcode, rfl, rfl⟩ := gives_pure.1 (gives_plain h)
    rw [hcode]
    exact .string ht
  | wildcard t => exact (not_gives_refuse h).elim

omit hl in
theorem note_expand {form : Form} {c : Call} {stmt : Stmt}
    (h : (expand lower form c).Gives job s stmt u s') :
    stmt.separated = true ∨ stmt.code.IsNote := by
  cases form with
  | declare =>
    obtain ⟨-, h⟩ := gives_unlessPure.1 h
    obtain ⟨⟨given, tokens⟩, _, _, _, -, hk, rfl⟩ := gives_bind.1 h
    obtain ⟨kind, _, _, _, -, hk', rfl⟩ := gives_bind.1 hk
    obtain ⟨names, -, rfl⟩ := gives_map.1 hk'
    exact .inr ⟨names, given⟩
  | _ => exact .inl (separated_plain h)

theorem note_dispatch (hP : Term.Hereditary P) {c : Call} {stmt : Stmt} (hc : P c.term)
    (h : (dispatch lower c).Gives job s stmt u s') :
    stmt.separated = true ∨ stmt.code.IsNote := by
  unfold dispatch at h
  split at h
  · exact (hl (hP.indexed hc) h).2
  · exact (hl (hP.indexed hc) h).2
  · exact .inl (separated_plain h)
  · obtain ⟨m, _, s₁, _, -, hk, rfl⟩ := gives_bind.1 h
    obtain ⟨_, _, s₂, _, -, hk', rfl⟩ := gives_bind.1 hk
    unfold through at hk'
    split at hk'
    · exact note_expand hk'
    · exact .inl (separated_plain hk')
  · exact .inl (separated_plain h)
  · exact (not_gives_refuse h).elim

/-- Among the statements only comments have no semicolon. -/
theorem note_step (hP : Term.Hereditary P) {t : Term} {stmt : Stmt} (ht : P t)
    (h : (step lower t).Gives job s stmt u s') : stmt.separated = true ∨ stmt.code.IsNote := by
  cases t with
  | call target args span =>
    obtain ⟨v, hdispatch, rfl⟩ := gives_inCall.1 h
    exact note_dispatch hl hP (c := ⟨target, args, span⟩) ht hdispatch
  | wildcard t => exact (not_gives_refuse h).elim
  | _ => exact .inl (separated_plain h)

omit hl in
theorem follows_within (hP : Term.Hereditary P) (depth : Nat) : Follows P job (within depth) := by
  induction depth with
  | zero =>
    intro t s s' stmt u _ h
    exact (not_gives_refuse h).elim
  | succ depth ih =>
    intro t s s' stmt u ht h
    exact ⟨lowers_step ih hP ht h, note_step ih hP ht h⟩

omit hl in
/-- A lowering that succeeds follows the rules. -/
theorem lowers_term (hP : Term.Hereditary P) : Follows P job term := by
  intro t s s' stmt u ht h
  exact follows_within hP t.rank ht h

omit hl in
/-- So does that of a program, one statement after the other. -/
theorem lowers_statements (hP : Term.Hereditary P) {p : Program} {stmts : List Stmt}
    (hp : ∀ c ∈ p, P c.term) (h : (statements p).Gives job s stmts u s') :
    Lowers P job (.values (p.map Call.term)) s (stmts.map Stmt.code) u s' := by
  induction p generalizing s stmts u with
  | nil =>
    obtain ⟨rfl, rfl, rfl⟩ := gives_mapM_nil.1 h
    exact .valuesNil
  | cons c p ih =>
    obtain ⟨hc, hp'⟩ := List.forall_mem_cons.1 hp
    obtain ⟨stmt, _, s₁, stmts, _, hstmt, hstmts, rfl, rfl⟩ := gives_mapM_cons.1 h
    exact .valuesCons (lowers_term hP hc hstmt).1 (ih hp' hstmts)

omit hl in
theorem hereditary_true : Term.Hereditary fun _ => True := by
  constructor <;> intros <;> trivial

omit hl in
/-- The lowering of a special form is that of its expansion, in a step of its own. -/
theorem gives_form {c : Call} {form : Form} {g : Gen Code} {stmt : Stmt}
    (hform : s.form? c = some form) (hexpand : expand term form c = plain g)
    (h : (term c.term).Gives job s stmt u s') :
    ∃ v, g.Gives job s stmt.code v s' ∧ u = [.call c s v] := by
  have hcall : term c.term = call term c := term_eq_step c.term
  rw [hcall] at h
  obtain ⟨v, hdispatch, hu⟩ := gives_inCall.1 h
  rw [Gives, run_dispatch_form hform, hexpand] at hdispatch
  exact ⟨v, gives_plain hdispatch, hu⟩

omit hl in
/-- The result of a compilation, by how its statements are lowered. -/
theorem compile_eq_ok_iff {source sourceName text : String} {options : Options} {p : Program}
    (hp : parse source = .ok p) :
    (compile source sourceName options).1 = .ok text ↔
      ∃ stmts s', (statements p).exec ⟨options, sourceName, source⟩
          (Session.start.publish ⟨options, sourceName, source⟩) = (.ok stmts, s') ∧
        text = (Chunk.mk options s'.package stmts).render := by
  simp only [compile, hp, exec_program]
  rcases hrun : (statements p).exec ⟨options, sourceName, source⟩
    (Session.start.publish ⟨options, sourceName, source⟩) with ⟨f | stmts, s'⟩
  · constructor
    · intro h
      cases h
    · rintro ⟨stmts, s', hexec, -⟩
      cases hexec
  · obtain ⟨log, hchunk⟩ := exec_chunk stmts ⟨options, sourceName, source⟩ s'
    simp only [hchunk]
    constructor
    · intro h
      cases h
      exact ⟨stmts, s', rfl, rfl⟩
    · rintro ⟨_, _, hexec, rfl⟩
      cases hexec
      rfl

end LispLua.Gen
