import LispLua.Generate.Rank

/-!
# The equation of lowering

Lowering is defined on a depth that is given out from the rank of a term. This module shows that the
depth does not matter: lowering a term is one step that lowers the terms inside in the same way.

Each form has a congruence lemma of its own. A form that lowers nothing but its arguments asks for
agreement on those; one that looks inside them asks for agreement below the rank of the call.
-/

namespace LispLua

namespace Gen

open Lua

theorem mapM_congr {α β : Type} {f g : α → Gen β} {as : List α} (h : ∀ a ∈ as, f a = g a) :
    as.mapM f = as.mapM g := by
  induction as with
  | nil => rfl
  | cons a as ih =>
    rw [List.mapM_cons, List.mapM_cons, h a (by simp), ih fun b hb => h b (by simp [hb])]

/-- What follows a look-up depends only on what the name can mean in some session. -/
theorem resolve_bind_congr {β : Type} {t : Token} {k₁ k₂ : Meaning → Gen β}
    (h : ∀ (s : Session) (m : Meaning), s.find? t.text = some m → k₁ m = k₂ m) :
    resolve t >>= k₁ = resolve t >>= k₂ := by
  refine ext fun job s => ?_
  rw [run_bind, run_bind, exec_resolve]
  cases hm : s.find? t.text with
  | none => rfl
  | some m => simp only [h s m hm]

section

variable {l₁ l₂ : Lower}

/-- Two ways of lowering agree on all terms below a rank. -/
def AgreeBelow (n : Nat) (l₁ l₂ : Lower) : Prop :=
  ∀ u : Term, u.rank < n → l₁ u = l₂ u

theorem AgreeBelow.args {c : Call} (h : AgreeBelow c.term.rank l₁ l₂) : ∀ t ∈ c.args, l₁ t = l₂ t :=
  fun t ht => h t (Term.rank_lt_call c.target c.span ht)

theorem AgreeBelow.of_mem {c : Call} (h : AgreeBelow c.term.rank l₁ l₂) (t : Term)
    (ht : t ∈ c.args) : AgreeBelow t.rank l₁ l₂ :=
  fun u hu => h u (Nat.lt_trans hu (Term.rank_lt_call c.target c.span ht))

theorem AgreeBelow.items {items : List Term} {span : Span}
    (h : AgreeBelow (Term.list items span).rank l₁ l₂) : ∀ t ∈ items, l₁ t = l₂ t :=
  fun t ht => h t (Term.rank_lt_list span ht)

theorem eval_congr {t : Term} (h : l₁ t = l₂ t) : eval l₁ t = eval l₂ t := by
  rw [eval, eval, h]

theorem evalAll_congr (ts : List Term) (h : ∀ t ∈ ts, l₁ t = l₂ t) :
    evalAll l₁ ts = evalAll l₂ ts :=
  mapM_congr fun t ht => eval_congr (h t ht)

theorem args_congr (ts : List Term) (h : ∀ t ∈ ts, l₁ t = l₂ t) : args l₁ ts = args l₂ ts :=
  mapM_congr fun t ht => by
    cases t <;> simp only [arg, eval_congr (h _ ht)]

theorem key_congr {t : Term} (escaped : Bool) (h : l₁ t = l₂ t) :
    key l₁ escaped t = key l₂ escaped t := by
  cases t <;> simp only [key, eval_congr h]

theorem entries_congr (escaped : Bool) :
    ∀ ts : List Term, (∀ t ∈ ts, l₁ t = l₂ t) → entries l₁ escaped ts = entries l₂ escaped ts
  | [], _ => rfl
  | [k], h => by rw [entries, entries, key_congr escaped (h k (by simp))]
  | k :: v :: rest, h => by
    rw [entries, entries, key_congr escaped (h k (by simp)), eval_congr (h v (by simp)),
      entries_congr escaped rest fun t ht => h t (by simp [ht])]

theorem table_congr (ts : List Term) (escaped : Bool) (h : ∀ t ∈ ts, l₁ t = l₂ t) :
    table l₁ ts escaped = table l₂ ts escaped := by
  rw [table, table, entries_congr escaped ts h]

theorem body_cons_cons (lower : Lower) (t u : Term) (ts : List Term) :
    body lower (t :: u :: ts) = do
      let s ← lower t
      return .run s.separated s.code :: (← body lower (u :: ts)) := by
  rw [body]
  simp

theorem body_congr : ∀ ts : List Term, (∀ t ∈ ts, l₁ t = l₂ t) → body l₁ ts = body l₂ ts
  | [], _ => rfl
  | [t], h => by rw [body, body, h t (by simp)]
  | t :: u :: ts, h => by
    rw [body_cons_cons, body_cons_cons, h t (by simp),
      body_congr (u :: ts) fun v hv => h v (List.mem_cons_of_mem t hv)]

theorem bindPairs_congr :
    ∀ ts : List Term, (∀ t ∈ ts, l₁ t = l₂ t) → bindPairs l₁ ts = bindPairs l₂ ts
  | [], _ => rfl
  | [_], _ => rfl
  | left :: right :: rest, h => by
    rw [bindPairs, bindPairs, eval_congr (h right (by simp)),
      bindPairs_congr rest fun t ht => h t (by simp [ht])]

theorem itemTests_congr (subject : Code) :
    ∀ (ts : List Term) (index : Nat), (∀ t ∈ ts, l₁ t = l₂ t) →
      itemTests l₁ subject ts index = itemTests l₂ subject ts index
  | [], _, _ => rfl
  | t :: ts, index, h => by
    rw [itemTests, itemTests, eval_congr (h t (by simp)),
      itemTests_congr subject ts (index + 1) fun u hu => h u (by simp [hu])]

theorem bindings_congr {c : Call} (h : AgreeBelow c.term.rank l₁ l₂) :
    bindings l₁ c = bindings l₂ c := by
  obtain ⟨target, args, span⟩ := c
  match args with
  | [] => rfl
  | .list pairs s :: ts =>
    have hp := (h.of_mem (.list pairs s) (by simp)).items
    have hb := body_congr ts fun t ht => h.args t (by simp [ht])
    simp only [bindings, bindPairs_congr pairs hp, hb]
  | .table .. :: _ | .call .. :: _ | .path _ :: _ | .number _ :: _ | .string _ :: _
  | .symbol _ :: _ | .name _ :: _ | .wildcard _ :: _ => rfl

theorem conditional_congr {c : Call} (h : AgreeBelow c.term.rank l₁ l₂) :
    conditional l₁ c = conditional l₂ c := by
  obtain ⟨target, args, span⟩ := c
  match args with
  | [] | [_] => rfl
  | test :: yes :: no =>
    have hb := body_congr no fun t ht => h.args t (by simp [ht])
    simp only [conditional, eval_congr (h.args test (by simp)), eval_congr (h.args yes (by simp)),
      hb]

theorem caseTest_congr (subject : Code) {t : Term} (h : l₁ t = l₂ t)
    (hi : AgreeBelow t.rank l₁ l₂) : caseTest l₁ subject t = caseTest l₂ subject t := by
  cases t with
  | list items span => simp only [caseTest, itemTests_congr subject items 0 hi.items]
  | _ => simp only [caseTest, eval_congr h]

theorem arms_congr (subject : Code) :
    ∀ (ts : List Term) (seen : Bool), (∀ t ∈ ts, l₁ t = l₂ t ∧ AgreeBelow t.rank l₁ l₂) →
      arms l₁ subject ts seen = arms l₂ subject ts seen
  | [], _, _ => rfl
  | [_], _, _ => rfl
  | left :: right :: rest, seen, h => by
    have ih seen := arms_congr subject rest seen fun t ht => h t (by simp [ht])
    obtain ⟨hl, hi⟩ := h left (by simp)
    simp only [arms, ih, eval_congr (h right (by simp)).1, caseTest_congr subject hl hi]

theorem mem_of_fallback? : ∀ {ts : List Term} {t : Term}, fallback? ts = some t → t ∈ ts
  | [], _, h => by cases h
  | [_], _, h => by cases h
  | left :: right :: rest, t, h => by
    rw [fallback?] at h
    cases hr : fallback? rest with
    | some u =>
      have := mem_of_fallback? hr
      simp_all
    | none =>
      rw [hr] at h
      by_cases hl : left.isName "_" <;> simp_all

theorem matching_congr {c : Call} (h : AgreeBelow c.term.rank l₁ l₂) :
    matching l₁ c = matching l₂ c := by
  obtain ⟨target, args, span⟩ := c
  match args with
  | [] => rfl
  | value :: cases =>
    have mem {t : Term} (ht : t ∈ cases) : t ∈ value :: cases := List.mem_cons_of_mem value ht
    have ha subject := arms_congr subject cases false fun t ht =>
      ⟨h.args t (mem ht), h.of_mem t (mem ht)⟩
    have hf : ((fallback? cases).mapM fun t => body l₁ [t]) =
        (fallback? cases).mapM fun t => body l₂ [t] := by
      cases hf : fallback? cases with
      | none => rfl
      | some t =>
        have := h.args t (mem (mem_of_fallback? hf))
        simp only [Option.mapM_some, body_congr [t] (by simpa using this)]
    simp only [matching, eval_congr (h.args value (by simp)), ha, hf]

theorem loopSource_congr {t : Term} (h : l₁ t = l₂ t) (hi : AgreeBelow t.rank l₁ l₂) :
    loopSource l₁ t = loopSource l₂ t := by
  cases t with
  | call target bounds span =>
    have hb := evalAll_congr bounds fun t ht => hi t (Term.rank_lt_call target span ht)
    cases target <;> simp only [loopSource, eval_congr h, hb]
  | _ => simp only [loopSource, eval_congr h]

theorem loop_congr {c : Call} (h : AgreeBelow c.term.rank l₁ l₂) : loop l₁ c = loop l₂ c := by
  obtain ⟨target, args, span⟩ := c
  match args with
  | [] => rfl
  | .list items s :: ts =>
    have hl := h.of_mem (.list items s) (by simp)
    have inner {t : Term} (ht : t ∈ items) : AgreeBelow t.rank l₁ l₂ := fun u hu =>
      hl u (Nat.lt_trans hu (Term.rank_lt_list s ht))
    have ht := evalAll_congr ts fun t ht => h.args t (by simp [ht])
    match items with
    | [item, source] =>
      simp only [loop, loopSource_congr (hl.items source (by simp)) (inner (by simp)), ht]
    | [item, key, source] => simp only [loop, eval_congr (hl.items source (by simp)), ht]
    | [] | [_] | _ :: _ :: _ :: _ :: _ => rfl
  | .table .. :: _ | .call .. :: _ | .path _ :: _ | .number _ :: _ | .string _ :: _
  | .symbol _ :: _ | .name _ :: _ | .wildcard _ :: _ => rfl

theorem attempt_congr (ts : List Term) (h : ∀ t ∈ ts, l₁ t = l₂ t) :
    attempt l₁ ts = attempt l₂ ts := by
  simp only [attempt]
  rw [body_congr _ fun t ht => h t (List.mem_filter.1 ht).1,
    body_congr (ts.filter Term.isCatch) fun t ht => h t (List.mem_filter.1 ht).1]

theorem handler_congr {c : Call} (h : AgreeBelow c.term.rank l₁ l₂) :
    handler l₁ c = handler l₂ c := by
  obtain ⟨target, args, span⟩ := c
  match args with
  | [] => rfl
  | .list items s :: ts =>
    have hb := body_congr ts fun t ht => h.args t (by simp [ht])
    simp only [handler, hb]
  | .table .. :: _ | .call .. :: _ | .path _ :: _ | .number _ :: _ | .string _ :: _
  | .symbol _ :: _ | .name _ :: _ | .wildcard _ :: _ => rfl

theorem closure_congr (formals ts : List Term) (h : ∀ t ∈ ts, l₁ t = l₂ t) :
    closure l₁ formals ts = closure l₂ formals ts := by
  cases ts with
  | nil => rfl
  | cons t ts => simp only [closure, body_congr (t :: ts) h]

theorem lambda_congr {c : Call} (h : AgreeBelow c.term.rank l₁ l₂) :
    lambda l₁ c = lambda l₂ c := by
  obtain ⟨target, args, span⟩ := c
  match args with
  | [] => rfl
  | .list items s :: ts =>
    have hb := closure_congr items ts fun t ht => h.args t (by simp [ht])
    simp only [lambda, hb]
  | .table .. :: _ | .call .. :: _ | .path _ :: _ | .number _ :: _ | .string _ :: _
  | .symbol _ :: _ | .name _ :: _ | .wildcard _ :: _ => rfl

theorem named_congr (isPure hidden : Bool) (token : Token) (formals rest : List Term)
    (h : ∀ t ∈ rest, l₁ t = l₂ t) :
    named l₁ isPure hidden token formals rest = named l₂ isPure hidden token formals rest := by
  have hc := closure_congr formals (if isGlobal rest then rest.drop 1 else rest) fun t ht => h t (by
    split at ht
    · exact List.mem_of_mem_drop ht
    · exact ht)
  simp only [named, hc]

theorem function_congr (isPure hidden : Bool) {c : Call} (h : ∀ t ∈ c.args, l₁ t = l₂ t) :
    function l₁ c isPure hidden = function l₂ c isPure hidden := by
  obtain ⟨target, args, span⟩ := c
  simp only [function]
  split
  · rename_i t formals s rest
    rw [named_congr isPure hidden t formals rest fun u hu => h u (by simp_all)]
  · rfl
  · rfl
  · rfl

theorem define_congr (isPure : Bool) {c : Call} (h : ∀ t ∈ c.args, l₁ t = l₂ t) :
    define l₁ c isPure = define l₂ c isPure := by
  obtain ⟨target, args, span⟩ := c
  simp only [define]
  split
  · rename_i t formals s b bs
    rw [named_congr isPure false t formals (b :: bs) fun u hu => h u (by simp_all)]
  · rename_i t value
    rw [eval_congr (h value (by simp))]
  · rfl

theorem operator_congr (op : Operator) {c : Call} (h : ∀ t ∈ c.args, l₁ t = l₂ t) :
    operator l₁ op c = operator l₂ op c := by
  have hm : (c.args.mapM fun t => return operand (← eval l₁ t)) =
      c.args.mapM fun t => return operand (← eval l₂ t) :=
    mapM_congr fun t ht => by rw [eval_congr (h t ht)]
  simp only [operator, hm]

theorem negation_congr {c : Call} (h : ∀ t ∈ c.args, l₁ t = l₂ t) :
    negation l₁ c = negation l₂ c := by
  simp only [negation]
  split
  · rename_i t ht
    rw [eval_congr (h t (by simp [ht]))]
  · rfl

theorem importModule_congr (ts : List Term) (span : Span) (h : ∀ t ∈ ts, l₁ t = l₂ t) :
    importModule l₁ ts span = importModule l₂ ts span := by
  match ts with
  | [] => rfl
  | [source] =>
    have := eval_congr (h source (by simp))
    cases source <;> simp only [importModule, importWhole, this]
  | [_, _] => rfl
  | [binding, word, source] => simp only [importModule, eval_congr (h source (by simp))]
  | _ :: _ :: _ :: _ :: _ => rfl

theorem moduleImport_congr {clause : Term} (h : AgreeBelow clause.rank l₁ l₂) :
    moduleImport l₁ clause = moduleImport l₂ clause := by
  cases clause with
  | list items span =>
    simp only [moduleImport, importClause, pure_bind]
    match items with
    | [] => rfl
    | .symbol t :: rest =>
      have hr := importModule_congr rest (Term.list (.symbol t :: rest) span).span fun u hu =>
        h.items u (by simp [hu])
      simp only [hr]
    | .list .. :: _ | .table .. :: _ | .call .. :: _ | .path _ :: _ | .number _ :: _
    | .string _ :: _ | .name _ :: _ | .wildcard _ :: _ => rfl
  | call target args span =>
    have ha := importModule_congr args (Term.call target args span).span fun u hu =>
      h u (Term.rank_lt_call target span hu)
    cases target <;> simp only [moduleImport, importClause, pure_bind, ha]
  | _ => rfl

theorem nameModule_congr {c : Call} (h : AgreeBelow c.term.rank l₁ l₂) :
    nameModule l₁ c = nameModule l₂ c := by
  obtain ⟨target, args, span⟩ := c
  match args with
  | [] => rfl
  | .name t :: clauses =>
    have hm : clauses.mapM (moduleImport l₁) = clauses.mapM (moduleImport l₂) :=
      mapM_congr fun u hu => moduleImport_congr (h.of_mem u (List.mem_cons_of_mem _ hu))
    simp only [nameModule, hm]
  | .list .. :: _ | .table .. :: _ | .call .. :: _ | .path _ :: _ | .number _ :: _ | .string _ :: _
  | .symbol _ :: _ | .wildcard _ :: _ => rfl

/-- Sugar lowers one term only, the one it stands for. -/
theorem desugared_congr {r : Except Fault Term} (h : ∀ t, r = .ok t → l₁ t = l₂ t) :
    desugared l₁ r = desugared l₂ r := by
  cases r with
  | error f => rfl
  | ok t =>
    show (ofExcept (.ok t) >>= fun t => eval l₁ t) = (ofExcept (.ok t) >>= fun t => eval l₂ t)
    simp only [ofExcept, pure_bind, eval_congr (h t rfl)]

theorem expand_congr {form : Form} {c : Call} (h : AgreeBelow c.term.rank l₁ l₂)
    (hr : form.isSugar = true → Term.rankSum c.args < c.term.rank) :
    expand l₁ form c = expand l₂ form c := by
  have below {t : Term} (hf : form.isSugar = true) (ht : t.rank ≤ Term.rankSum c.args) :
      l₁ t = l₂ t := h t (Nat.lt_of_le_of_lt ht (hr hf))
  cases form with
  | define isPure => simp only [expand, define_congr isPure h.args]
  | function isPure hidden => simp only [expand, function_congr isPure hidden h.args]
  | declare => rfl
  | importModule => simp only [expand, importModule_congr c.args c.span h.args]
  | nameModule => simp only [expand, nameModule_congr h]
  | bindings => simp only [expand, bindings_congr h]
  | conditional => simp only [expand, conditional_congr h]
  | matching => simp only [expand, matching_congr h]
  | block => simp only [expand, block, body_congr c.args h.args]
  | loop => simp only [expand, loop_congr h]
  | lambda => simp only [expand, lambda_congr h]
  | attempt => simp only [expand, attempt_congr c.args h.args]
  | handler => simp only [expand, handler_congr h]
  | arguments => rfl
  | threadFirst | threadLast =>
    simp only [expand, desugared_congr fun t ht => below rfl (Term.rank_thread ht)]
  | fanFirst | fanLast =>
    simp only [expand, desugared_congr fun t ht => below rfl (Term.rank_fan ht)]
  | negation => simp only [expand, negation_congr h.args]
  | operator op => simp only [expand, operator_congr op h.args]
  | parity => simp only [expand, desugared_congr fun t ht => below rfl (Term.rank_parity ht)]

theorem isSugared_of_find? {s : Session} {name : String} {m : Meaning} {form : Form}
    (hm : s.find? name = some m) (hf : m.form? = some form) :
    isSugared name = form.isSugar := by
  simp only [Session.find?] at hm
  split at hm
  · cases hm
    cases hf
  · obtain ⟨e, he, rfl⟩ := Option.map_eq_some_iff.1 hm
    obtain ⟨_, _, _ | ⟨form', _⟩⟩ := e
    · cases hf
    · cases hf
      rw [isSugared, he]

theorem through_congr {c : Call} {s : Session} {t : Token} {m : Meaning} (hc : c.target = .name t)
    (hm : s.find? t.text = some m) (h : AgreeBelow c.term.rank l₁ l₂) :
    through l₁ m c = through l₂ m c := by
  cases hf : m.form? with
  | none => simp only [through, hf, args_congr c.args h.args]
  | some form =>
    have he : expand l₁ form c = expand l₂ form c := expand_congr h fun hr => by
      rw [Call.term, hc, Term.rank, isSugared_of_find? hm hf, hr]
      simp
    simp only [through, hf, he]

theorem dispatch_congr {c : Call} (h : AgreeBelow c.term.rank l₁ l₂) :
    dispatch l₁ c = dispatch l₂ c := by
  obtain ⟨target, args, span⟩ := c
  have ha := args_congr args h.args
  cases target with
  | symbol t => exact h _ (Term.rank_indexed_lt ⟨.symbol t, args, span⟩ t (.inl rfl))
  | number t => exact h _ (Term.rank_indexed_lt ⟨.number t, args, span⟩ t (.inr rfl))
  | wildcard t => simp only [dispatch, ha]
  | path p => simp only [dispatch, ha]
  | name t => exact resolve_bind_congr fun s m hm => by rw [through_congr rfl hm h]
  | _ => rfl

theorem call_congr {c : Call} (h : AgreeBelow c.term.rank l₁ l₂) : call l₁ c = call l₂ c := by
  rw [call, call, dispatch_congr h]

theorem step_congr {t : Term} (h : AgreeBelow t.rank l₁ l₂) : step l₁ t = step l₂ t := by
  cases t with
  | call target args span =>
    show call l₁ ⟨target, args, span⟩ = call l₂ ⟨target, args, span⟩
    exact call_congr h
  | list items span => simp only [step, evalAll_congr items h.items]
  | table items escaped span =>
    simp only [step, table_congr items escaped fun t ht => h t (Term.rank_lt_table escaped span ht)]
  | _ => rfl

end

/-- Any depth that is at least the rank of a term is enough to lower it. -/
theorem within_eq_term {n : Nat} {t : Term} (h : t.rank ≤ n) : within n t = term t := by
  induction n using Nat.strongRecOn generalizing t with
  | ind n ih =>
    obtain ⟨r, hr⟩ := Nat.exists_eq_add_one.2 t.rank_pos
    obtain ⟨m, rfl⟩ : ∃ m, n = m + 1 := ⟨n - 1, by omega⟩
    rw [term, hr, within, within]
    refine step_congr fun u hu => ?_
    rw [ih m (by omega) (by omega)]
    rcases Nat.lt_or_ge r (m + 1) with hlt | hge
    · exact (ih r hlt (by omega)).symm
    · omega

/-- Lowering a term is one step that lowers the terms inside in the same way. -/
theorem term_eq_step (t : Term) : term t = step term t := by
  obtain ⟨r, hr⟩ := Nat.exists_eq_add_one.2 t.rank_pos
  rw [term, hr, within]
  exact step_congr fun u hu => within_eq_term (by omega)

end Gen
end LispLua
