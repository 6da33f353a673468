import LispLua.Compile
import LispLua.Proofs.Lowering.Sound
import LispLua.Proofs.Pairing.Forms

/-!
# Programs side by side

Corresponding terms are lowered to the same code, or refused for corresponding faults, and so are
corresponding programs. The terms that sugar stands for correspond if the sugar does, which is why
the proof goes by the rank and not by the structure of terms.

An argument without a value is refused in the middle of its row, but what makes sense of the fault
is the whole call: the arguments in front of it decide what its name refers to. So between an
argument and its call there is one more kind of fault, `Gen.Pairing.CallFault`.
-/

namespace LispLua.Gen

open Lua

/-- A name in a row of arguments refers, when its turn comes, to a special form that no function
stands for. -/
def Unvalued (lower : Lower) (job : Job) (s : Session) (ts : List Term) (t : Token) : Prop :=
  ∃ front behind codes s' m, ts = front ++ .name t :: behind ∧
    (args lower front).exec job s = (.ok codes, s') ∧ s'.find? t.text = some m ∧
    m.isForm = true ∧ m.function? = none

theorem Unvalued.cons {lower : Lower} {job : Job} {s s' : Session} {t : Term} {ts : List Term}
    {token : Token} {code : Code} (hexec : (arg lower t).exec job s = (.ok code, s'))
    (h : Unvalued lower job s' ts token) : Unvalued lower job s (t :: ts) token := by
  obtain ⟨front, behind, codes, s'', m, hts, hfront, hm⟩ := h
  refine ⟨t :: front, behind, code :: codes, s'', m, by rw [hts, List.cons_append], ?_, hm⟩
  rw [args] at hfront ⊢
  rw [List.mapM_cons, exec_bind, hexec]
  show Gen.exec (List.mapM (arg lower) front >>= fun codes => pure (code :: codes)) job s' = _
  rw [exec_bind, hfront]
  rfl

namespace Pairing

variable {p : Pairing} {n : Nat}

/-! ### Sugar -/

theorem terms_named {nm : String} {sp sp' : Span} {ts ts' : List Term} (hn : p.name nm)
    (hsp : p.span sp sp') (h : List.Forall₂ p.Terms ts ts') :
    p.Terms (Term.named nm sp ts) (Term.named nm sp' ts') :=
  .call (.name ⟨⟨rfl, hsp⟩, hn⟩) (fun _ hc => by cases hc) h hsp

theorem terms_exclusive {sp sp' : Span} {a a' b b' : Term} (hsp : p.span sp sp')
    (ha : p.Terms a a') (hb : p.Terms b b') :
    p.Terms (Term.exclusive sp a b) (Term.exclusive sp' a' b') := by
  have hand := p.implied "and" (by decide)
  have hnot := p.implied "not" (by decide)
  refine terms_named (p.implied "or" (by decide)) hsp (.cons ?_ (.cons ?_ .nil))
  · exact terms_named hand hb.span (.cons (terms_named hnot ha.span (.cons ha .nil)) (.cons hb .nil))
  · exact terms_named hand ha.span (.cons ha (.cons (terms_named hnot hb.span (.cons hb .nil)) .nil))

theorem terms_indexed {c c' : Call} (h : p.Terms c.term c'.term) {t : Token}
    (ht : c.target = .symbol t ∨ c.target = .number t) :
    p.Terms c.indexed.term c'.indexed.term := by
  obtain ⟨target, args, sp⟩ := c
  obtain ⟨target', args', sp'⟩ := c'
  have hlist := p.implied "list/get" (by decide)
  have htable := p.implied "table/get" (by decide)
  cases h with
  | call htarget _ hargs hsp =>
    have hcall {getter : String} {k k' : Term} (hn : p.name getter) (hk : p.Terms k k') :
        p.Terms (.call (.name ⟨getter, target.span⟩) (k :: args) sp)
          (.call (.name ⟨getter, target'.span⟩) (k' :: args') sp') :=
      .call (.name ⟨⟨rfl, htarget.span⟩, hn⟩) (fun _ hc => by cases hc) (.cons hk hargs) hsp
    cases htarget with
    | symbol hsymbol =>
      simp only [Call.indexed, Call.term, Term.indexer, hsymbol.text]
      split
      · exact hcall hlist (.number hsymbol)
      · exact hcall htable (.symbol hsymbol)
    | number hnumber => exact hcall hlist (.number hnumber)
    | _ => rcases ht with ht | ht <;> cases ht

/-- What two pieces of sugar stand for: corresponding terms or corresponding faults. -/
inductive Results {α β : Type} (p : Pairing) (V : α → β → Prop) :
    Except Fault α → Except Fault β → Prop
  | ok {a : α} {b : β} : V a b → Results p V (.ok a) (.ok b)
  | error {c : Cause} {sp sp' : Span} : p.cause c → p.span sp sp' →
      Results p V (.error ⟨c, sp⟩) (.error ⟨c, sp'⟩)

theorem Results.bind {α β γ δ : Type} {V : α → β → Prop} {W : γ → δ → Prop} {r : Except Fault α}
    {r' : Except Fault β} {k : α → Except Fault γ} {k' : β → Except Fault δ}
    (h : p.Results V r r') (hk : ∀ a b, V a b → p.Results W (k a) (k' b)) :
    p.Results W (r >>= k) (r' >>= k') := by
  cases h with
  | ok hab => exact hk _ _ hab
  | error hc hsp => exact .error hc hsp

theorem results_feed (slot : Slot) {v v' t t' : Term} (hv : p.Terms v v') (h : p.Terms t t') :
    p.Results p.Terms (Term.feed slot v t) (Term.feed slot v' t') := by
  have hspan := h.span
  cases h with
  | call ht hr hts hsp =>
    cases slot with
    | first => exact .ok (.call ht hr (.cons hv hts) hsp)
    | last => exact .ok (.call ht hr (List.rel_append hts (.cons hv .nil)) hsp)
  | _ => exact .error (p.ordinary rfl) hspan

theorem results_thread (slot : Slot) {ts ts' : List Term} {sp sp' : Span}
    (h : List.Forall₂ p.Terms ts ts') (hsp : p.span sp sp') :
    p.Results p.Terms (Term.thread slot ts sp) (Term.thread slot ts' sp') := by
  cases h with
  | nil => exact .error (p.ordinary rfl) hsp
  | @cons v v' _ _ hv hts =>
    simp only [Term.thread]
    induction hts generalizing v v' with
    | nil => exact .ok hv
    | cons ht _ ih =>
      rw [List.foldlM_cons, List.foldlM_cons]
      exact (results_feed slot hv ht).bind fun _ _ hu => ih hu

theorem results_fan (slot : Slot) {ts ts' : List Term} {sp sp' : Span}
    (h : List.Forall₂ p.Terms ts ts') (hsp : p.span sp sp') :
    p.Results p.Terms (Term.fan slot ts sp) (Term.fan slot ts' sp') := by
  cases h with
  | nil => exact .error (p.ordinary rfl) hsp
  | @cons v v' ts ts' hv hts =>
    have hfed : p.Results (List.Forall₂ p.Terms) (ts.mapM (Term.feed slot v))
        (ts'.mapM (Term.feed slot v')) := by
      induction hts with
      | nil => exact .ok .nil
      | cons ht _ ih =>
        rw [List.mapM_cons, List.mapM_cons]
        exact (results_feed slot hv ht).bind fun _ _ hu => ih.bind fun _ _ hus => .ok (.cons hu hus)
    exact hfed.bind fun _ _ hus => .ok (.list hus hsp)

theorem results_parity {ts ts' : List Term} {sp sp' : Span} (h : List.Forall₂ p.Terms ts ts')
    (hsp : p.span sp sp') : p.Results p.Terms (Term.parity ts sp) (Term.parity ts' sp') := by
  cases h with
  | nil => exact .error (p.ordinary rfl) hsp
  | @cons a a' _ _ ha hts =>
    refine .ok ?_
    induction hts generalizing a a' with
    | nil => exact ha
    | cons hb _ ih => exact ih (terms_exclusive hsp ha hb)

/-! ### Faults of calls -/

/-- The faults of a call that were not yet put down to it: those of what it is made of, and that one
of its arguments has no value. -/
inductive CallFault (p : Pairing) (lower : Lower) (j : Job) (s : Session) (ts : List Term)
    (u : List Step) : Fault → Fault → Prop
  | inside {f f' : Fault} : p.fault j u f f' → CallFault p lower j s ts u f f'
  | unvalued {t : Token} {sp' : Span} : Unvalued lower j s ts t → p.span t.span sp' →
      CallFault p lower j s ts u ⟨.noFunctionFor t.text, t.span⟩ ⟨.noFunctionFor t.text, sp'⟩

/-- An argument without a value is a fault of its call. -/
def Accounts (p : Pairing) (lower : Lower) : Prop :=
  ∀ ⦃j : Job⦄ ⦃c : Call⦄ ⦃s : Session⦄ ⦃t : Token⦄ ⦃sp' : Span⦄ (u : List Step),
    Unvalued lower j s c.args t → p.span t.span sp' →
    p.fault j [.call c s u] ⟨.noFunctionFor t.text, t.span⟩ ⟨.noFunctionFor t.text, sp'⟩

/-- In a pairing that takes every cause, nothing is left to account for. -/
theorem accounts_of_cause (p : Pairing) (h : ∀ c, p.cause c) (lower : Lower) : p.Accounts lower :=
  fun j c s t _ u _ hsp => by
    have hfault := p.fault_append u (p.fault_refuse (j := j) (h (.noFunctionFor t.text)) hsp)
    rw [List.append_nil] at hfault
    exact p.fault_call c s hfault

theorem CallFault.append {lower : Lower} {j : Job} {s : Session} {ts : List Term} {v : List Step}
    {f f' : Fault} (u : List Step) (h : p.CallFault lower j s ts v f f') :
    p.CallFault lower j s ts (u ++ v) f f' := by
  cases h with
  | inside h => exact .inside (p.fault_append u h)
  | unvalued h hsp => exact .unvalued h hsp

section

variable {α β : Type} {V : α → β → Prop} {j j' : Job} {s s' : Session}

/-- What keeps to a pairing does so as a part of a call. -/
theorem Runs.inside {g : Gen α} {h : Gen β} (hg : p.Runs V g h) (hj : p.job j j')
    (hs : p.session s s') {lower : Lower} {s₀ : Session} {ts : List Term} :
    p.RunsFrom (p.CallFault lower j s₀ ts) V g h j j' s s' :=
  (hg hj hs).imp (fun _ _ => .inside) fun _ _ => id

namespace Lowers

variable {l₁ l₂ : Lower} (hl : p.Lowers l₁ l₂ n)

include hl

theorem arg {t t' : Term} (h : p.Below n t t') (hj : p.job j j') (hs : p.session s s')
    (ts : List Term) :
    p.RunsFrom (p.CallFault l₁ j s (t :: ts)) Eq (Gen.arg l₁ t) (Gen.arg l₂ t') j j' s s' := by
  have heval := hl.eval h
  cases h.terms with
  | name ht =>
    rw [Gen.arg, Gen.arg, ht.text]
    refine ((runs_find? ht.name).inside hj hs).bind CallFault.append ?_
    intro m _ s₁ s₁' hm hs₁ hexec
    cases hm
    cases hexec
    cases hm : s.find? _ with
    | none => exact heval.inside hj hs₁
    | some m =>
      show RunsFrom p _ _ (if m.isForm then _ else _) (if m.isForm then _ else _) _ _ _ _
      cases hform : m.isForm with
      | false => exact heval.inside hj hs₁
      | true =>
        rw [if_pos rfl, if_pos rfl]
        cases hfunction : m.function? with
        | some f => exact .ok rfl hs₁
        | none =>
          exact .error (.unvalued ⟨[], ts, [], s, m, rfl, rfl, hm, hform, hfunction⟩ ht.span) hs₁
  | _ => exact heval.inside hj hs

theorem args {ts ts' : List Term} (h : List.Forall₂ (p.Below n) ts ts') (hj : p.job j j')
    (hs : p.session s s') :
    p.RunsFrom (p.CallFault l₁ j s ts) Eq (Gen.args l₁ ts) (Gen.args l₂ ts') j j' s s' := by
  induction h generalizing s s' with
  | nil => exact .ok rfl hs
  | @cons t _ ts _ ht _ ih =>
    rw [Gen.args, Gen.args, List.mapM_cons, List.mapM_cons]
    refine (hl.arg ht hj hs ts).bind CallFault.append fun code _ s₁ s₁' heq hs₁ hexec => ?_
    have hrest : p.RunsFrom (p.CallFault l₁ j s (t :: ts)) Eq _ _ j j' s₁ s₁' :=
      (ih hs₁).imp (fun f f' hf => by
        cases hf with
        | inside hf => exact .inside hf
        | unvalued hf hsp => exact .unvalued (hf.cons hexec) hsp) fun _ _ => id
    cases heq
    refine hrest.bind CallFault.append fun codes _ s₂ s₂' heq hs₂ _ => ?_
    cases heq
    exact .ok rfl hs₂

/-- The arguments of a call, and what is made of them. -/
theorem argsThen {α : Type} {ts ts' : List Term} (h : List.Forall₂ (p.Below n) ts ts')
    (hj : p.job j j') (hs : p.session s s') {k : List Code → Gen α}
    (hk : ∀ codes, p.Runs Eq (k codes) (k codes)) :
    p.RunsFrom (p.CallFault l₁ j s ts) Eq (Gen.args l₁ ts >>= k) (Gen.args l₂ ts' >>= k) j j'
      s s' :=
  (hl.args h hj hs).bind CallFault.append fun codes _ _ _ heq hs₁ _ => by
    cases heq
    exact (hk codes).inside hj hs₁

/-! ### Calls -/

theorem desugared {r r' : Except Fault Term} (h : p.Results p.Terms r r')
    (hn : ∀ t, r = .ok t → t.rank < n) :
    p.Runs Eq (Gen.desugared l₁ r) (Gen.desugared l₂ r') := by
  cases h with
  | ok ht => exact hl.eval ⟨hn _ rfl, ht⟩
  | error hc hsp => exact .refuse hc hsp

theorem expand {form : Form} {c c' : Call} (h : p.Calls n c c')
    (hn : form.isSugar = true → Term.rankSum c.args < n) :
    p.Runs Eq (Gen.expand l₁ form c) (Gen.expand l₂ form c') := by
  have hargs := forall₂_terms h.args
  have below {t : Term} (hform : form.isSugar = true) (ht : t.rank ≤ Term.rankSum c.args) :
      t.rank < n := Nat.lt_of_le_of_lt ht (hn hform)
  cases form with
  | define isPure => exact runs_plain (hl.define isPure h)
  | function isPure hidden => exact runs_plain (hl.function isPure hidden h)
  | declare => exact runs_declare h
  | importModule => exact runs_plain (hl.importModule h.args h.span)
  | nameModule => exact runs_plain (hl.nameModule h)
  | bindings => exact runs_plain (hl.bindings h)
  | conditional => exact runs_plain (hl.conditional h)
  | matching => exact runs_plain (hl.matching h)
  | block => exact runs_plain (hl.block h.args)
  | loop => exact runs_plain (.inLayer none (hl.loop h))
  | lambda => exact runs_plain (hl.lambda h)
  | attempt => exact runs_plain (hl.attempt h.args)
  | handler => exact runs_plain (hl.handler h)
  | arguments => exact runs_plain (.pure rfl)
  | threadFirst | threadLast =>
    exact runs_plain (hl.desugared (results_thread _ hargs h.span) fun _ ht =>
      below rfl (Term.rank_thread ht))
  | fanFirst | fanLast =>
    exact runs_plain (hl.desugared (results_fan _ hargs h.span) fun _ ht =>
      below rfl (Term.rank_fan ht))
  | negation => exact runs_plain (hl.negation h)
  | operator op => exact runs_plain (hl.operator op h)
  | parity =>
    exact runs_plain (hl.desugared (results_parity hargs h.span) fun _ ht =>
      below rfl (Term.rank_parity ht))

theorem through {m : Meaning} {c c' : Call} (h : p.Calls n c c')
    (hn : ∀ form, m.form? = some form → form.isSugar = true → Term.rankSum c.args < n)
    (hj : p.job j j') (hs : p.session s s') :
    p.RunsFrom (p.CallFault l₁ j s c.args) Eq (Gen.through l₁ m c) (Gen.through l₂ m c') j j'
      s s' := by
  rw [Gen.through, Gen.through]
  cases hform : m.form? with
  | some form => exact (hl.expand h (hn form hform)).inside hj hs
  | none =>
    refine RunsFrom.bind CallFault.append
      (hl.argsThen h.args hj hs fun _ => (runs_reference m).mapEq) ?_
    intro code _ s₁ s₁' heq hs₁ _
    cases heq
    exact .ok rfl hs₁

/-- A call through a name. What the name means decides whether the call is sugar, and with that its
rank. -/
theorem dispatchName {t t' : Token} {ts ts' : List Term} {sp sp' : Span} (ht : p.Names t t')
    (h : p.Calls n ⟨.name t, ts, sp⟩ ⟨.name t', ts', sp'⟩)
    (hn : n = (Call.mk (.name t) ts sp).term.rank) (hj : p.job j j') (hs : p.session s s') :
    p.RunsFrom (p.CallFault l₁ j s ts) Eq (Gen.dispatch l₁ ⟨.name t, ts, sp⟩)
      (Gen.dispatch l₂ ⟨.name t', ts', sp'⟩) j j' s s' := by
  rw [RunsFrom, exec, exec, steps, run_dispatch_name l₁ rfl, run_dispatch_name l₂ rfl, ht.text,
    p.find?_eq hs ht.name, p.isPure_eq hs]
  cases hm : s.find? t.text with
  | none => exact .error (.inside (p.fault_refuse (p.ordinary rfl) ht.span)) hs
  | some m =>
    simp only []
    cases s.isPure && m.isEffect with
    | true => exact .error (.inside (p.fault_refuse (p.ordinary rfl) h.span)) hs
    | false =>
      refine hl.through h (fun form hform hsugar => ?_) hj hs
      rw [hn, Call.term, Term.rank, isSugared_of_find? hm hform, hsugar, if_pos rfl]
      exact Nat.lt_succ_self _

theorem dispatch {c c' : Call} (h : p.Terms c.term c'.term) (hn : n = c.term.rank)
    (hj : p.job j j') (hs : p.session s s') :
    p.RunsFrom (p.CallFault l₁ j s c.args) Eq (Gen.dispatch l₁ c) (Gen.dispatch l₂ c') j j'
      s s' := by
  have hindexed {t : Token} (ht : c.target = .symbol t ∨ c.target = .number t) :
      p.Runs Eq (l₁ c.indexed.term) (l₂ c'.indexed.term) :=
    hl _ _ ⟨hn ▸ Term.rank_indexed_lt c t ht, terms_indexed h ht⟩
  obtain ⟨target, args, sp⟩ := c
  obtain ⟨target', args', sp'⟩ := c'
  cases h with
  | call htarget hrefusal hterms hsp =>
    have hargs : List.Forall₂ (p.Below n) args args' :=
      forall₂_below hterms fun _ hmem => hn ▸ Term.rank_lt_call target sp hmem
    have hcall {callee : Code} : p.RunsFrom (p.CallFault l₁ j s args) Eq
        (plain do return .call callee (← Gen.args l₁ args))
        (plain do return .call callee (← Gen.args l₂ args')) j j' s s' := by
      simp only [plain, bind_assoc, pure_bind]
      exact hl.argsThen hargs hj hs fun _ => .pure rfl
    cases htarget with
    | symbol _ => exact (hindexed (.inl rfl)).inside hj hs
    | number _ => exact (hindexed (.inr rfl)).inside hj hs
    | name ht => exact hl.dispatchName ht ⟨.name ht, hargs, hsp⟩ hn hj hs
    | @path q q' hq =>
      simp only [Gen.dispatch, plain, bind_assoc, pure_bind]
      refine ((runs_access hq).inside hj hs).bind CallFault.append ?_
      intro callee _ s₁ s₁' heq hs₁ hexec
      cases heq
      -- Access expressions leave the session alone, so the arguments start where the call does.
      obtain ⟨_, _, _, _, _, rfl⟩ := gives_access (gives_iff.2 ⟨hexec, rfl⟩)
      exact hl.argsThen hargs hj hs₁ fun _ => .pure rfl
    | @wildcard t t' ht =>
      by_cases htext : t.text = "#'"
      · simp only [Gen.dispatch, ht.text, htext, ne_eq, not_true_eq_false, if_false]
        exact hcall
      · have hcause : p.cause (.wildcardText t.text) :=
          hrefusal _ (by rw [Term.refusal?, if_neg htext])
        simp only [Gen.dispatch, ht.text, htext, ne_eq, not_false_eq_true, if_true]
        exact .error (.inside (p.fault_refuse hcause ht.span)) hs
    | list _ _ | table _ _ _ | call _ _ _ _ | string _ =>
      exact (Runs.refuse (hrefusal _ rfl) hsp).inside hj hs

theorem call (ha : p.Accounts l₁) {c c' : Call} (h : p.Terms c.term c'.term)
    (hn : n = c.term.rank) : p.Runs Eq (Gen.call l₁ c) (Gen.call l₂ c') := by
  intro j j' s s' hj hs
  have hdispatch := hl.dispatch h hn hj hs
  rw [RunsFrom] at hdispatch ⊢
  rw [Gen.call, Gen.call, exec_inCall, exec_inCall, steps_inCall]
  refine hdispatch.imp (fun f f' hf => ?_) fun _ _ => id
  cases hf with
  | inside hf => exact p.fault_call c s hf
  | unvalued hf hsp => exact ha _ hf hsp

/-- One step of lowering keeps to a pairing if lowering does below the rank of the term. -/
theorem step (ha : p.Accounts l₁) {t t' : Term} (h : p.Terms t t') (hn : n = t.rank) :
    p.Runs Eq (Gen.step l₁ t) (Gen.step l₂ t') := by
  cases h with
  | call htarget hrefusal hargs hsp => exact hl.call ha (.call htarget hrefusal hargs hsp) hn
  | @list items _ sp _ hitems _ =>
    refine runs_plain (hl.evalAll (forall₂_below hitems fun _ hmem => ?_)).mapEq
    exact hn ▸ Term.rank_lt_list sp hmem
  | @table items _ sp _ escaped hitems _ =>
    refine runs_plain (hl.table escaped (forall₂_below hitems fun _ hmem => ?_))
    exact hn ▸ Term.rank_lt_table escaped sp hmem
  | path hq => exact runs_plain (runs_pathValue hq)
  | name ht => exact runs_plain (runs_nameValue ht)
  | symbol ht | number ht | string ht =>
    rw [Gen.step, Gen.step, ht.text]
    exact .pure rfl
  | wildcard ht => exact .refuse (p.ordinary rfl) ht.span

end Lowers

end

/-! ### Programs -/

theorem runs_term (ha : p.Accounts term) {t t' : Term} (h : p.Terms t t') :
    p.Runs Eq (term t) (term t') := by
  induction hn : t.rank using Nat.strongRecOn generalizing t t' with
  | ind n ih =>
    have hl : p.Lowers term term n := fun u u' hu => ih u.rank hu.rank hu.terms rfl
    rw [term_eq_step, term_eq_step]
    exact hl.step ha h hn.symm

/-- Lowering keeps to a pairing below every rank. -/
theorem lowers_term (ha : p.Accounts term) (n : Nat) : p.Lowers term term n :=
  fun _ _ h => runs_term ha h.terms

theorem runs_statements (ha : p.Accounts term) {q q' : Program}
    (h : List.Forall₂ (fun c c' => p.Terms c.term c'.term) q q') :
    p.Runs Eq (statements q) (statements q') :=
  .mapEqM h fun _ _ => runs_term ha

theorem runs_chunk (ss : List Stmt) : p.Runs Eq (chunk ss) (chunk ss) := by
  refine runs_read.bind fun j j' hj => ?_
  have hget : p.Runs p.session get get := fun _ _ _ _ _ hs => .ok hs hs
  refine hget.bind fun s s' hs => ?_
  have hchunk : p.Runs Eq (pure ⟨j.options, s.package, ss⟩ : Gen Chunk)
      (pure ⟨j'.options, s'.package, ss⟩) := by
    rw [p.options_eq hj, p.package_eq hs]
    exact .pure rfl
  refine .ite (by rw [p.options_eq hj, p.moduleName_eq hs]) ?_ hchunk
  rw [Job.fallbackModule, Job.fallbackModule, p.sourceName_eq hj]
  exact (runs_log _).seq fun _ => hchunk

theorem runs_publish {j j' : Job} (hj : p.job j j') :
    p.Runs Eq (modify (·.publish j) : Gen PUnit) (modify (·.publish j')) := by
  intro _ _ s s' _ hs
  refine .ok rfl ?_
  show p.session (s.publish j) (s'.publish j')
  rw [Session.publish, Session.publish, Job.fallbackModule, Job.fallbackModule, p.options_eq hj,
    p.sourceName_eq hj, p.package_eq hs, p.moduleName_eq hs]
  exact p.session_rename s.moduleName _ hs

theorem runs_program (ha : p.Accounts term) {q q' : Program}
    (h : List.Forall₂ (fun c c' => p.Terms c.term c'.term) q q') :
    p.Runs Eq (program q) (program q') :=
  runs_read.bind fun _ _ hj => (runs_publish hj).seq fun _ => (runs_statements ha h).seq runs_chunk

end Pairing

end LispLua.Gen
