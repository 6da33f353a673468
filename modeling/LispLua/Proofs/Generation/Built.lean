import LispLua.Generate.Term
import LispLua.Proofs.Generation.Trace

/-!
# What forms are built from

Every special form is put together from a few actions: look-ups, declarations, layers, refusals and
the lowering of terms inside. This module says so once for all forms. Whatever holds of these
actions and of what is put together from them then holds of every form, without a look at any of
them.
-/

namespace LispLua.Gen

open Lua

/-- Where an action is allowed: anywhere, only outside pure functions, or only where a module is
named. -/
inductive Place where
  | anywhere
  | outside
  | naming
  deriving DecidableEq

theorem Place.anywhere_ne {q : Prop} (h : Place.anywhere = .outside) : q := by
  cases h

theorem Place.naming_ne {q : Prop} (h : Place.naming = .outside) : q := by
  cases h

/-- The generations that are put together from actions and the lowering of terms inside. Only
`unlessPure` leads outside pure functions. -/
inductive Built (lower : Lower) : Place → {α : Type} → Gen α → Prop
  | pure {p : Place} {α : Type} (a : α) : Built lower p (pure a)
  | bind {p : Place} {α β : Type} {g : Gen α} {k : α → Gen β} :
      Built lower p g → (∀ a, Built lower p (k a)) → Built lower p (g >>= k)
  | throw {p : Place} {α : Type} (f : Fault) : Built lower p (throw f : Gen α)
  | read {p : Place} : Built lower p read
  | find? {p : Place} (name : String) : Built lower p (find? name)
  | reference {p : Place} (m : Meaning) : Built lower p (reference m)
  | log {p : Place} (event : Event) : Built lower p (log event)
  | register {p : Place} (token : Token) (kind : Kind) (preserve : Bool) :
      Built lower p (register token kind .block preserve)
  | lower {p : Place} (t : Term) : Built lower p (lower t)
  | inLayer {p : Place} {α : Type} {g : Gen α} :
      Built lower .anywhere g → Built lower p (inLayer none g)
  | unlessPure {p : Place} {α : Type} {g : Gen α} (cause : Cause) (span : Span) :
      Built lower .outside g → Built lower p (unlessPure cause span g)
  | registerOutside (token : Token) (kind : Kind) (reach : Reach) (preserve : Bool) :
      Built lower .outside (Gen.register token kind reach preserve)
  | inFunction {α : Type} {g : Gen α} (isPure : Bool) :
      Built lower .anywhere g → Built lower .outside (Gen.inLayer (some isPure) g)
  | nameModule (name : String) :
      Built lower .naming (do modify (·.nameModule (← read).options name))

variable {lower : Lower} {p : Place} {α β : Type}

namespace Built

theorem refuse (cause : Cause) (span : Span) : Built lower p (Gen.refuse cause span : Gen α) :=
  .throw ⟨cause, span⟩

theorem ofExcept (r : Except Fault α) : Built lower p (Gen.ofExcept r) := by
  cases r with
  | ok a => exact .pure a
  | error f => exact .throw f

/-- A last step that makes the value. -/
theorem map {g : Gen α} (f : α → β) (hg : Built lower p g) :
    Built lower p (do return f (← g)) :=
  .bind hg fun _ => .pure _

theorem ite {c : Prop} [Decidable c] {g h : Gen α} (hg : Built lower p g) (hh : Built lower p h) :
    Built lower p (if c then g else h) := by
  split
  · exact hg
  · exact hh

/-- A condition under which the rest is refused. -/
theorem guard {c : Prop} [Decidable c] {g : Gen α} {cause : Cause} {span : Span}
    (hg : Built lower p g) :
    Built lower p (if c then (do (Gen.refuse cause span : Gen PUnit); g) else g) :=
  .ite (.bind (.refuse _ _) fun _ => hg) hg

theorem mapM {f : α → Gen β} (hf : ∀ a, Built lower p (f a)) (as : List α) :
    Built lower p (as.mapM f) := by
  induction as with
  | nil => exact .pure _
  | cons a as ih =>
    rw [List.mapM_cons]
    exact .bind (hf a) fun _ => .bind ih fun _ => .pure _

theorem foldlM {f : β → α → Gen β} (hf : ∀ b a, Built lower p (f b a)) (as : List α) (b : β) :
    Built lower p (as.foldlM f b) := by
  induction as generalizing b with
  | nil => exact .pure _
  | cons a as ih =>
    rw [List.foldlM_cons]
    exact .bind (hf b a) fun _ => ih _

end Built

/-! ### Values -/

theorem built_resolve (t : Token) : Built lower p (resolve t) := by
  refine .bind (.find? _) fun m => ?_
  cases m with
  | none => exact .refuse _ _
  | some m => exact .pure m

theorem built_thunk (body : Code) : Built lower p (thunk body) :=
  .map _ .read

theorem built_registerLocal (t : Token) : Built lower p (registerLocal t) :=
  .map _ (.register t _ _)

theorem built_nameValue (t : Token) : Built lower p (nameValue t) := by
  refine .bind (built_resolve t) fun m => .ite ?_ (.reference m)
  cases m.function? with
  | none => exact .refuse _ _
  | some f => exact .pure _

theorem built_segment (owner : Code) (s : Segment) : Built lower p (segment owner s) := by
  rw [segment]
  split
  · exact .pure _
  · exact .pure _
  · exact .refuse _ _
  · exact .refuse _ _

theorem built_access (path : Path) : Built lower p (access path) := by
  refine .bind (built_resolve path.root) fun m => ?_
  exact .guard (.bind (.reference m) fun _ => .foldlM built_segment _ _)

theorem built_pathValue (path : Path) : Built lower p (pathValue path) :=
  .guard (built_access path)

theorem built_eval (t : Term) : Built lower p (eval lower t) :=
  .map _ (.lower t)

theorem built_evalAll (ts : List Term) : Built lower p (evalAll lower ts) :=
  .mapM built_eval ts

theorem built_arg (t : Term) : Built lower p (arg lower t) := by
  cases t with
  | name token =>
    refine .bind (.find? _) fun m => ?_
    cases m with
    | none => exact built_eval _
    | some m =>
      refine .ite ?_ (built_eval _)
      cases m.function? with
      | none => exact .refuse _ _
      | some f => exact .pure _
  | _ => exact built_eval _

theorem built_args (ts : List Term) : Built lower p (args lower ts) :=
  .mapM built_arg ts

theorem built_key (escaped : Bool) (t : Term) : Built lower p (key lower escaped t) := by
  cases t with
  | symbol token => exact .ite (.pure _) (built_eval _)
  | _ => exact built_eval _

theorem built_entries (escaped : Bool) : ∀ ts, Built lower p (entries lower escaped ts)
  | [] => .pure _
  | [k] => .bind (built_key escaped k) fun _ => .map _ (built_nameValue _)
  | k :: v :: rest =>
    .bind (built_key escaped k) fun _ => .bind (built_eval v) fun _ =>
      .map _ (built_entries escaped rest)

theorem built_table (items : List Term) (escaped : Bool) :
    Built lower p (table lower items escaped) :=
  .map _ (built_entries escaped items)

/-! ### Blocks -/

theorem built_isDefinition (t : Term) : Built lower p (isDefinition t) := by
  unfold isDefinition
  split
  · exact .map _ (.find? _)
  · exact .pure _

theorem built_bindLocal (t : Token) (value : Code) : Built lower p (bindLocal t value) :=
  .map _ (built_registerLocal t)

mutual

theorem built_destructure : ∀ (t : Term) (value : Code), Built lower p (destructure t value)
  | .list items _, value => built_destructureItems items value 0
  | .name t, value => .map _ (built_bindLocal t value)
  | .table .., _ | .call .., _ | .path _, _ | .number _, _ | .string _, _ | .symbol _, _
  | .wildcard _, _ => .refuse _ _

theorem built_destructureItems :
    ∀ (ts : List Term) (value : Code) (index : Nat), Built lower p (destructureItems ts value index)
  | [], _, _ => .pure _
  | t :: ts, value, index =>
    .bind (built_destructure t _) fun _ => .map _ (built_destructureItems ts value (index + 1))

end

theorem built_bindPair (left : Term) (value : Code) : Built lower p (bindPair left value) := by
  cases left with
  | name t => exact .map _ (built_bindLocal t value)
  | list items span => exact built_destructureItems _ _ _
  | _ => exact .refuse _ _

theorem built_body : ∀ ts, Built lower p (body lower ts)
  | [] => .pure _
  | [t] => .bind (built_isDefinition t) fun _ => .map _ (.lower t)
  | t :: u :: ts => .bind (.lower t) fun _ => .map _ (built_body (u :: ts))

theorem built_block (ts : List Term) : Built lower p (block lower ts) :=
  .bind (built_body ts) fun _ => built_thunk _

theorem built_bindPairs : ∀ ts, Built lower p (bindPairs lower ts)
  | [] | [_] => .pure _
  | left :: right :: rest =>
    .bind (built_eval right) fun _ => .bind (built_bindPair left _) fun _ =>
      .map _ (built_bindPairs rest)

theorem built_bindings (c : Call) : Built lower p (bindings lower c) := by
  unfold bindings
  split
  · exact .guard <| .inLayer <| .bind (built_bindPairs _) fun _ =>
      .bind (built_body _) fun _ => built_thunk _
  · exact .refuse _ _
  · exact .refuse _ _

theorem built_conditional (c : Call) : Built lower p (conditional lower c) := by
  unfold conditional
  split
  · exact .guard <| .bind (built_eval _) fun _ => .bind (built_eval _) fun _ =>
      .bind (built_body _) fun _ => built_thunk _
  · exact .refuse _ _

theorem built_itemTests (subject : Code) :
    ∀ (ts : List Term) (index : Nat), Built lower p (itemTests lower subject ts index)
  | [], _ => .pure _
  | t :: ts, index => .ite (built_itemTests subject ts (index + 1))
      (.bind (built_eval t) fun _ => .map _ (built_itemTests subject ts (index + 1)))

theorem built_caseTest (subject : Code) (t : Term) : Built lower p (caseTest lower subject t) := by
  cases t with
  | list items span => exact .map _ (built_itemTests subject items 0)
  | _ => exact .map _ (built_eval _)

theorem built_warn (message : String) (span : Span) : Built lower p (warn message span) :=
  .bind .read fun _ => .log _

theorem built_arms (subject : Code) :
    ∀ (ts : List Term) (seen : Bool), Built lower p (arms lower subject ts seen)
  | [], _ | [_], _ => .pure _
  | left :: right :: rest, seen => .ite
      (.ite (.bind (built_warn _ _) fun _ => built_arms subject rest true)
        (built_arms subject rest true))
      (.bind (built_eval right) fun _ => .bind (built_caseTest subject left) fun _ =>
        .map _ (built_arms subject rest seen))

theorem built_fallback (t : Option Term) : Built lower p (t.mapM fun t => body lower [t]) := by
  cases t with
  | none => exact .pure _
  | some t => exact .map _ (built_body [t])

theorem built_matching (c : Call) : Built lower p (matching lower c) := by
  unfold matching
  split
  · exact .refuse _ _
  · exact .guard <| .bind (built_eval _) fun _ => .bind (built_arms _ _ _) fun _ =>
      .bind (built_fallback _) fun _ => built_thunk _

theorem built_loopSource (source : Term) : Built lower p (loopSource lower source) := by
  unfold loopSource
  split
  · exact .ite (.map _ (built_evalAll _)) (.map _ (built_eval _))
  · exact .map _ (built_eval _)

theorem built_loopName (cause : Cause) (t : Term) : Built lower p (loopName cause t) := by
  unfold loopName
  split
  · exact .pure _
  · exact .refuse _ _

theorem built_loop (c : Call) : Built lower p (loop lower c) := by
  unfold loop
  split
  · refine .bind (built_loopName _ _) fun item => .bind (built_loopSource _) fun source => ?_
    refine .bind (built_registerLocal item) fun _ => .bind (built_evalAll _) fun _ => ?_
    cases source with
    | inl bounds => exact built_thunk _
    | inr source => exact built_thunk _
  · refine .bind (built_loopName _ _) fun item => .bind (built_loopName _ _) fun key => ?_
    refine .bind (built_eval _) fun _ => .bind (built_registerLocal item) fun _ => ?_
    exact .bind (built_registerLocal key) fun _ => .bind (built_evalAll _) fun _ => built_thunk _
  · exact .refuse _ _
  · exact .refuse _ _
  · exact .refuse _ _

theorem built_attempt (ts : List Term) : Built lower p (attempt lower ts) :=
  .bind (built_body _) fun _ => .bind (built_body _) fun _ => .bind .read fun _ => built_thunk _

theorem built_handler (c : Call) : Built lower p (handler lower c) := by
  unfold handler
  split
  · split
    · exact .inLayer <| .bind (built_registerLocal _) fun _ => .map _ (built_body _)
    · exact .refuse _ _
  · exact .refuse _ _

/-! ### Functions -/

theorem built_restParameter (ampersand : Span) (ts : List Term) :
    Built lower p (restParameter ampersand ts) := by
  unfold restParameter
  split
  · exact .refuse _ _
  · exact built_registerLocal _
  · exact .refuse _ _
  · exact .refuse _ _
  · exact .refuse _ _

theorem built_parameters : ∀ ts, Built lower p (parameters ts)
  | [] => .pure _
  | .name t :: ts => .ite (.map _ (built_restParameter t.span ts))
      (.bind (built_registerLocal t) fun _ => .map _ (built_parameters ts))
  | .list .. :: _ | .table .. :: _ | .call .. :: _ | .path _ :: _ | .number _ :: _ | .string _ :: _
  | .symbol _ :: _ | .wildcard _ :: _ => .refuse _ _

theorem built_closure (formals ts : List Term) : Built lower p (closure lower formals ts) := by
  refine .bind (built_parameters formals) fun _ => ?_
  cases ts with
  | nil => exact .pure _
  | cons t ts => exact .map _ (built_body _)

theorem built_lambda (c : Call) : Built lower p (lambda lower c) := by
  unfold lambda
  split
  · exact .inLayer (built_closure _ _)
  · exact .refuse _ _
  · exact .refuse _ _

theorem built_named (isPure hidden : Bool) (token : Token) (formals rest : List Term) :
    Built lower .outside (named lower isPure hidden token formals rest) := by
  refine .bind (.registerOutside _ _ _ _) fun _ => .bind (.log _) fun _ => ?_
  refine .bind (.inFunction isPure (built_closure _ _)) fun _ => ?_
  exact .ite (.pure _) (.map _ (.reference _))

theorem built_function (c : Call) (isPure hidden : Bool) :
    Built lower p (function lower c isPure hidden) := by
  refine .unlessPure _ _ ?_
  split
  · exact built_named _ _ _ _ _
  · exact .refuse _ _
  · exact .refuse _ _
  · exact .refuse _ _

theorem built_define (c : Call) (isPure : Bool) : Built lower p (define lower c isPure) := by
  refine .unlessPure _ _ ?_
  split
  · exact built_named _ _ _ _ _
  · refine .ite ?_ (.refuse _ _)
    exact .bind (built_eval _) fun _ => .bind (.registerOutside _ _ _ _) fun _ =>
      .map _ (.reference _)
  · exact .refuse _ _

/-! ### Modules and operators -/

theorem built_importMembers : ∀ ts, Built lower p (importMembers ts)
  | [] => .pure _
  | .name t :: ts => .bind (built_registerLocal t) fun _ => .map _ (built_importMembers ts)
  | .list .. :: _ | .table .. :: _ | .call .. :: _ | .path _ :: _ | .number _ :: _ | .string _ :: _
  | .symbol _ :: _ | .wildcard _ :: _ => .refuse _ _

theorem built_importWhole (source : Term) : Built lower p (importWhole lower source) := by
  unfold importWhole
  split
  · exact .map _ (built_eval _)
  · exact .pure _
  · exact .refuse _ _

theorem built_importWord (t : Term) : Built lower p (importWord t) := by
  unfold importWord
  split
  · exact .ite (.pure _) (.refuse _ _)
  · exact .refuse _ _

theorem built_importModule (ts : List Term) (span : Span) :
    Built lower p (importModule lower ts span) := by
  unfold importModule
  split
  · exact .refuse _ _
  · exact built_importWhole _
  · refine .bind (built_importWord _) fun _ => .bind (built_eval _) fun _ => ?_
    split
    · exact .map _ (built_registerLocal _)
    · exact .map _ (built_importMembers _)
    · exact .refuse _ _
  · exact .refuse _ _

theorem built_importClause (t : Term) : Built lower p (importClause t) := by
  unfold importClause
  split
  · exact .pure _
  · exact .pure _
  · exact .refuse _ _

theorem built_moduleImport (clause : Term) : Built lower p (moduleImport lower clause) := by
  refine .bind (built_importClause clause) fun ts => .guard ?_
  split
  · exact .refuse _ _
  · exact .ite (built_importModule _ _) (.refuse _ _)
  · exact .refuse _ _

theorem built_nameModule (c : Call) : Built lower .naming (nameModule lower c) := by
  unfold nameModule
  split
  · rw [← bind_assoc]
    exact .bind (.nameModule _) fun _ => .map _ (.mapM built_moduleImport _)
  · exact .refuse _ _
  · exact .refuse _ _

theorem built_specifiers : ∀ (ts : List Term) (given : List String),
    Built lower p (specifiers given ts)
  | [], _ => .pure _
  | .name _ :: ts, given => .map _ (built_specifiers ts given)
  | .symbol _ :: ts, _ => .ite (.refuse _ _) (.ite (.refuse _ _) (built_specifiers ts _))
  | .list .. :: _, _ | .table .. :: _, _ | .call .. :: _, _ | .path _ :: _, _ | .number _ :: _, _
  | .string _ :: _, _ | .wildcard _ :: _, _ => .refuse _ _

theorem built_specifiedKind (given : List String) (span : Span) :
    Built lower p (specifiedKind given span) := by
  unfold specifiedKind
  split
  · exact .refuse _ _
  · exact .pure _
  · exact .pure _
  · exact .pure _

theorem built_declare (c : Call) : Built lower p (declare c) := by
  refine .unlessPure _ _ (.bind (built_specifiers c.args []) fun _ => ?_)
  exact .bind (built_specifiedKind _ _) fun _ =>
    .map _ (.mapM (fun _ => .map _ (.registerOutside _ _ _ _)) _)

theorem built_operator (op : Operator) (c : Call) : Built lower p (operator lower op c) :=
  .guard <| .bind (.mapM (fun t => .map _ (built_eval t)) _) fun _ => .map _ .read

theorem built_negation (c : Call) : Built lower p (negation lower c) := by
  unfold negation
  split
  · exact .map _ (built_eval _)
  · exact .refuse _ _

/-! ### Special forms -/

theorem built_desugared (t : Except Fault Term) : Built lower p (desugared lower t) :=
  .bind (.ofExcept t) fun _ => built_eval _

theorem exec_plain (g : Gen Code) (job : Job) (s : Session) :
    (plain g).exec job s = ((g.exec job s).1.map Code.stmt, (g.exec job s).2) := by
  rw [plain, exec_bind]
  rcases g.exec job s with ⟨_ | _, _⟩ <;> rfl

theorem steps_plain (g : Gen Code) (job : Job) (s : Session) :
    (plain g).steps job s = g.steps job s := by
  rw [plain, steps_bind]
  rcases g.exec job s with ⟨_ | _, _⟩
  · rfl
  · exact List.append_nil _

theorem built_plain {g : Gen Code} (hg : Built lower p g) : Built lower p (plain g) :=
  .map _ hg

/-- A form is built from actions allowed anywhere, but for the one that names the module. -/
theorem built_expand (form : Form) (c : Call) (h : form = .nameModule → p = .naming) :
    Built lower p (expand lower form c) := by
  cases form with
  | define isPure => exact built_plain (built_define c isPure)
  | function isPure hidden => exact built_plain (built_function c isPure hidden)
  | declare => exact built_declare c
  | importModule => exact built_plain (built_importModule _ _)
  | nameModule =>
    cases h rfl
    exact built_plain (built_nameModule c)
  | bindings => exact built_plain (built_bindings c)
  | conditional => exact built_plain (built_conditional c)
  | matching => exact built_plain (built_matching c)
  | block => exact built_plain (built_block _)
  | loop => exact built_plain (.inLayer (built_loop c))
  | lambda => exact built_plain (built_lambda c)
  | attempt => exact built_plain (built_attempt _)
  | handler => exact built_plain (built_handler c)
  | arguments => exact built_plain (.pure _)
  | threadFirst | threadLast | fanFirst | fanLast | parity => exact built_plain (built_desugared _)
  | negation => exact built_plain (built_negation c)
  | operator op => exact built_plain (built_operator op c)

/-- A call through a name is built from the same actions. -/
theorem built_through (m : Meaning) (c : Call) (h : m.form? = some .nameModule → p = .naming) :
    Built lower p (through lower m c) := by
  unfold through
  split
  · rename_i form hf
    exact built_expand form c fun hform => h (hform ▸ hf)
  · exact built_plain (.bind (built_args _) fun _ => .map _ (.reference m))

/-! ### Terms -/

theorem exec_permit (m : Meaning) (span : Span) (job : Job) (s : Session) :
    (permit m span).exec job s =
      if s.isPure && m.isEffect then (.error ⟨.effectInPure, span⟩, s) else (.ok (), s) := by
  rw [permit, exec_bind, exec_isPure]
  show Gen.exec (if s.isPure && m.isEffect then _ else _) job s = _
  cases s.isPure && m.isEffect <;> rfl

theorem steps_permit (m : Meaning) (span : Span) (job : Job) (s : Session) :
    (permit m span).steps job s = [] := by
  rw [permit, steps_bind, exec_isPure]
  show Gen.steps (if s.isPure && m.isEffect then _ else _) job s = _
  cases s.isPure && m.isEffect <;> rfl

/-- A call through a name: the name is looked up, and a function with effects may be refused. -/
theorem run_dispatch_name (lower : Lower) {c : Call} {t : Token} (hc : c.target = .name t)
    (job : Job) (s : Session) :
    (dispatch lower c).run job s =
      match s.find? t.text with
      | none => ⟨(.error ⟨.unbound t.text, t.span⟩, s), []⟩
      | some m =>
        if s.isPure && m.isEffect then ⟨(.error ⟨.effectInPure, c.span⟩, s), []⟩
        else (through lower m c).run job s := by
  have hd : dispatch lower c = (do
      let m ← resolve t
      permit m c.span
      through lower m c) := by
    rw [dispatch, hc]
  rw [hd, run_bind, exec_resolve, steps_resolve]
  cases s.find? t.text with
  | none => rfl
  | some m =>
    simp only [exec_bind, steps_bind, exec_permit, steps_permit, List.nil_append]
    cases s.isPure && m.isEffect <;> rfl

/-- A call is built from actions, or it is refused before anything happens, or it goes through what
a name means. -/
theorem dispatch_cases (lower : Lower) (c : Call) (job : Job) (s : Session) :
    (s.meaning? c = none ∧ Built lower .anywhere (dispatch lower c)) ∨
    (∃ f, (dispatch lower c).run job s = ⟨(.error f, s), []⟩) ∨
    ∃ m, s.meaning? c = some m ∧ (s.isPure && m.isEffect) = false ∧
      (dispatch lower c).run job s = (through lower m c).run job s := by
  obtain ⟨target, ts, span⟩ := c
  cases target with
  | name t =>
    have hrun := run_dispatch_name lower (c := ⟨.name t, ts, span⟩) rfl job s
    rw [Session.meaning?_of_target rfl]
    cases hm : s.find? t.text with
    | none => exact .inr (.inl ⟨_, by rw [hrun, hm]⟩)
    | some m =>
      simp only [hm] at hrun
      cases he : s.isPure && m.isEffect with
      | true =>
        rw [he, if_pos rfl] at hrun
        exact .inr (.inl ⟨_, hrun⟩)
      | false =>
        rw [he, if_neg (by decide)] at hrun
        exact .inr (.inr ⟨m, rfl, he, hrun⟩)
  | symbol _ | number _ => exact .inl ⟨rfl, .lower _⟩
  | wildcard t => exact .inl ⟨rfl, built_plain (.guard (.map _ (built_args _)))⟩
  | path path =>
    exact .inl ⟨rfl, built_plain (.bind (built_access path) fun _ => .map _ (built_args _))⟩
  | _ => exact .inl ⟨rfl, .refuse _ _⟩

/-- A special form is no function with effects. -/
theorem isEffect_of_form? {m : Meaning} {form : Form} (h : m.form? = some form) :
    m.isEffect = false := by
  unfold Meaning.form? at h
  split at h
  · rfl
  · cases h

/-- A call that stands for a form is that form; forms are allowed inside pure functions. -/
theorem run_dispatch_form {s : Session} {c : Call} {form : Form} (hform : s.form? c = some form)
    (lower : Lower) (job : Job) :
    (dispatch lower c).run job s = (expand lower form c).run job s := by
  obtain ⟨target, ts, span⟩ := c
  cases target with
  | name t =>
    rw [Session.form?, Session.meaning?_of_target rfl] at hform
    obtain ⟨m, hm, hform⟩ := Option.bind_eq_some_iff.1 hform
    rw [run_dispatch_name lower rfl, hm]
    simp only [isEffect_of_form? hform, Bool.and_false, Bool.false_eq_true, if_false, through,
      hform]
  | _ => cases hform

/-- A call that defines a function, as a form. -/
theorem expand_of_function? {s : Session} {c : Call} {isPure : Bool} {token : Token}
    (h : s.function? c = some (isPure, token)) :
    ∃ form cause hidden formals rest, s.form? c = some form ∧ ∀ lower : Lower,
      expand lower form c =
        plain (unlessPure cause c.span (named lower isPure hidden token formals rest)) := by
  obtain ⟨target, ts, span⟩ := c
  unfold Session.function? at h
  split at h
  · rename_i hform hargs
    cases h
    cases hargs
    exact ⟨_, .functionInPure, _, _, _, hform, fun _ => rfl⟩
  · rename_i hform hargs
    cases h
    cases hargs
    exact ⟨_, .valueInPure, false, _, _, hform, fun _ => rfl⟩
  · cases h

/-- A term is a call, or its lowering is built from actions. -/
theorem step_cases (lower : Lower) (t : Term) :
    Built lower .anywhere (step lower t) ∨
      ∃ c : Call, t = c.term ∧ step lower t = call lower c := by
  cases t with
  | call target ts span => exact .inr ⟨⟨target, ts, span⟩, rfl, rfl⟩
  | list items _ => exact .inl (built_plain (.map _ (built_evalAll items)))
  | table items escaped _ => exact .inl (built_plain (built_table items escaped))
  | path path => exact .inl (built_plain (built_pathValue path))
  | name token => exact .inl (built_plain (built_nameValue token))
  | symbol _ | number _ | string _ => exact .inl (built_plain (.pure _))
  | wildcard token => exact .inl (.refuse _ _)

end LispLua.Gen
