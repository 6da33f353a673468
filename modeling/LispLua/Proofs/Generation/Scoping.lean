import LispLua.Compile
import LispLua.Generate.Equation
import LispLua.Proofs.Generation.Module

/-!
# Scoping

Names that a form binds for its own parts are not visible behind it, and whatever a generation does
to the scope ends with it, also where it fails.
-/

namespace LispLua

/-- Whether a form binds names for its own parts. -/
def Form.bindsInside : Form → Bool
  | bindings | loop | lambda | handler => true
  | _ => false

namespace Gen

open Session (Kept Sealed)

variable {α β : Type} {lower : Lower}

/-! ### Forms with a layer of their own -/

/-- A generation that declares names of a block only in layers of its own. -/
def Seals (g : Gen α) : Prop :=
  ∀ job s, Sealed s (g.exec job s).2

theorem seals_pure (a : α) : Seals (pure a) :=
  fun _ s => .refl s

theorem seals_refuse (cause : Cause) (span : Span) : Seals (refuse cause span : Gen α) :=
  fun _ s => .refl s

theorem seals_log (event : Event) : Seals (log event) :=
  fun _ _ => .of_scope_eq rfl

theorem seals_reference (m : Meaning) : Seals (reference m) :=
  fun _ s => .refl s

theorem seals_inLayer (hlower : ∀ t job s, Kept s ((lower t).exec job s).2) {g : Gen α}
    (hg : Built lower .anywhere g) (pure? : Option Bool) : Seals (inLayer pure? g) :=
  fun job s => (hg.kept hlower job (s.enter pure?) Place.anywhere_ne).sealed

theorem Seals.bind {g : Gen α} {k : α → Gen β} (hg : Seals g) (hk : ∀ a, Seals (k a)) :
    Seals (g >>= k) := by
  intro job s
  have h := hg job s
  rw [exec_bind]
  rcases hrun : g.exec job s with ⟨_ | a, s'⟩
  · rwa [hrun] at h
  · rw [hrun] at h
    exact h.trans (hk a job s')

theorem Seals.map {g : Gen α} (hg : Seals g) (f : α → β) : Seals (do return f (← g)) :=
  hg.bind fun _ => seals_pure _

theorem Seals.ite {c : Prop} [Decidable c] {g h : Gen α} (hg : Seals g) (hh : Seals h) :
    Seals (if c then g else h) := by
  split
  · exact hg
  · exact hh

/-- Behind a declaration and a generation that seals, only the declared name has become visible. -/
theorem reveals_register_bind {token : Token} {kind : Kind} {reach : Reach} {preserve : Bool}
    {k : Binding → Gen α} (hk : ∀ b, Seals (k b)) {job : Job} {s : Session} {name : String}
    {b : Binding}
    (hr : s.Reveals ((register token kind reach preserve >>= k).exec job s).2 name b) :
    name = token.text ∧ b.kind = kind := by
  rw [exec_bind, exec_register] at hr
  cases hreg : s.register token kind reach preserve with
  | error f =>
    rw [hreg] at hr
    exact absurd hr ((Sealed.refl s).not_reveals name b)
  | ok x =>
    obtain ⟨binding, s'⟩ := x
    rw [hreg] at hr
    obtain ⟨hname, rfl⟩ := Session.reveals_register hreg ((hk binding job s').reveals hr)
    obtain ⟨rfl, -⟩ := Session.register_cases hreg
    exact ⟨hname, rfl⟩

section

variable (hlower : ∀ t job s, Kept s ((lower t).exec job s).2)
include hlower

theorem seals_bindings (c : Call) : Seals (bindings lower c) := by
  unfold bindings
  split
  · rename_i pairs _ ts _
    have hlet : Built lower .anywhere (do
        let bs ← bindPairs lower pairs
        thunk (.scope bs (.lines (← body lower ts)))) :=
      .bind (built_bindPairs pairs) fun _ => .bind (built_body ts) fun _ => built_thunk _
    have hlayer := seals_inLayer hlower hlet none
    exact .ite ((seals_refuse _ _).bind fun _ => hlayer) hlayer
  · exact seals_refuse _ _
  · exact seals_refuse _ _

theorem seals_lambda (c : Call) : Seals (lambda lower c) := by
  unfold lambda
  split
  · exact seals_inLayer hlower (built_closure _ _) none
  · exact seals_refuse _ _
  · exact seals_refuse _ _

theorem seals_handler (c : Call) : Seals (handler lower c) := by
  unfold handler
  split
  · split
    · exact seals_inLayer hlower (.bind (built_registerLocal _) fun _ => .map _ (built_body _)) none
    · exact seals_refuse _ _
  · exact seals_refuse _ _

/-- The definition of a function makes only the function visible. -/
theorem reveals_named {isPure hidden : Bool} {token : Token} {formals rest : List Term} {job : Job}
    {s : Session} {name : String} {b : Binding}
    (hr : s.Reveals ((named lower isPure hidden token formals rest).exec job s).2 name b) :
    name = token.text ∧ b.kind ≠ .value := by
  refine (reveals_register_bind (fun binding => ?_) hr).imp id fun hkind => ?_
  · refine (seals_log _).bind fun _ => ?_
    refine (seals_inLayer hlower (built_closure _ _) (some isPure)).bind fun _ => ?_
    exact .ite (seals_pure _) ((seals_reference _).map _)
  · rw [hkind]
    cases isPure <;> decide

/-- A form that binds names for its own parts seals them. -/
theorem seals_expand {form : Form} (h : form.bindsInside = true) (c : Call) :
    Seals (expand lower form c) := by
  cases form with
  | bindings => exact (seals_bindings hlower c).map _
  | loop => exact (seals_inLayer hlower (built_loop c) none).map _
  | lambda => exact (seals_lambda hlower c).map _
  | handler => exact (seals_handler hlower c).map _
  | _ => cases h

theorem sealed_call {s : Session} {c : Call} {form : Form} (hform : s.form? c = some form)
    (h : form.bindsInside = true) (job : Job) : Sealed s ((call lower c).exec job s).2 := by
  rw [call, exec_inCall, exec, run_dispatch_form hform]
  exact seals_expand hlower h c job s

theorem reveals_call {s : Session} {c : Call} {isPure : Bool} {token : Token}
    (hdef : s.function? c = some (isPure, token)) {job : Job} {name : String} {b : Binding}
    (hr : s.Reveals ((call lower c).exec job s).2 name b) :
    name = token.text ∧ b.kind ≠ .value := by
  obtain ⟨form, cause, hidden, formals, rest, hform, hexpand⟩ := expand_of_function? hdef
  rw [call, exec_inCall, exec, run_dispatch_form hform, hexpand, ← exec, exec_plain,
    exec_unlessPure] at hr
  split at hr
  · exact absurd hr ((Sealed.refl s).not_reveals name b)
  · exact reveals_named hlower hr

end

/-! ### Programs -/

theorem exec_program (p : Program) (job : Job) (s : Session) :
    (program p).exec job s =
      match (statements p).exec job (s.publish job) with
      | (.ok ss, s') => (chunk ss).exec job s'
      | (.error f, s') => (.error f, s') := by
  rw [program, exec_bind, exec_read]
  simp only [exec_bind, exec_modify]
  rcases (statements p).exec job (s.publish job) with ⟨_ | _, _⟩ <;> rfl

theorem exec_chunk (ss : List Lua.Stmt) (job : Job) (s : Session) :
    ∃ log, (chunk ss).exec job s = (.ok ⟨job.options, s.package, ss⟩, { s with log }) := by
  simp only [chunk, exec_bind, exec_read, exec_get]
  split
  · exact ⟨_, rfl⟩
  · exact ⟨s.log, rfl⟩

theorem steps_chunk (ss : List Lua.Stmt) (job : Job) (s : Session) :
    (chunk ss).steps job s = [] := by
  simp only [chunk, steps_bind, exec_read, exec_get, steps_read]
  split
  · rfl
  · rfl

theorem steps_program (p : Program) (job : Job) (s : Session) :
    (program p).steps job s = (statements p).steps job (s.publish job) := by
  rw [program, steps_bind, exec_read]
  simp only [steps_bind, exec_modify, steps_read, steps_modify, steps_chunk, List.nil_append,
    List.append_nil]
  rcases (statements p).exec job (s.publish job) with ⟨_ | _, _⟩ <;> rfl

/-! ### Every generation -/

/-- A generation leaves the layers and the module alone. -/
structure Framed (g : Gen α) (job : Job) (s : Session) : Prop where
  layers : Kept s (g.exec job s).2
  module : ModuleKept (g.steps job s) s (g.exec job s).2

theorem Built.framed {g : Gen α} (h : Built term .anywhere g) (job : Job) (s : Session) :
    Framed g job s :=
  ⟨h.kept kept_term job s Place.anywhere_ne, h.moduleKept moduleKept_term (by decide) job s⟩

theorem framed_call (c : Call) (job : Job) (s : Session) : Framed (call term c) job s := by
  refine ⟨?_, moduleKept_call moduleKept_term c job s⟩
  rw [call, exec_inCall]
  exact kept_dispatch kept_term c job s

theorem built_statements (p : Program) : Built term .anywhere (statements p) :=
  .mapM (fun c => .lower c.term) p

/-- What a program does to the session besides the lowering of its calls. -/
theorem framed_program (p : Program) (job : Job) (s : Session) :
    Kept s ((program p).exec job s).2 ∧
      ModuleKept ((program p).steps job s) (s.publish job) ((program p).exec job s).2 := by
  obtain ⟨hlayers, hmodule⟩ := (built_statements p).framed job (s.publish job)
  have hpublish : Kept s (s.publish job) := .of_scope_eq rfl
  rw [exec_program, steps_program]
  rcases hrun : (statements p).exec job (s.publish job) with ⟨_ | ss, s'⟩
  · rw [hrun] at hlayers hmodule
    exact ⟨hpublish.trans hlayers, hmodule⟩
  · rw [hrun] at hlayers hmodule
    obtain ⟨log, hchunk⟩ := exec_chunk ss job s'
    simp only [hchunk]
    exact ⟨(hpublish.trans hlayers).trans (.of_scope_eq rfl), hmodule⟩

/-- Whether it fails or not, no generation changes the tags of the layers, any layer but the
innermost and the root, the root from inside a pure function, or the module without a call that
names it; a program that is published reaches its package through its source first. So behind a form
no name is visible that the form bound for its own parts. -/
theorem generation_keeps_scope (job : Job) (s : Session) :
    (∀ t, Framed (term t) job s) ∧ (∀ t, Framed (value t) job s) ∧
    (∀ c, Framed (call term c) job s) ∧ (∀ ts, Framed (args term ts) job s) ∧
    (∀ ts, Framed (body term ts) job s) ∧ (∀ path, Framed (access path) job s) ∧
    (∀ p, Framed (statements p) job s) ∧
    (∀ p, Kept s ((program p).exec job s).2 ∧
      ModuleKept ((program p).steps job s) (s.publish job) ((program p).exec job s).2) ∧
    (∀ c form, s.form? c = some form → form.bindsInside = true →
      ∀ name b, ¬ s.Reveals ((call term c).exec job s).2 name b) ∧
    (∀ c isPure token, s.function? c = some (isPure, token) →
      ∀ name b, s.Reveals ((call term c).exec job s).2 name b →
        name = token.text ∧ b.kind ≠ .value) := by
  refine ⟨fun t => ?_, fun t => ?_, fun c => framed_call c job s, fun ts => ?_, fun ts => ?_,
    fun path => ?_, fun p => ?_, fun p => framed_program p job s, ?_, ?_⟩
  · exact Built.framed (.lower t) job s
  · exact (built_eval t).framed job s
  · exact (built_args ts).framed job s
  · exact (built_body ts).framed job s
  · exact (built_access path).framed job s
  · exact (built_statements p).framed job s
  · intro c form hform hbinds
    exact (sealed_call kept_term hform hbinds job).not_reveals
  · intro c isPure token hdef name b hr
    exact reveals_call kept_term hdef hr

/-- A block that fails behind its binding. -/
theorem generation_keeps_scope_block :
    let c := Call.named "let" .none
      [.list [.name ⟨"a", .none⟩, .number ⟨"1", .none⟩] .none, .name ⟨"b", .none⟩]
    Session.start.form? c = some .bindings ∧
      ((call term c).exec default .start).1 = .error ⟨.unbound "b", .none⟩ ∧
      ∀ name b, ¬ Session.start.Reveals ((call term c).exec default .start).2 name b := by
  intro c
  have hform : Session.start.form? c = some .bindings := by decide +kernel
  obtain ⟨-, -, -, -, -, -, -, -, hblock, -⟩ := generation_keeps_scope default .start
  refine ⟨hform, ?_, hblock c .bindings hform rfl⟩
  rfl

end Gen

end LispLua
