import LispLua.Proofs.Generation.Frame

/-!
# The name of the module

The name of the module and the expression of its package change only where a call names the module.
-/

namespace LispLua

namespace Gen

variable {lower : Lower} {α : Type}

/-- Some call among the steps names the module. -/
def NamesModule (steps : List Step) : Prop :=
  ∃ c s inner, Step.Occurs (.call c s inner) steps ∧ s.form? c = some .nameModule

theorem NamesModule.append_left {u : List Step} (h : NamesModule u) (v : List Step) :
    NamesModule (u ++ v) := by
  obtain ⟨c, s, inner, hoccurs, hform⟩ := h
  exact ⟨c, s, inner, Step.occurs_append.2 (.inl hoccurs), hform⟩

theorem NamesModule.append_right {v : List Step} (h : NamesModule v) (u : List Step) :
    NamesModule (u ++ v) := by
  obtain ⟨c, s, inner, hoccurs, hform⟩ := h
  exact ⟨c, s, inner, Step.occurs_append.2 (.inr hoccurs), hform⟩

theorem NamesModule.layer {inner : List Step} (h : NamesModule inner) (s : Session) :
    NamesModule [.layer s inner] := by
  obtain ⟨c, s', inner', hoccurs, hform⟩ := h
  exact ⟨c, s', inner', Step.occurs_layer.2 (.inr hoccurs), hform⟩

theorem NamesModule.call {inner : List Step} (h : NamesModule inner) (c : Call) (s : Session) :
    NamesModule [.call c s inner] := by
  obtain ⟨c', s', inner', hoccurs, hform⟩ := h
  exact ⟨c', s', inner', Step.occurs_call.2 (.inr hoccurs), hform⟩

/-- The module has the same name and its package is reached in the same way, unless a call among the
steps names the module. -/
def ModuleKept (steps : List Step) (s s' : Session) : Prop :=
  NamesModule steps ∨ (s'.moduleName = s.moduleName ∧ s'.package = s.package)

theorem ModuleKept.refl (steps : List Step) (s : Session) : ModuleKept steps s s :=
  .inr ⟨rfl, rfl⟩

theorem ModuleKept.trans {u v : List Step} {s s' s'' : Session} (h : ModuleKept u s s')
    (h' : ModuleKept v s' s'') : ModuleKept (u ++ v) s s'' := by
  rcases h with h | ⟨hname, hpackage⟩
  · exact .inl (h.append_left v)
  rcases h' with h' | ⟨hname', hpackage'⟩
  · exact .inl (h'.append_right u)
  · exact .inr ⟨hname'.trans hname, hpackage'.trans hpackage⟩

theorem moduleKept_register (token : Token) (kind : Kind) (reach : Reach) (preserve : Bool)
    (job : Job) (s : Session) :
    ModuleKept [] s ((register token kind reach preserve).exec job s).2 := by
  rw [exec_register]
  split
  · rename_i b s' h
    refine .inr ?_
    cases reach with
    | block | everywhere =>
      cases h
      exact ⟨rfl, rfl⟩
    | package =>
      simp only [Session.register] at h
      split at h
      · cases h
      · cases h
        exact ⟨rfl, rfl⟩
  · exact .refl _ s

theorem Built.moduleKept
    (hlower : ∀ t job s, ModuleKept ((lower t).steps job s) s ((lower t).exec job s).2)
    {p : Place} {g : Gen α} (h : Built lower p g) (hp : p ≠ .naming) (job : Job) (s : Session) :
    ModuleKept (g.steps job s) s (g.exec job s).2 := by
  induction h generalizing s with
  | pure | throw | read | find? | reference => exact .refl _ s
  | log => exact .inr ⟨rfl, rfl⟩
  | nameModule => exact absurd rfl hp
  | lower t => exact hlower t job s
  | @bind _ _ _ g k _ _ ihg ihk =>
    have hg := ihg hp s
    rw [exec_bind, steps_bind]
    rcases hrun : g.exec job s with ⟨_ | a, s'⟩
    · rwa [hrun] at hg
    · rw [hrun] at hg
      exact hg.trans (ihk a hp s')
  | register | registerOutside =>
    rw [steps_register]
    exact moduleKept_register _ _ _ _ job s
  | inLayer _ ih =>
    rcases ih (by decide) (s.enter none) with h | h
    · exact .inl (h.layer _)
    · exact .inr h
  | inFunction isPure _ ih =>
    rcases ih (by decide) (s.enter isPure) with h | h
    · exact .inl (h.layer _)
    · exact .inr h
  | unlessPure cause span _ ih =>
    rw [exec_unlessPure, steps_unlessPure]
    split
    · exact .refl _ s
    · exact ih (by decide) s

theorem moduleKept_call
    (hlower : ∀ t job s, ModuleKept ((lower t).steps job s) s ((lower t).exec job s).2) (c : Call)
    (job : Job) (s : Session) :
    ModuleKept ((call lower c).steps job s) s ((call lower c).exec job s).2 := by
  rw [call, exec_inCall, steps_inCall]
  have inside
      (h : ModuleKept ((dispatch lower c).steps job s) s ((dispatch lower c).exec job s).2) :
      ModuleKept [.call c s ((dispatch lower c).steps job s)] s
        ((dispatch lower c).exec job s).2 :=
    h.imp (·.call c s) id
  rcases dispatch_cases lower c job s with ⟨-, h⟩ | ⟨f, h⟩ | ⟨m, hm, -, h⟩
  · exact inside (h.moduleKept hlower (by decide) job s)
  · refine inside ?_
    rw [exec, h]
    exact .refl _ s
  · by_cases hform : m.form? = some .nameModule
    · refine .inl ⟨c, s, _, Step.occurs_call.2 (.inl rfl), ?_⟩
      rw [Session.form?, hm]
      exact hform
    · refine inside ?_
      rw [exec, steps, h]
      have hbuilt : Built lower .anywhere (through lower m c) :=
        built_through m c fun hn => absurd hn hform
      exact hbuilt.moduleKept hlower (by decide) job s

theorem moduleKept_within (depth : Nat) (t : Term) (job : Job) (s : Session) :
    ModuleKept ((within depth t).steps job s) s ((within depth t).exec job s).2 := by
  induction depth generalizing t job s with
  | zero => exact .refl _ s
  | succ depth ih =>
    rw [within]
    rcases step_cases (within depth) t with h | ⟨c, -, h⟩
    · exact h.moduleKept ih (by decide) job s
    · rw [h]
      exact moduleKept_call ih c job s

theorem moduleKept_term (t : Term) (job : Job) (s : Session) :
    ModuleKept ((term t).steps job s) s ((term t).exec job s).2 :=
  moduleKept_within t.rank t job s

end Gen

end LispLua
