import LispLua.Generate.Term
import LispLua.Proofs.Generation.Trace

/-!
# Runs that succeed

A generation that succeeds gives a value, the steps on the way and a session. This module takes such
runs apart: what a run of a composed generation gives is said by what the runs of its parts give.
-/

namespace LispLua.Gen

open Lua

variable {α β : Type} {job : Job} {s s' : Session} {u : List Step}

/-- From `s` a generation succeeds with the value `a` by the steps `u`, and leaves `s'`. -/
def Gives (g : Gen α) (job : Job) (s : Session) (a : α) (u : List Step) (s' : Session) : Prop :=
  g.run job s = ⟨(.ok a, s'), u⟩

theorem gives_iff {g : Gen α} {a : α} :
    g.Gives job s a u s' ↔ g.exec job s = (.ok a, s') ∧ g.steps job s = u := by
  rw [Gives, exec, steps]
  constructor
  · intro h
    rw [h]
    exact ⟨rfl, rfl⟩
  · rintro ⟨hexec, rfl⟩
    rw [← hexec]

/-- An action that always succeeds and takes no steps gives what it runs to. -/
theorem gives_of_run {g : Gen α} {a b : α} {s₁ : Session} (h : g.run job s = ⟨(.ok a, s₁), []⟩) :
    g.Gives job s b u s' ↔ b = a ∧ u = [] ∧ s' = s₁ := by
  rw [Gives, h, Traced.mk.injEq, Prod.mk.injEq, Except.ok.injEq, and_assoc]
  constructor
  · rintro ⟨rfl, rfl, rfl⟩
    exact ⟨rfl, rfl, rfl⟩
  · rintro ⟨rfl, rfl, rfl⟩
    exact ⟨rfl, rfl, rfl⟩

theorem gives_pure {a b : α} :
    (pure a : Gen α).Gives job s b u s' ↔ b = a ∧ u = [] ∧ s' = s :=
  gives_of_run rfl

theorem gives_bind {g : Gen α} {k : α → Gen β} {b : β} :
    (g >>= k).Gives job s b u s' ↔
      ∃ a v s₁ w, g.Gives job s a v s₁ ∧ (k a).Gives job s₁ b w s' ∧ u = v ++ w := by
  simp only [gives_iff, exec_bind, steps_bind]
  rcases hg : g.exec job s with ⟨_ | a, s₁⟩
  · simp
  · simp only [Prod.mk.injEq, Except.ok.injEq]
    constructor
    · rintro ⟨hexec, rfl⟩
      exact ⟨a, _, s₁, _, ⟨⟨rfl, rfl⟩, rfl⟩, ⟨hexec, rfl⟩, rfl⟩
    · rintro ⟨a, v, s₁, w, ⟨⟨rfl, rfl⟩, rfl⟩, ⟨hexec, rfl⟩, rfl⟩
      exact ⟨hexec, rfl⟩

theorem not_gives_refuse {cause : Cause} {span : Span} {a : α} :
    ¬ (refuse cause span : Gen α).Gives job s a u s' := by
  simp [gives_iff]

theorem gives_ofExcept {r : Except Fault α} {a : α} :
    (ofExcept r).Gives job s a u s' ↔ r = .ok a ∧ u = [] ∧ s' = s := by
  cases r with
  | ok b => simp [ofExcept, gives_pure, eq_comm]
  | error f => simp [gives_iff]

theorem gives_read {j : Job} :
    (read : Gen Job).Gives job s j u s' ↔ j = job ∧ u = [] ∧ s' = s :=
  gives_of_run rfl

theorem gives_modify {f : Session → Session} {a : PUnit} :
    (modify f : Gen PUnit).Gives job s a u s' ↔ a = ⟨⟩ ∧ u = [] ∧ s' = f s :=
  gives_of_run rfl

theorem gives_log {event : Event} {a : Unit} :
    (log event).Gives job s a u s' ↔ a = () ∧ u = [] ∧ s' = { s with log := s.log ++ [event] } :=
  gives_of_run rfl

theorem gives_isPure {b : Bool} :
    isPure.Gives job s b u s' ↔ b = s.isPure ∧ u = [] ∧ s' = s :=
  gives_of_run rfl

theorem gives_find? {name : String} {m : Option Meaning} :
    (find? name).Gives job s m u s' ↔ m = s.find? name ∧ u = [] ∧ s' = s :=
  gives_of_run rfl

theorem gives_reference {m : Meaning} {c : Code} :
    (reference m).Gives job s c u s' ↔ c = m.reference s.package ∧ u = [] ∧ s' = s :=
  gives_of_run rfl

theorem gives_thunk {body c : Code} :
    (thunk body).Gives job s c u s' ↔ c = .thunk job.options.variadic body ∧ u = [] ∧ s' = s :=
  gives_of_run rfl

theorem gives_resolve {t : Token} {m : Meaning} :
    (resolve t).Gives job s m u s' ↔ s.find? t.text = some m ∧ u = [] ∧ s' = s := by
  rw [gives_iff, exec_resolve, steps_resolve]
  cases s.find? t.text with
  | none => simp
  | some m' => simp [eq_comm, and_comm, and_assoc]

theorem gives_register {t : Token} {kind : Kind} {reach : Reach} {preserve : Bool} {b : Binding} :
    (register t kind reach preserve).Gives job s b u s' ↔
      s.register t kind reach preserve = .ok (b, s') ∧ u = [] := by
  rw [gives_iff, exec_register, steps_register]
  cases s.register t kind reach preserve <;> simp [Prod.ext_iff, eq_comm]

theorem gives_inLayer {pure? : Option Bool} {g : Gen α} {a : α} :
    (inLayer pure? g).Gives job s a u s' ↔
      ∃ v s₁, g.Gives job (s.enter pure?) a v s₁ ∧ u = [.layer (s.enter pure?) v] ∧
        s' = s₁.leave := by
  simp only [gives_iff, exec_inLayer, steps_inLayer, Prod.mk.injEq]
  constructor
  · rintro ⟨⟨hvalue, rfl⟩, rfl⟩
    exact ⟨_, _, ⟨Prod.ext hvalue rfl, rfl⟩, rfl, rfl⟩
  · rintro ⟨v, s₁, ⟨hexec, rfl⟩, rfl, rfl⟩
    rw [hexec]
    exact ⟨⟨rfl, rfl⟩, rfl⟩

theorem gives_inCall {c : Call} {g : Gen α} {a : α} :
    (inCall c g).Gives job s a u s' ↔ ∃ v, g.Gives job s a v s' ∧ u = [.call c s v] := by
  simp only [gives_iff, exec_inCall, steps_inCall]
  constructor
  · rintro ⟨hexec, rfl⟩
    exact ⟨_, ⟨hexec, rfl⟩, rfl⟩
  · rintro ⟨v, ⟨hexec, rfl⟩, rfl⟩
    exact ⟨hexec, rfl⟩

theorem gives_unlessPure {cause : Cause} {span : Span} {g : Gen α} {a : α} :
    (unlessPure cause span g).Gives job s a u s' ↔ s.isPure = false ∧ g.Gives job s a u s' := by
  rw [gives_iff, exec_unlessPure, steps_unlessPure, gives_iff]
  cases s.isPure <;> simp

/-- A last step that makes the value. -/
theorem gives_map {g : Gen α} {f : α → β} {b : β} :
    (do return f (← g) : Gen β).Gives job s b u s' ↔ ∃ a, g.Gives job s a u s' ∧ b = f a := by
  simp only [gives_bind, gives_pure]
  constructor
  · rintro ⟨a, v, s₁, w, hg, ⟨rfl, rfl, rfl⟩, rfl⟩
    rw [List.append_nil]
    exact ⟨a, hg, rfl⟩
  · rintro ⟨a, hg, rfl⟩
    exact ⟨a, u, s', [], hg, ⟨rfl, rfl, rfl⟩, (List.append_nil u).symm⟩

/-- A first step without effect. -/
theorem gives_bind_of_eq {g : Gen α} {k : α → Gen β} {a : α} {b : β}
    (hg : ∀ {a' v s₁}, g.Gives job s a' v s₁ ↔ a' = a ∧ v = [] ∧ s₁ = s) :
    (g >>= k).Gives job s b u s' ↔ (k a).Gives job s b u s' := by
  rw [gives_bind]
  constructor
  · rintro ⟨a', v, s₁, w, h, hk, rfl⟩
    obtain ⟨rfl, rfl, rfl⟩ := hg.1 h
    exact hk
  · intro h
    exact ⟨a, [], s, u, hg.2 ⟨rfl, rfl, rfl⟩, h, rfl⟩

/-- A condition under which the rest is refused. -/
theorem gives_guard {c : Prop} [Decidable c] {g : Gen α} {cause : Cause} {span : Span} {a : α} :
    (if c then (do (refuse cause span : Gen PUnit); g) else g).Gives job s a u s' ↔
      ¬ c ∧ g.Gives job s a u s' := by
  by_cases hc : c
  · simp [hc, gives_bind, not_gives_refuse]
  · simp [hc]

theorem gives_mapM_nil {f : α → Gen β} {bs : List β} :
    (([] : List α).mapM f).Gives job s bs u s' ↔ bs = [] ∧ u = [] ∧ s' = s := by
  rw [List.mapM_nil, gives_pure]

theorem gives_mapM_cons {f : α → Gen β} {a : α} {as : List α} {bs : List β} :
    ((a :: as).mapM f).Gives job s bs u s' ↔
      ∃ b v s₁ bs' w, (f a).Gives job s b v s₁ ∧ (as.mapM f).Gives job s₁ bs' w s' ∧
        bs = b :: bs' ∧ u = v ++ w := by
  simp only [List.mapM_cons, gives_bind (g := f a), gives_map]
  constructor
  · rintro ⟨b, v, s₁, w, hb, ⟨bs', hbs, rfl⟩, rfl⟩
    exact ⟨b, v, s₁, bs', w, hb, hbs, rfl, rfl⟩
  · rintro ⟨b, v, s₁, bs', w, hb, hbs, rfl, rfl⟩
    exact ⟨b, v, s₁, w, hb, ⟨bs', hbs, rfl⟩, rfl⟩

end LispLua.Gen
