import LispLua.Generate.Basic

/-!
# Steps

A step can hold other steps, and a generation has a row of them. This module says when a step
happened somewhere in a row, and what a call stood for at its moment.
-/

namespace LispLua

/-- What a call is made through, if that is a plain name. -/
def Session.meaning? (s : Session) (c : Call) : Option Meaning :=
  c.name?.bind s.find?

/-- The special form a call stands for. -/
def Session.form? (s : Session) (c : Call) : Option Form :=
  (s.meaning? c).bind Meaning.form?

theorem Session.meaning?_of_target {s : Session} {c : Call} {t : Token} (h : c.target = .name t) :
    s.meaning? c = s.find? t.text := by
  rw [meaning?, Call.name?, h]
  rfl

/-- Whether a call defines a function, and a pure one, and under which name. -/
def Session.function? (s : Session) (c : Call) : Option (Bool × Token) :=
  match s.form? c, c.args with
  | some (.function isPure _), .name t :: .list _ _ :: _ => some (isPure, t)
  | some (.define isPure), .name t :: .list _ _ :: _ :: _ => some (isPure, t)
  | _, _ => none

namespace Step

/-- A step is one of some steps or happened inside one of them. -/
inductive Occurs (step : Step) : List Step → Prop
  | mem {steps : List Step} : step ∈ steps → Occurs step steps
  | call {c : Call} {s : Session} {inner steps : List Step} :
      .call c s inner ∈ steps → Occurs step inner → Occurs step steps
  | layer {s : Session} {inner steps : List Step} :
      .layer s inner ∈ steps → Occurs step inner → Occurs step steps

variable {step : Step} {steps inner : List Step}

@[simp] theorem not_occurs_nil : ¬ Occurs step [] := by
  intro h
  cases h with
  | mem h => cases h
  | call h _ => cases h
  | layer h _ => cases h

theorem Occurs.mono {more : List Step} (h : Occurs step steps) (hsub : steps ⊆ more) :
    Occurs step more := by
  cases h with
  | mem h => exact .mem (hsub h)
  | call hc h => exact .call (hsub hc) h
  | layer hl h => exact .layer (hsub hl) h

theorem occurs_append {more : List Step} :
    Occurs step (steps ++ more) ↔ Occurs step steps ∨ Occurs step more := by
  constructor
  · intro h
    cases h with
    | mem h => exact (List.mem_append.1 h).imp .mem .mem
    | call hc h => exact (List.mem_append.1 hc).imp (.call · h) (.call · h)
    | layer hl h => exact (List.mem_append.1 hl).imp (.layer · h) (.layer · h)
  · rintro (h | h)
    · exact h.mono (List.subset_append_left _ _)
    · exact h.mono (List.subset_append_right _ _)

theorem occurs_call {c : Call} {s : Session} :
    Occurs step [.call c s inner] ↔ step = .call c s inner ∨ Occurs step inner := by
  constructor
  · intro h
    cases h with
    | mem h => exact .inl (List.mem_singleton.1 h)
    | call hc h =>
      cases List.mem_singleton.1 hc
      exact .inr h
    | layer hl _ => cases List.mem_singleton.1 hl
  · rintro (rfl | h)
    · exact .mem (List.mem_singleton.2 rfl)
    · exact .call (List.mem_singleton.2 rfl) h

theorem occurs_layer {s : Session} :
    Occurs step [.layer s inner] ↔ step = .layer s inner ∨ Occurs step inner := by
  constructor
  · intro h
    cases h with
    | mem h => exact .inl (List.mem_singleton.1 h)
    | call hc _ => cases List.mem_singleton.1 hc
    | layer hl h =>
      cases List.mem_singleton.1 hl
      exact .inr h
  · rintro (rfl | h)
    · exact .mem (List.mem_singleton.2 rfl)
    · exact .layer (List.mem_singleton.2 rfl) h

/-- A property holds of some steps and of all steps inside them. -/
def Everywhere (Q : Step → Prop) (steps : List Step) : Prop :=
  ∀ step, Occurs step steps → Q step

namespace Everywhere

variable {Q : Step → Prop} {u v : List Step} {c : Call} {s : Session}

theorem left (h : Everywhere Q (u ++ v)) : Everywhere Q u :=
  fun step hstep => h step (occurs_append.2 (.inl hstep))

theorem right (h : Everywhere Q (u ++ v)) : Everywhere Q v :=
  fun step hstep => h step (occurs_append.2 (.inr hstep))

theorem call (h : Everywhere Q [.call c s u]) : Everywhere Q u :=
  fun step hstep => h step (occurs_call.2 (.inr hstep))

theorem layer (h : Everywhere Q [.layer s u]) : Everywhere Q u :=
  fun step hstep => h step (occurs_layer.2 (.inr hstep))

theorem head (h : Everywhere Q [.call c s u]) : Q (.call c s u) :=
  h _ (occurs_call.2 (.inl rfl))

end Everywhere

mutual

/-- The steps inside a step, at any depth. -/
def nested : Step → List Step
  | .call _ _ steps | .layer _ steps => flatten steps

/-- Some steps and the steps inside them. -/
def flatten : List Step → List Step
  | [] => []
  | step :: steps => step :: step.nested ++ flatten steps

end

theorem flatten_append (u v : List Step) : flatten (u ++ v) = flatten u ++ flatten v := by
  induction u with
  | nil => rfl
  | cons step u ih => simp [flatten, ih]

theorem mem_flatten_of_occurs (h : Occurs step steps) : step ∈ flatten steps := by
  induction h with
  | mem h =>
    obtain ⟨u, v, rfl⟩ := List.append_of_mem h
    simp [flatten_append, flatten]
  | call h _ ih =>
    obtain ⟨u, v, rfl⟩ := List.append_of_mem h
    simp [flatten_append, flatten, nested, ih]
  | layer h _ ih =>
    obtain ⟨u, v, rfl⟩ := List.append_of_mem h
    simp [flatten_append, flatten, nested, ih]

/-- To know of all steps it is enough to go through them. -/
theorem everywhere_of_flatten {Q : Step → Prop} (h : ∀ step ∈ flatten steps, Q step) :
    Everywhere Q steps :=
  fun step hstep => h step (mem_flatten_of_occurs hstep)

end Step

end LispLua
