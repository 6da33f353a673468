import LispLua.Generate.Term

/-!
# One program under two jobs

A generation reads its job in few places, and none of them decides what happens next: only the code
depends on it. So the same program runs in the same way under two jobs, if the sessions look alike
to it. An accord says what the sessions have in common, and whether the code is the same as well.

Codes are compared by `Same`, which asks for nothing if the code may differ. Whatever is made of
codes can then be compared by it too, and no form needs a relation of its own.

The first run may also be refused for a cause that does not count. Nothing is said about the second
run then.
-/

namespace LispLua.Gen

open Lua

/-- What two runs of the same program have in common. -/
structure Accord where
  /-- Whether the code is the same. -/
  exact : Prop
  /-- The causes that do not count. -/
  excused : Cause → Prop
  job : Job
  job' : Job
  session : Session → Session → Prop
  -- What can be read off.
  variadic_eq : exact → job'.options.variadic = job.options.variadic
  find?_eq {s s' : Session} (n : String) : session s s' → s'.find? n = s.find? n
  getRoot?_eq {s s' : Session} (n : String) : session s s' →
    s'.scope.getRoot? n = s.scope.getRoot? n
  isPure_eq {s s' : Session} : session s s' →
    s'.isPure = s.isPure ∨ s'.isPure = false ∧ ∀ c, c.category = .impure → excused c
  package_eq {s s' : Session} : exact → session s s' → s'.package = s.package
  power_eq {s s' : Session} {n : String} {m : Meaning} : exact → session s s' →
    s.find? n = some m → m.form? = some (.operator .pow) →
    power job'.options.target = power job.options.target
  -- What changes a session.
  session_enter {s s' : Session} (pure? : Option Bool) : session s s' →
    session (s.enter pure?) (s'.enter pure?)
  session_leave {s s' : Session} : session s s' → session s.leave s'.leave
  session_set {s s' : Session} (n : String) (b : Binding) : session s s' →
    session { s with scope := s.scope.set n b } { s' with scope := s'.scope.set n b }
  session_setRoot {s s' : Session} (n : String) (b : Binding) : session s s' →
    session { s with scope := s.scope.setRoot n b } { s' with scope := s'.scope.setRoot n b }
  session_nameModule {s s' : Session} (n : String) : session s s' →
    session (s.nameModule job.options n) (s'.nameModule job'.options n)
  session_log {s s' : Session} (event event' : Event) : (job' = job → event' = event) →
    session s s' → session { s with log := s.log ++ [event] } { s' with log := s'.log ++ [event'] }

namespace Accord

variable {A : Accord} {α β γ δ : Type}

/-! ### Values -/

/-- Values that are equal if the code is the same. -/
def Same (A : Accord) (a b : α) : Prop :=
  A.exact → b = a

theorem Same.refl (a : α) : A.Same a a :=
  fun _ => rfl

theorem Same.map {a b : α} (f : α → β) (h : A.Same a b) : A.Same (f a) (f b) :=
  fun he => congrArg f (h he)

theorem Same.map₂ {a a' : α} {b b' : β} (f : α → β → γ) (h : A.Same a a') (h' : A.Same b b') :
    A.Same (f a b) (f a' b') :=
  fun he => by rw [h he, h' he]

/-! ### Ends of runs -/

variable {V : α → β → Prop} {W : γ → δ → Prop}

/-- Two runs end in the same way, and leave sessions that look alike. -/
inductive Ends (A : Accord) (V : α → β → Prop) :
    Except Fault α × Session → Except Fault β × Session → Prop
  | ok {a : α} {b : β} {s s' : Session} : V a b → A.session s s' → Ends A V (.ok a, s) (.ok b, s')
  | error {f : Fault} {s s' : Session} : A.session s s' → Ends A V (.error f, s) (.error f, s')
  | excused {f : Fault} {s : Session} {r : Except Fault β × Session} : A.excused f.cause →
      Ends A V (.error f, s) r

/-- If every cause counts, both runs succeed or both fail with the same fault. -/
theorem Ends.agree {r : Except Fault α × Session} {r' : Except Fault β × Session}
    (h : A.Ends V r r') (hcauses : ∀ c, ¬ A.excused c) :
    (∃ a b, r.1 = .ok a ∧ r'.1 = .ok b) ∨ ∃ f, r.1 = .error f ∧ r'.1 = .error f := by
  cases h with
  | ok _ _ => exact .inl ⟨_, _, rfl, rfl⟩
  | error _ => exact .inr ⟨_, rfl, rfl⟩
  | excused hf => exact absurd hf (hcauses _)

/-- If every cause counts and the code is the same, so is the result. -/
theorem Ends.eq {r r' : Except Fault α × Session} (h : A.Ends A.Same r r') (he : A.exact)
    (hcauses : ∀ c, ¬ A.excused c) : r'.1 = r.1 ∧ A.session r.2 r'.2 := by
  cases h with
  | ok hab hs => exact ⟨congrArg Except.ok (hab he), hs⟩
  | error hs => exact ⟨rfl, hs⟩
  | excused hf => exact absurd hf (hcauses _)

/-- From sessions that look alike, two generations end in the same way. -/
def Runs (A : Accord) (V : α → β → Prop) (g : Gen α) (h : Gen β) : Prop :=
  ∀ ⦃s s'⦄, A.session s s' → A.Ends V (g.exec A.job s) (h.exec A.job' s')

namespace Runs

theorem pure {a : α} {b : β} (h : V a b) : A.Runs V (pure a) (pure b) :=
  fun _ _ hs => .ok h hs

theorem refuse (cause : Cause) (span : Span) :
    A.Runs V (Gen.refuse cause span) (Gen.refuse cause span) :=
  fun _ _ hs => .error hs

theorem bind {g : Gen α} {h : Gen β} {k : α → Gen γ} {l : β → Gen δ} (hg : A.Runs V g h)
    (hk : ∀ a b, V a b → A.Runs W (k a) (l b)) : A.Runs W (g >>= k) (h >>= l) := by
  intro s s' hs
  have hends := hg hs
  rw [exec_bind, exec_bind]
  generalize g.exec A.job s = r at hends
  generalize h.exec A.job' s' = r' at hends
  cases hends with
  | ok hab hs => exact hk _ _ hab hs
  | error hs => exact .error hs
  | excused hf => exact .excused hf

/-- A sequence whose first part gives equal values. -/
theorem seq {g h : Gen α} {k : α → Gen γ} {l : α → Gen δ} (hg : A.Runs Eq g h)
    (hk : ∀ a, A.Runs W (k a) (l a)) : A.Runs W (g >>= k) (h >>= l) :=
  hg.bind fun a _ hab => hab ▸ hk a

/-- A last step that makes the value. -/
theorem map {g : Gen α} {h : Gen β} {f : α → γ} {f' : β → δ} (hg : A.Runs V g h)
    (hf : ∀ a b, V a b → W (f a) (f' b)) :
    A.Runs W (do return f (← g)) (do return f' (← h)) :=
  hg.bind fun _ _ hab => .pure (hf _ _ hab)

theorem mapEq {g h : Gen α} {f : α → β} (hg : A.Runs Eq g h) :
    A.Runs Eq (do return f (← g)) (do return f (← h)) :=
  hg.map fun _ _ => congrArg f

theorem mapSame {g h : Gen α} {f : α → β} (hg : A.Runs A.Same g h) :
    A.Runs A.Same (do return f (← g)) (do return f (← h)) :=
  hg.map fun _ _ => .map f

theorem ite {c : Prop} [Decidable c] {g₁ g₂ : Gen α} {h₁ h₂ : Gen β} (h₁₁ : A.Runs V g₁ h₁)
    (h₂₂ : A.Runs V g₂ h₂) : A.Runs V (if c then g₁ else g₂) (if c then h₁ else h₂) := by
  split
  · exact h₁₁
  · exact h₂₂

/-- A condition under which the rest is refused. -/
theorem guard {c : Prop} [Decidable c] {g : Gen α} {h : Gen β} {cause : Cause} {span : Span}
    (hg : A.Runs V g h) :
    A.Runs V (if c then (do (Gen.refuse cause span : Gen PUnit); g) else g)
      (if c then (do (Gen.refuse cause span : Gen PUnit); h) else h) :=
  .ite ((refuse (V := Eq) cause span).seq fun _ => hg) hg

theorem mapM {f : α → Gen β} {g : α → Gen β} (as : List α)
    (h : ∀ a, A.Runs A.Same (f a) (g a)) : A.Runs A.Same (as.mapM f) (as.mapM g) := by
  induction as with
  | nil => exact .pure (.refl _)
  | cons a as ih =>
    rw [List.mapM_cons, List.mapM_cons]
    exact (h a).bind fun _ _ hfirst => ih.map fun _ _ hrest => hfirst.map₂ _ hrest

theorem inLayer {g : Gen α} {h : Gen β} (pure? : Option Bool) (hg : A.Runs V g h) :
    A.Runs V (Gen.inLayer pure? g) (Gen.inLayer pure? h) := by
  intro s s' hs
  have hinside := hg (A.session_enter pure? hs)
  rw [exec_inLayer, exec_inLayer]
  generalize g.exec A.job (s.enter pure?) = r at hinside
  generalize h.exec A.job' (s'.enter pure?) = r' at hinside
  cases hinside with
  | ok hab hs => exact .ok hab (A.session_leave hs)
  | error hs => exact .error (A.session_leave hs)
  | excused hf => exact .excused hf

theorem unlessPure {g : Gen α} {h : Gen β} {cause : Cause} (span : Span)
    (hcause : cause.category = .impure) (hg : A.Runs V g h) :
    A.Runs V (Gen.unlessPure cause span g) (Gen.unlessPure cause span h) := by
  intro s s' hs
  rw [exec_unlessPure, exec_unlessPure]
  rcases A.isPure_eq hs with heq | ⟨hpure, hexcused⟩
  · rw [heq]
    split
    · exact .error hs
    · exact hg hs
  · rw [hpure, if_neg Bool.false_ne_true]
    split
    · exact .excused (hexcused _ hcause)
    · exact hg hs

end Runs

/-! ### Actions -/

theorem runs_find? (n : String) : A.Runs Eq (find? n) (find? n) :=
  fun _ _ hs => .ok (A.find?_eq n hs).symm hs

theorem runs_resolve (t : Token) : A.Runs Eq (resolve t) (resolve t) := by
  refine (runs_find? t.text).seq fun m => ?_
  cases m with
  | none => exact .refuse _ _
  | some m => exact .pure rfl

theorem runs_reference (m : Meaning) : A.Runs A.Same (reference m) (reference m) :=
  fun _ _ hs => .ok (fun he => congrArg m.reference (A.package_eq he hs)) hs

theorem runs_log (event : Event) : A.Runs Eq (log event) (log event) :=
  fun _ _ hs => .ok rfl (A.session_log event event (fun _ => rfl) hs)

theorem runs_warn (message : String) (span : Span) :
    A.Runs Eq (warn message span) (warn message span) :=
  fun _ _ hs => .ok rfl (A.session_log _ _ (fun hjob => by rw [hjob]) hs)

theorem runs_thunk {body body' : Code} (h : A.Same body body') :
    A.Runs A.Same (thunk body) (thunk body') := by
  refine fun _ _ hs => .ok (fun he => ?_) hs
  rw [h he, A.variadic_eq he]

theorem runs_register (t : Token) (kind : Kind) (reach : Reach) (preserve : Bool) :
    A.Runs Eq (register t kind reach preserve) (register t kind reach preserve) := by
  intro s s' hs
  rw [exec_register, exec_register]
  cases reach with
  | block => exact .ok rfl (A.session_set _ _ hs)
  | everywhere => exact .ok rfl (A.session_setRoot _ _ hs)
  | package =>
    simp only [Session.register, A.getRoot?_eq t.text hs]
    cases (s.scope.getRoot? t.text).any (·.reach == .package) with
    | true => exact .error hs
    | false => exact .ok rfl (A.session_setRoot _ _ hs)

theorem runs_registerLocal (t : Token) : A.Runs Eq (registerLocal t) (registerLocal t) :=
  (runs_register t _ _ _).mapEq

theorem runs_permit (m : Meaning) (span : Span) : A.Runs Eq (permit m span) (permit m span) := by
  intro s s' hs
  simp only [permit, exec_bind, exec_isPure]
  rcases A.isPure_eq hs with heq | ⟨hpure, hexcused⟩
  · rw [heq]
    split
    · exact .error hs
    · exact .ok rfl hs
  · rw [hpure, Bool.false_and]
    split
    · exact .excused (hexcused _ rfl)
    · exact .ok rfl hs

end Accord

end LispLua.Gen
