import LispLua.Proofs.Generation.Scoping

/-!
# Purity

Inside a pure function no call of a function with effects and no definition is lowered, at any
depth, and every layer is pure. The guards against them stand in four places; what carries them to
every call is that a layer is as pure as the one around it and that no form makes a layer of its own
kind.
-/

namespace LispLua

/-- Whether a form declares names of the program. -/
def Form.isDefining : Form → Bool
  | define _ | function .. | declare => true
  | _ => false

/-- A step that is allowed inside pure functions: a call of neither a function with effects nor
a defining form, or a pure layer. -/
def Step.Disciplined : Step → Prop
  | .call c s _ => ∀ m, s.meaning? c = some m →
      m.isEffect = false ∧ ∀ form, m.form? = some form → form.isDefining = false
  | .layer s _ => s.isPure = true

/-- A call that defines a pure function lowers its body in one pure layer, by disciplined steps. -/
def Step.Sound : Step → Prop
  | .call c s inner => ∀ token, s.function? c = some (true, token) →
      ∃ s' body, inner = [.layer s' body] ∧ s'.isPure = true ∧ ∀ step, Occurs step body →
        step.Disciplined
  | .layer .. => True

namespace Gen

open Session (Kept)

variable {lower : Lower} {α : Type}

/-- Every step of a run that succeeds has the property `Q` if the session has the property `P`. -/
def TakesOnly (P : Session → Prop) (Q : Step → Prop) (g : Gen α) : Prop :=
  ∀ job s a s', P s → g.exec job s = (.ok a, s') → ∀ step, Step.Occurs step (g.steps job s) → Q step

/-- Properties of sessions and steps that generations hand on: to the session behind them, and to
the layers they open. -/
structure Watch (P : Session → Prop) (Q : Step → Prop) : Prop where
  kept : ∀ {s s'}, Kept s s' → P s → P s'
  enter : ∀ {s pure?}, P s → pure? = none ∨ s.isPure = false → P (s.enter pure?)
  layer : ∀ {s pure?} inner, P s → pure? = none ∨ s.isPure = false →
    Q (.layer (s.enter pure?) inner)

/-- A sequence that succeeds is a first part that succeeds and a second one behind it. -/
theorem parts_of_bind {β : Type} {g : Gen α} {k : α → Gen β} {job : Job} {s s' : Session} {b : β}
    (h : (g >>= k).exec job s = (.ok b, s')) :
    ∃ a s₁, g.exec job s = (.ok a, s₁) ∧ (k a).exec job s₁ = (.ok b, s') ∧
      (g >>= k).steps job s = g.steps job s ++ (k a).steps job s₁ := by
  rw [exec_bind] at h
  rw [steps_bind]
  rcases hg : g.exec job s with ⟨_ | a, s₁⟩
  · rw [hg] at h
    cases h
  · rw [hg] at h
    exact ⟨a, s₁, rfl, h, rfl⟩

theorem inside_of_inLayer {pure? : Option Bool} {g : Gen α} {job : Job} {s s' : Session} {a : α}
    (h : (inLayer pure? g).exec job s = (.ok a, s')) :
    ∃ s₁, g.exec job (s.enter pure?) = (.ok a, s₁) := by
  rw [exec_inLayer] at h
  exact ⟨_, Prod.ext (Prod.mk.inj h).1 rfl⟩

section

variable {P : Session → Prop} {Q : Step → Prop}

/-- What is built from actions takes only steps with a property that is handed on. -/
theorem Built.takesOnly (w : Watch P Q) (hkept : ∀ t job s, Kept s ((lower t).exec job s).2)
    (hlower : ∀ t, TakesOnly P Q (lower t)) {p : Place} {g : Gen α} (h : Built lower p g)
    (job : Job) (s s' : Session) (a : α) (hP : P s) (hs : p = .outside → s.isPure = false)
    (hrun : g.exec job s = (.ok a, s')) (step : Step) (hstep : Step.Occurs step (g.steps job s)) :
    Q step := by
  induction h generalizing s s' with
  | pure | throw | read | find? | reference | log => exact absurd hstep (by simp)
  | nameModule => exact absurd hstep Step.not_occurs_nil
  | register | registerOutside => exact absurd hstep (by simp)
  | lower t => exact hlower t job s a s' hP hrun step hstep
  | @bind _ _ _ g k hg _ ihg ihk =>
    -- The second part starts in a session that the first one left, so the property must be kept.
    have hkeep := hg.kept hkept job s hs
    obtain ⟨b, s₁, hfirst, hsecond, hsteps⟩ := parts_of_bind hrun
    rw [hfirst] at hkeep
    rw [hsteps] at hstep
    rcases Step.occurs_append.1 hstep with hstep | hstep
    · exact ihg s s₁ b hP hs hfirst hstep
    · exact ihk b s₁ s' a (w.kept hkeep hP) (fun hp => hkeep.isPure.trans (hs hp)) hsecond hstep
  | inLayer _ ih =>
    rcases Step.occurs_layer.1 hstep with rfl | hstep
    · exact w.layer _ hP (.inl rfl)
    · obtain ⟨s₁, hinside⟩ := inside_of_inLayer hrun
      exact ih _ s₁ a (w.enter hP (.inl rfl)) Place.anywhere_ne hinside hstep
  | inFunction isPure _ ih =>
    rcases Step.occurs_layer.1 hstep with rfl | hstep
    · exact w.layer _ hP (.inr (hs rfl))
    · obtain ⟨s₁, hinside⟩ := inside_of_inLayer hrun
      exact ih _ s₁ a (w.enter hP (.inr (hs rfl))) Place.anywhere_ne hinside hstep
  | unlessPure cause span _ ih =>
    rw [exec_unlessPure] at hrun
    rw [steps_unlessPure] at hstep
    split at hrun
    · cases hrun
    · rename_i hpure
      rw [if_neg hpure] at hstep
      exact ih s s' a hP (fun _ => Bool.eq_false_iff.2 hpure) hrun hstep

/-- The lowering of a term takes only such steps if the calls among them are known to. -/
theorem takesOnly_within (w : Watch P Q)
    (hcall : ∀ depth c job s a s', (∀ t, TakesOnly P Q (within depth t)) → P s →
      (dispatch (within depth) c).exec job s = (.ok a, s') →
        Q (.call c s ((dispatch (within depth) c).steps job s)))
    (depth : Nat) (t : Term) : TakesOnly P Q (within depth t) := by
  induction depth generalizing t with
  | zero =>
    intro job s a s' _ hrun
    cases hrun
  | succ depth ih =>
    intro job s a s' hP hrun step hstep
    rw [within] at hrun hstep
    rcases step_cases (within depth) t with h | ⟨c, -, h⟩
    · exact h.takesOnly w (kept_within depth) ih job s s' a hP Place.anywhere_ne hrun step hstep
    rw [h, call, exec_inCall] at hrun
    rw [h, call, steps_inCall] at hstep
    -- The step is the call itself, or it happened inside, where the depth is smaller.
    rcases Step.occurs_call.1 hstep with rfl | hstep
    · exact hcall depth c job s a s' ih hP hrun
    rcases dispatch_cases (within depth) c job s with ⟨-, h⟩ | ⟨f, h⟩ | ⟨m, -, -, h⟩
    · exact h.takesOnly w (kept_within depth) ih job s s' a hP Place.anywhere_ne hrun step hstep
    · rw [exec, h] at hrun
      cases hrun
    · rw [exec, h] at hrun
      rw [Gen.steps, h] at hstep
      have hbuilt : Built (within depth) .naming (through (within depth) m c) :=
        built_through m c fun _ => rfl
      exact hbuilt.takesOnly w (kept_within depth) ih job s s' a hP Place.naming_ne hrun step hstep

end

/-! ### Inside pure functions -/

theorem watch_disciplined : Watch (·.isPure = true) Step.Disciplined where
  kept h hs := h.isPure.trans hs
  enter hs hpure := by
    obtain rfl := hpure.resolve_right (by rw [hs]; decide)
    exact hs
  layer _ hs hpure := by
    obtain rfl := hpure.resolve_right (by rw [hs]; decide)
    exact hs

/-- A defining form is refused inside pure functions. -/
theorem expand_defining (lower : Lower) {form : Form} (h : form.isDefining = true) (c : Call)
    (job : Job) {s : Session} (hs : s.isPure = true) :
    ∃ f, (expand lower form c).exec job s = (.error f, s) := by
  cases form with
  | define isPure =>
    refine ⟨⟨.valueInPure, c.span⟩, ?_⟩
    rw [expand, exec_plain, define, exec_unlessPure, if_pos hs]
    rfl
  | function isPure hidden =>
    refine ⟨⟨.functionInPure, c.span⟩, ?_⟩
    rw [expand, exec_plain, function, exec_unlessPure, if_pos hs]
    rfl
  | declare =>
    refine ⟨⟨.declareInPure, c.span⟩, ?_⟩
    rw [expand, declare, exec_unlessPure, if_pos hs]
  | _ => cases h

theorem disciplined_call {c : Call} {job : Job} {s s' : Session} {a : Lua.Stmt}
    (hs : s.isPure = true) (hrun : (dispatch lower c).exec job s = (.ok a, s'))
    (inner : List Step) : (Step.call c s inner).Disciplined := by
  intro m hm
  rcases dispatch_cases lower c job s with ⟨hnone, -⟩ | ⟨f, h⟩ | ⟨m', hm', heffect, h⟩
  · rw [hnone] at hm
    cases hm
  · rw [exec, h] at hrun
    cases hrun
  · obtain rfl : m' = m := Option.some.inj (hm'.symm.trans hm)
    rw [hs, Bool.true_and] at heffect
    refine ⟨heffect, fun form hform => Bool.eq_false_iff.2 fun hdefining => ?_⟩
    obtain ⟨f, hf⟩ := expand_defining lower hdefining c job hs
    rw [exec, h, through, hform, ← exec, hf] at hrun
    cases hrun

theorem disciplined_within (depth : Nat) (t : Term) :
    TakesOnly (·.isPure = true) Step.Disciplined (within depth t) :=
  takesOnly_within watch_disciplined (fun _ _ _ _ _ _ _ hs hrun => disciplined_call hs hrun _)
    depth t

/-! ### Bodies of pure functions -/

theorem watch_sound : Watch (fun _ => True) Step.Sound where
  kept _ _ := trivial
  enter _ _ := trivial
  layer _ _ _ := trivial

/-- The definition of a pure function lowers its body by disciplined steps. -/
theorem steps_named (hkept : ∀ t job s, Kept s ((lower t).exec job s).2)
    (hlower : ∀ t, TakesOnly (·.isPure = true) Step.Disciplined (lower t)) {hidden : Bool}
    {token : Token} {formals rest : List Term} {job : Job} {s s' : Session} {a : Lua.Code}
    (hrun : (named lower true hidden token formals rest).exec job s = (.ok a, s')) :
    ∃ s₁ body, (named lower true hidden token formals rest).steps job s = [.layer s₁ body] ∧
      s₁.isPure = true ∧ ∀ step, Step.Occurs step body → step.Disciplined := by
  obtain ⟨b, s₁, -, hrun, hfirst⟩ := parts_of_bind hrun
  obtain ⟨-, s₂, -, hrun, hsecond⟩ := parts_of_bind hrun
  obtain ⟨code, s₃, hlayer, hrun, hthird⟩ := parts_of_bind hrun
  obtain ⟨s₄, hbody⟩ := inside_of_inLayer hlayer
  -- Behind the layer only the code of the definition is put together, whatever its reach.
  have hlast : ∀ c : Bool, (if c then pure (.declareThen b.emitted code) else do
      return .assign (← reference (.declared b)) code : Gen Lua.Code).steps job s₃ = [] := by
    intro c
    cases c <;> rfl
  refine ⟨s₂.enter (some true), (closure lower formals (if isGlobal rest then rest.drop 1 else
    rest)).steps job (s₂.enter (some true)), ?_, rfl, fun step hstep => ?_⟩
  · rw [named, hfirst, hsecond, hthird, hlast, steps_register, steps_log, steps_inLayer]
    rfl
  · exact (built_closure (p := .anywhere) _ _).takesOnly watch_disciplined hkept hlower job _ s₄
      code rfl Place.anywhere_ne hbody step hstep

theorem sound_call (hkept : ∀ t job s, Kept s ((lower t).exec job s).2)
    (hlower : ∀ t, TakesOnly (·.isPure = true) Step.Disciplined (lower t)) {c : Call} {job : Job}
    {s s' : Session} {a : Lua.Stmt} (hrun : (dispatch lower c).exec job s = (.ok a, s')) :
    (Step.call c s ((dispatch lower c).steps job s)).Sound := by
  intro token hdef
  obtain ⟨form, cause, hidden, formals, rest, hform, hexpand⟩ := expand_of_function? hdef
  have h := run_dispatch_form hform lower job
  rw [exec, h, ← exec, hexpand, exec_plain, exec_unlessPure] at hrun
  rw [Gen.steps, h, ← Gen.steps, hexpand, steps_plain, steps_unlessPure]
  split at hrun
  · cases hrun
  · rename_i hs
    rw [if_neg hs]
    rcases hnamed : (named lower true hidden token formals rest).exec job s with ⟨_ | code, s₁⟩
    · rw [hnamed] at hrun
      cases hrun
    · exact steps_named hkept hlower hnamed

theorem sound_within (depth : Nat) (t : Term) :
    TakesOnly (fun _ => True) Step.Sound (within depth t) :=
  takesOnly_within watch_sound
    (fun depth _ _ _ _ _ _ _ hrun => sound_call (kept_within depth) (disciplined_within depth) hrun)
    depth t

/-! ### Every generation -/

theorem Built.disciplined {g : Gen α} (h : Built term .anywhere g) :
    TakesOnly (·.isPure = true) Step.Disciplined g :=
  fun job s a s' hs hrun => h.takesOnly watch_disciplined kept_term
    (fun t => disciplined_within t.rank t) job s s' a hs Place.anywhere_ne hrun

theorem disciplined_term (t : Term) : TakesOnly (·.isPure = true) Step.Disciplined (term t) :=
  disciplined_within t.rank t

/-- A source that is accepted is a program whose calls are lowered without a fault. -/
theorem statements_of_compile {source sourceName text : String} {options : Options}
    (h : (compile source sourceName options).1 = .ok text) {p : Program}
    (hp : parse source = .ok p) :
    ∃ ss s', (statements p).exec ⟨options, sourceName, source⟩
      (Session.start.publish ⟨options, sourceName, source⟩) = (.ok ss, s') := by
  simp only [compile, hp] at h
  rw [exec_program] at h
  rcases hrun : (statements p).exec ⟨options, sourceName, source⟩
    (Session.start.publish ⟨options, sourceName, source⟩) with ⟨f | ss, s'⟩
  · rw [hrun] at h
    cases h
  · exact ⟨ss, s', rfl⟩

/-- From a pure session, a generation that succeeds lowers no call of a function with effects and no
definition, and opens only pure layers. So the body of every pure function of an accepted source is
lowered in a pure layer by such steps. -/
theorem pure_generation_disciplined :
    (∀ t, TakesOnly (·.isPure = true) Step.Disciplined (term t)) ∧
    (∀ t, TakesOnly (·.isPure = true) Step.Disciplined (value t)) ∧
    (∀ c, TakesOnly (·.isPure = true) Step.Disciplined (call term c)) ∧
    (∀ ts, TakesOnly (·.isPure = true) Step.Disciplined (args term ts)) ∧
    (∀ ts, TakesOnly (·.isPure = true) Step.Disciplined (body term ts)) ∧
    ∀ source sourceName options text, (compile source sourceName options).1 = .ok text →
      ∀ p, parse source = .ok p → ∀ step,
        Step.Occurs step ((program p).steps ⟨options, sourceName, source⟩ .start) → step.Sound := by
  refine ⟨disciplined_term, fun t => (built_eval t).disciplined, fun c => ?_,
    fun ts => (built_args ts).disciplined, fun ts => (built_body ts).disciplined, ?_⟩
  · have h := disciplined_term c.term
    rwa [term_eq_step] at h
  · intro source sourceName options text haccepted p hp step hstep
    obtain ⟨ss, s', hrun⟩ := statements_of_compile haccepted hp
    rw [steps_program] at hstep
    exact (built_statements p).takesOnly watch_sound kept_term (fun t => sound_within t.rank t) _ _
      s' ss trivial Place.anywhere_ne hrun step hstep

/-- A pure function with a block in its body, and the same block in a pure session. -/
theorem pure_generation_disciplined_block :
    (∃ text p, (compile "(defn f [x] (let [y x] (* x y)))" "m" default).1 = .ok text ∧
      parse "(defn f [x] (let [y x] (* x y)))" = .ok p ∧
      ∀ step, Step.Occurs step ((program p).steps
        ⟨default, "m", "(defn f [x] (let [y x] (* x y)))"⟩ .start) → step.Sound) ∧
    ∃ a s', (value (.call (.name ⟨"let", .none⟩)
        [.list [.name ⟨"y", .none⟩, .number ⟨"1", .none⟩] .none, .name ⟨"y", .none⟩] .none)).exec
        default (Session.start.enter (some true)) = (.ok a, s') ∧
      ∀ step, Step.Occurs step ((value (.call (.name ⟨"let", .none⟩)
        [.list [.name ⟨"y", .none⟩, .number ⟨"1", .none⟩] .none, .name ⟨"y", .none⟩] .none)).steps
        default (Session.start.enter (some true))) → step.Disciplined := by
  have exists_ok {ε α : Type} {r : Except ε α} (h : r.isOk = true) : ∃ a, r = .ok a := by
    cases r with
    | ok a => exact ⟨a, rfl⟩
    | error f => cases h
  obtain ⟨-, hvalue, -, -, -, hsource⟩ := pure_generation_disciplined
  constructor
  · obtain ⟨text, htext⟩ := exists_ok (r :=
      (compile "(defn f [x] (let [y x] (* x y)))" "m" default).1) (by decide +kernel)
    obtain ⟨p, hp⟩ := exists_ok (r := parse "(defn f [x] (let [y x] (* x y)))") (by decide +kernel)
    exact ⟨text, p, htext, hp, hsource _ _ _ text htext p hp⟩
  · refine ⟨_, _, rfl, hvalue _ _ _ _ _ rfl rfl⟩

end Gen

end LispLua
