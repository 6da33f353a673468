import LispLua.Proofs.Generation.Scoping
import LispLua.Proofs.Lowering.Success

/-!
# The way of a session

On the way of a run the root only gets more names, and once a name is declared in the package, the
package keeps its table unless a call renames it. Every call among the steps is a run of its own,
from the session in front of it to one that the end of the whole run is led to.
-/

namespace LispLua

namespace Session

/-- A name of the root stands for itself, and what stands in a layer is local to a block. -/
structure Proper (s : Session) : Prop where
  root : ∀ e ∈ s.scope.root, e.2.surface = e.1
  inner : ∀ layer ∈ s.scope.inner, ∀ e ∈ layer.entries, e.2.reach = .block

/-- Whether a name is declared in the package at all. -/
def hasPackage (s : Session) : Bool :=
  s.scope.root.any (·.2.reach == .package)

/-- Whether a name refers to the package. -/
def inPackage (s : Session) (name : String) : Bool :=
  (s.scope.get? name).any (·.reach == .package)

/-- A session and a later one. The root has only got more names, and a package with names has kept
its table. -/
structure Leads (s s' : Session) : Prop where
  root : s.scope.root ⊆ s'.scope.root
  package : s.hasPackage = true → s'.package = s.package

variable {s s' s'' : Session}

theorem mem_root_of_get? (hs : s.Proper) {name : String} {b : Binding}
    (h : s.scope.get? name = some b) (hb : b.reach ≠ .block) : (name, b) ∈ s.scope.root := by
  rw [Layers.get?, Option.orElse_eq_orElse, Option.orElse_eq_or, Option.or_eq_some_iff] at h
  rcases h with h | ⟨-, h⟩
  · obtain ⟨layer, hlayer, hlookup⟩ := List.exists_of_findSome?_eq_some h
    obtain ⟨l₁, l₂, hentries, -⟩ := List.lookup_eq_some_iff.1 hlookup
    exact absurd (hs.inner layer hlayer (name, b) (by simp [hentries])) hb
  · obtain ⟨l₁, l₂, hentries, -⟩ := List.lookup_eq_some_iff.1 h
    simp [hentries]

/-- What a name of the package is bound to. -/
theorem exists_of_inPackage (hs : s.Proper) {name : String} (h : s.inPackage name = true) :
    ∃ b, s.scope.get? name = some b ∧ (name, b) ∈ s.scope.root ∧ b.reach = .package ∧
      b.surface = name := by
  obtain ⟨b, hb, hreach⟩ := (Option.any_eq_true ..).1 h
  have hreach := eq_of_beq hreach
  have hmem := mem_root_of_get? hs hb (by rw [hreach]; decide)
  exact ⟨b, hb, hmem, hreach, hs.root _ hmem⟩

theorem hasPackage_of_mem {name : String} {b : Binding} (h : (name, b) ∈ s.scope.root)
    (hb : b.reach = .package) : s.hasPackage = true :=
  List.any_eq_true.2 ⟨_, h, by simp [hb]⟩

namespace Leads

theorem refl (s : Session) : Leads s s :=
  ⟨List.Subset.refl _, fun _ => rfl⟩

theorem hasPackage (h : Leads s s') (hs : s.hasPackage = true) : s'.hasPackage = true := by
  obtain ⟨e, he, hreach⟩ := List.any_eq_true.1 hs
  exact List.any_eq_true.2 ⟨e, h.root he, hreach⟩

theorem trans (h : Leads s s') (h' : Leads s' s'') : Leads s s'' :=
  ⟨List.Subset.trans h.root h'.root, fun hs => (h'.package (h.hasPackage hs)).trans (h.package hs)⟩

theorem of_eq (hroot : s'.scope.root = s.scope.root) (hpackage : s'.package = s.package) :
    Leads s s' :=
  ⟨by rw [hroot]; exact List.Subset.refl _, fun _ => hpackage⟩

end Leads

/-- A later session that is proper if the first one is. -/
structure Later (s s' : Session) : Prop where
  leads : Leads s s'
  proper : s.Proper → s'.Proper

namespace Later

theorem refl (s : Session) : Later s s :=
  ⟨.refl s, id⟩

theorem trans (h : Later s s') (h' : Later s' s'') : Later s s'' :=
  ⟨h.leads.trans h'.leads, fun hs => h'.proper (h.proper hs)⟩

theorem withLog (s : Session) (events : List Event) : Later s { s with log := events } :=
  ⟨.of_eq rfl rfl, fun hs => ⟨hs.root, hs.inner⟩⟩

theorem enter (s : Session) (pure? : Option Bool) : Later s (s.enter pure?) :=
  ⟨.of_eq rfl rfl, fun hs => ⟨hs.root, List.forall_mem_cons.2 ⟨by simp, hs.inner⟩⟩⟩

theorem leave (s : Session) : Later s s.leave :=
  ⟨.of_eq rfl rfl, fun hs => ⟨hs.root, fun layer h => hs.inner layer (List.mem_of_mem_tail h)⟩⟩

theorem setRoot (s : Session) {name : String} {b : Binding} (hb : b.surface = name) :
    Later s { s with scope := s.scope.setRoot name b } :=
  ⟨⟨List.subset_cons_self _ _, fun _ => rfl⟩,
    fun hs => ⟨List.forall_mem_cons.2 ⟨hb, hs.root⟩, hs.inner⟩⟩

theorem set (s : Session) {name : String} {b : Binding} (hb : b.surface = name)
    (hreach : b.reach = .block) : Later s { s with scope := s.scope.set name b } := by
  obtain ⟨⟨root, _ | ⟨layer, outer⟩⟩, package, moduleName, log⟩ := s
  · exact setRoot ⟨⟨root, []⟩, package, moduleName, log⟩ hb
  · refine ⟨.of_eq rfl rfl, fun hs => ⟨hs.root, ?_⟩⟩
    obtain ⟨hlayer, houter⟩ := List.forall_mem_cons.1 hs.inner
    exact List.forall_mem_cons.2 ⟨List.forall_mem_cons.2 ⟨hreach, hlayer⟩, houter⟩

theorem register {t : Token} {kind : Kind} {reach : Reach} {preserve : Bool} {b : Binding}
    (h : s.register t kind reach preserve = .ok (b, s')) : Later s s' := by
  obtain ⟨rfl, ⟨rfl, rfl⟩ | ⟨-, rfl⟩⟩ := register_cases h
  · exact set s rfl rfl
  · exact setRoot s rfl

/-- A new name of the module does no harm while the package has no names, or if the table is the
same under it. -/
theorem nameModule {options : Options} {name : String}
    (h : s.hasPackage = true → options.publish = true → publishedPackage name = s.package) :
    Later s (s.nameModule options name) := by
  refine ⟨⟨List.Subset.refl _, fun hs => ?_⟩, fun hs => ⟨hs.root, hs.inner⟩⟩
  show (if options.publish then publishedPackage name else s.package) = s.package
  split
  · exact h hs ‹_›
  · rfl

end Later

theorem proper_start (job : Job) : (start.publish job).Proper :=
  ⟨nofun, nofun⟩

end Session

open Session (Later Leads)

/-- Whether a call gives a package with names another table. -/
def Step.splits : Step → Bool
  | .call c s _ => s.hasPackage && (s.form? c == some .nameModule &&
      match c.args with
      | .name t :: _ => publishedPackage t.text != s.package
      | _ => false)
  | .layer _ _ => false

/-- The package is not split by some steps: it is not published, or no call gives it another
table. -/
def Unsplit (job : Job) (steps : List Step) : Prop :=
  job.options.publish = true → Step.Everywhere (·.splits = false) steps

namespace Unsplit

variable {job : Job} {u v : List Step} {c : Call} {s : Session}

theorem left (h : Unsplit job (u ++ v)) : Unsplit job u :=
  fun hpublish => (h hpublish).left

theorem right (h : Unsplit job (u ++ v)) : Unsplit job v :=
  fun hpublish => (h hpublish).right

theorem call (h : Unsplit job [.call c s u]) : Unsplit job u :=
  fun hpublish => (h hpublish).call

theorem layer (h : Unsplit job [.layer s u]) : Unsplit job u :=
  fun hpublish => (h hpublish).layer

/-- A call that names the module keeps the table of a package with names. -/
theorem published_eq (h : Unsplit job [.call c s u]) (hform : s.form? c = some .nameModule)
    {t : Token} {ts : List Term} (hargs : c.args = .name t :: ts) (hs : s.hasPackage = true)
    (hpublish : job.options.publish = true) : publishedPackage t.text = s.package := by
  have hsplits := (h hpublish).head
  simpa [Step.splits, hs, hform, hargs] using hsplits

end Unsplit

/-- What happened inside a step happened where the step did. -/
theorem Step.Occurs.trans {step outer : Step} {steps : List Step} (h : Occurs step [outer])
    (houter : Occurs outer steps) : Occurs step steps := by
  induction houter with
  | mem hmem => exact h.mono (by simpa using hmem)
  | call hc _ ih => exact .call hc ih
  | layer hl _ ih => exact .layer hl ih

/-- A step on the way to a session: what it starts from leads there, and a call is a run that
succeeds, behind which the way goes on. -/
def Step.Precedes (job : Job) (s' : Session) : Step → Prop
  | .call c s inner => Later s s' ∧ s.Proper ∧
      ∃ stmt s₁, (Gen.term c.term).Gives job s stmt [.call c s inner] s₁ ∧ Later s₁ s'
  | .layer s _ => Later s s' ∧ s.Proper

theorem Step.Precedes.trans {job : Job} {s s' : Session} {step : Step} (h : step.Precedes job s)
    (hs : Later s s') : step.Precedes job s' := by
  cases step with
  | call c s₀ inner =>
    obtain ⟨hstart, hproper, stmt, s₁, hgives, hend⟩ := h
    exact ⟨hstart.trans hs, hproper, stmt, s₁, hgives, hend.trans hs⟩
  | layer s₀ inner => exact ⟨h.1.trans hs, h.2⟩

namespace Gen

variable {job : Job} {lower : Lower} {α : Type}

/-- Every run of a generation that does not split the package leads to its end, and so does each
step of it. -/
def Passes (job : Job) (g : Gen α) : Prop :=
  ∀ s a u s', g.Gives job s a u s' → Unsplit job u → s.Proper →
    Later s s' ∧ Step.Everywhere (Step.Precedes job s') u

theorem Passes.of_still {g : Gen α}
    (h : ∀ {s a u s'}, g.Gives job s a u s' → u = [] ∧ Later s s') : Passes job g := by
  intro s a u s' hg _ _
  obtain ⟨rfl, hlater⟩ := h hg
  exact ⟨hlater, fun _ hstep => absurd hstep Step.not_occurs_nil⟩

theorem Passes.inLayer {g : Gen α} (hg : Passes job g) (pure? : Option Bool) :
    Passes job (inLayer pure? g) := by
  intro s a u s' h hu hs
  obtain ⟨v, s₁, hinside, rfl, rfl⟩ := gives_inLayer.1 h
  have henter := Later.enter s pure?
  obtain ⟨hlater, hsteps⟩ := hg _ _ _ _ hinside hu.layer (henter.proper hs)
  have hleave := hlater.trans (Later.leave s₁)
  refine ⟨henter.trans hleave, fun step hstep => ?_⟩
  rcases Step.occurs_layer.1 hstep with rfl | hstep
  · exact ⟨hleave, henter.proper hs⟩
  · exact (hsteps step hstep).trans (Later.leave s₁)

/-- What is built from actions, without naming the module, passes if the lowering of terms inside
does. -/
theorem Built.passes (hlower : ∀ t, Passes job (lower t)) {p : Place} {g : Gen α}
    (h : Built lower p g) : p ≠ .naming → Passes job g := by
  induction h with
  | pure a =>
    refine fun _ => .of_still fun h => ?_
    obtain ⟨-, rfl, rfl⟩ := gives_pure.1 h
    exact ⟨rfl, .refl _⟩
  | throw f =>
    intro _ s a u s' h _ _
    cases h
  | read =>
    refine fun _ => .of_still fun h => ?_
    obtain ⟨-, rfl, rfl⟩ := gives_read.1 h
    exact ⟨rfl, .refl _⟩
  | find? name =>
    refine fun _ => .of_still fun h => ?_
    obtain ⟨-, rfl, rfl⟩ := gives_find?.1 h
    exact ⟨rfl, .refl _⟩
  | reference m =>
    refine fun _ => .of_still fun h => ?_
    obtain ⟨-, rfl, rfl⟩ := gives_reference.1 h
    exact ⟨rfl, .refl _⟩
  | log event =>
    refine fun _ => .of_still fun h => ?_
    obtain ⟨-, rfl, rfl⟩ := gives_log.1 h
    exact ⟨rfl, .withLog _ _⟩
  | register | registerOutside =>
    refine fun _ => .of_still fun h => ?_
    obtain ⟨hregister, rfl⟩ := gives_register.1 h
    exact ⟨rfl, .register hregister⟩
  | lower t => exact fun _ => hlower t
  | bind _ _ ihg ihk =>
    -- the steps of the first part lead to its own end, and from there the second part leads on
    intro hp s b u s' h hu hs
    obtain ⟨a, v, s₁, w, hfirst, hsecond, rfl⟩ := gives_bind.1 h
    obtain ⟨hlater, hsteps⟩ := ihg hp _ _ _ _ hfirst hu.left hs
    obtain ⟨hlater', hsteps'⟩ := ihk a hp _ _ _ _ hsecond hu.right (hlater.proper hs)
    refine ⟨hlater.trans hlater', fun step hstep => ?_⟩
    rcases Step.occurs_append.1 hstep with hstep | hstep
    · exact (hsteps step hstep).trans hlater'
    · exact hsteps' step hstep
  | inLayer _ ih => exact fun _ => (ih (by decide)).inLayer none
  | inFunction isPure _ ih => exact fun _ => (ih (by decide)).inLayer (some isPure)
  | unlessPure cause span _ ih =>
    intro _ s a u s' h hu hs
    exact ih (by decide) _ _ _ _ (gives_unlessPure.1 h).2 hu hs
  | nameModule name => exact fun hp => absurd rfl hp

/-- A call that names the module passes too: the name does not split the package. -/
theorem later_nameModule (hlower : ∀ t, Passes job (lower t)) {c : Call} {code : Lua.Code}
    {s s' : Session} {v : List Step} (h : (nameModule lower c).Gives job s code v s')
    (hform : s.form? c = some .nameModule) (hu : Unsplit job [.call c s v]) (hs : s.Proper) :
    Later s s' ∧ Step.Everywhere (Step.Precedes job s') v := by
  unfold nameModule at h
  split at h
  · rename_i t clauses hargs
    obtain ⟨_, _, _, _, hmodify, hk, rfl⟩ := gives_bind.1 ((gives_bind_of_eq gives_read).1 h)
    obtain ⟨-, rfl, rfl⟩ := gives_modify.1 hmodify
    obtain ⟨cs, hcs, -⟩ := gives_map.1 hk
    have hlater := Later.nameModule (hu.published_eq hform hargs)
    have hclauses : Passes job (clauses.mapM (moduleImport lower)) :=
      Built.passes hlower (p := .anywhere) (.mapM built_moduleImport _) (by decide)
    obtain ⟨hlater', hsteps⟩ := hclauses _ _ _ _ hcs hu.call (hlater.proper hs)
    exact ⟨hlater.trans hlater', hsteps⟩
  · exact (not_gives_refuse h).elim
  · exact (not_gives_refuse h).elim

theorem later_dispatch (hlower : ∀ t, Passes job (lower t)) {c : Call} {stmt : Lua.Stmt}
    {s s' : Session} {v : List Step} (h : (dispatch lower c).Gives job s stmt v s')
    (hu : Unsplit job [.call c s v]) (hs : s.Proper) :
    Later s s' ∧ Step.Everywhere (Step.Precedes job s') v := by
  rcases dispatch_cases lower c job s with ⟨-, hbuilt⟩ | ⟨f, hrun⟩ | ⟨m, hm, -, hrun⟩
  · exact hbuilt.passes hlower (by decide) _ _ _ _ h hu.call hs
  · rw [Gives, hrun] at h
    cases h
  · rw [Gives, hrun] at h
    by_cases hform : m.form? = some .nameModule
    · rw [through, hform] at h
      obtain ⟨code, hcode, -⟩ := gives_map.1 h
      refine later_nameModule hlower hcode ?_ hu hs
      rw [Session.form?, hm]
      exact hform
    · have hbuilt : Built lower .anywhere (through lower m c) :=
        built_through m c fun h => absurd h hform
      exact hbuilt.passes hlower (by decide) _ _ _ _ h hu.call hs

theorem passes_call (hlower : ∀ t, Passes job (lower t)) {c : Call}
    (hc : call lower c = term c.term) : Passes job (call lower c) := by
  intro s stmt u s' h hu hs
  have hgives := h
  obtain ⟨v, hdispatch, rfl⟩ := gives_inCall.1 h
  obtain ⟨hlater, hsteps⟩ := later_dispatch hlower hdispatch hu hs
  refine ⟨hlater, fun step hstep => ?_⟩
  rcases Step.occurs_call.1 hstep with rfl | hstep
  · rw [hc] at hgives
    exact ⟨hlater, hs, stmt, s', hgives, .refl s'⟩
  · exact hsteps step hstep

/-- The lowering of terms below a rank. -/
def below (n : Nat) : Lower := fun t =>
  if t.rank < n then term t else refuse .unfinished t.span

theorem term_eq_step_below (t : Term) : term t = step (below t.rank) t :=
  (term_eq_step t).trans (step_congr fun _ hu => (if_pos hu).symm)

theorem passes_term (t : Term) : Passes job (term t) := by
  -- Terms are expanded while they are lowered, so the recursion is on the rank and not on the term.
  induction hr : t.rank using Nat.strongRecOn generalizing t with
  | ind r ih =>
    subst hr
    have hlower : ∀ u, Passes job (below t.rank u) := by
      intro u
      unfold below
      split
      · exact ih u.rank ‹_› u rfl
      · exact fun _ _ _ _ h => (not_gives_refuse h).elim
    have hstep := term_eq_step_below t
    rw [hstep]
    rcases step_cases (below t.rank) t with hbuilt | ⟨c, rfl, hcall⟩
    · exact hbuilt.passes hlower (by decide)
    · rw [hcall]
      exact passes_call hlower (hcall.symm.trans hstep.symm)

theorem passes_statements (p : Program) : Passes job (statements p) :=
  (built_statements p).passes passes_term (by decide)

end Gen

end LispLua
