import LispLua.Proofs.Accord.Forms
import LispLua.Proofs.Scope.Moves
import LispLua.Term.Reader
import Mathlib.Data.List.Forall2
import Mathlib.Order.BooleanAlgebra.Basic

/-!
# Purity only refuses

Inside a pure function some programs are refused that would be accepted outside. That is all: from
a session whose layers do not count as pure, every generation runs as it did, up to the point where
it is refused for effects, and gives the same code. Functions that are pure by their own declaration
are so in both runs.
-/

namespace LispLua

namespace Session

/-- A layer with the same entries that is pure only if the other one is. -/
def Laxer (layer layer' : Layer Bool String Binding) : Prop :=
  layer'.entries = layer.entries ∧ layer'.tag ≤ layer.tag

/-- The same layers without a pure one. -/
def lax (layers : List (Layer Bool String Binding)) : List (Layer Bool String Binding) :=
  layers.map fun layer => { layer with tag := false }

section

variable {inner inner' : List (Layer Bool String Binding)}

theorem findSome?_of_laxer (h : List.Forall₂ Laxer inner inner') (name : String) :
    (inner'.findSome? fun layer => layer.entries.lookup name) =
      inner.findSome? fun layer => layer.entries.lookup name := by
  induction h with
  | nil => rfl
  | cons hlayer _ ih => rw [List.findSome?_cons, List.findSome?_cons, hlayer.1, ih]

theorem eq_false_of_mem_tags_lax {flag : Bool} (h : flag ∈ (lax inner).map Layer.tag) :
    flag = false := by
  rw [lax, List.map_map] at h
  obtain ⟨_, _, rfl⟩ := List.mem_map.1 h
  rfl

/-- Laxer layers are determined by the others if none of them is pure. -/
theorem eq_lax_of_laxer (h : List.Forall₂ Laxer inner inner')
    (hinner' : ∀ layer ∈ inner', layer.tag = false) : inner' = lax inner := by
  induction h with
  | nil => rfl
  | cons hlayer _ ih =>
    obtain ⟨hfirst, hrest⟩ := List.forall_mem_cons.1 hinner'
    rw [lax, List.map_cons, ← lax, ← ih hrest, ← hlayer.1, ← hfirst]

end

/-- The same session with no layer pure. -/
def relaxed (s : Session) : Session :=
  { s with scope := { s.scope with inner := lax s.scope.inner } }

/-- Sessions that are alike but for layers of the first that are not pure in the second. -/
structure Relaxes (s s' : Session) : Prop where
  root : s'.scope.root = s.scope.root
  inner : List.Forall₂ Laxer s.scope.inner s'.scope.inner
  package : s'.package = s.package
  moduleName : s'.moduleName = s.moduleName
  log : s'.log = s.log

theorem relaxes_relaxed (s : Session) : s.Relaxes s.relaxed where
  root := rfl
  inner := List.forall₂_map_right_iff.2 (List.forall₂_same.2 fun _ _ => ⟨rfl, Bool.false_le _⟩)
  package := rfl
  moduleName := rfl
  log := rfl

namespace Relaxes

variable {s s' : Session}

theorem isPure_le (h : s.Relaxes s') : s'.isPure ≤ s.isPure := by
  have hinner := h.inner
  rw [isPure, isPure, Layers.tag?, Layers.tag?]
  generalize s.scope.inner = inner at hinner
  generalize s'.scope.inner = inner' at hinner
  cases hinner with
  | nil => exact le_rfl
  | cons hlayer _ => exact hlayer.2

theorem getRoot?_eq (h : s.Relaxes s') (name : String) :
    s'.scope.getRoot? name = s.scope.getRoot? name := by
  rw [Layers.getRoot?, Layers.getRoot?, h.root]

theorem find?_eq (h : s.Relaxes s') (name : String) : s'.find? name = s.find? name := by
  rw [find?, find?, Layers.get?, Layers.get?, findSome?_of_laxer h.inner, h.getRoot?_eq]

theorem enter (h : s.Relaxes s') (pure? : Option Bool) :
    (s.enter pure?).Relaxes (s'.enter pure?) := by
  refine ⟨h.root, .cons ⟨rfl, ?_⟩ h.inner, h.package, h.moduleName, h.log⟩
  cases pure? with
  | none => exact h.isPure_le
  | some p => exact le_rfl

theorem leave (h : s.Relaxes s') : s.leave.Relaxes s'.leave := by
  refine ⟨h.root, ?_, h.package, h.moduleName, h.log⟩
  have hinner := h.inner
  show List.Forall₂ Laxer s.scope.inner.tail s'.scope.inner.tail
  generalize s.scope.inner = inner at hinner
  generalize s'.scope.inner = inner' at hinner
  cases hinner with
  | nil => exact .nil
  | cons _ houter => exact houter

theorem setRoot (h : s.Relaxes s') (name : String) (b : Binding) :
    Relaxes { s with scope := s.scope.setRoot name b }
      { s' with scope := s'.scope.setRoot name b } :=
  ⟨congrArg ((name, b) :: ·) h.root, h.inner, h.package, h.moduleName, h.log⟩

theorem set (h : s.Relaxes s') (name : String) (b : Binding) :
    Relaxes { s with scope := s.scope.set name b } { s' with scope := s'.scope.set name b } := by
  obtain ⟨⟨root, inner⟩, package, moduleName, log⟩ := s
  obtain ⟨⟨root', inner'⟩, package', moduleName', log'⟩ := s'
  obtain ⟨hroot, hinner, hpackage, hmodule, hlog⟩ := h
  cases hinner with
  | nil => exact ⟨congrArg ((name, b) :: ·) hroot, .nil, hpackage, hmodule, hlog⟩
  | cons hlayer houter =>
    exact ⟨hroot, .cons ⟨congrArg ((name, b) :: ·) hlayer.1, hlayer.2⟩ houter, hpackage, hmodule,
      hlog⟩

theorem nameModule (h : s.Relaxes s') (options : Options) (name : String) :
    (s.nameModule options name).Relaxes (s'.nameModule options name) := by
  refine ⟨h.root, h.inner, ?_, rfl, h.log⟩
  rw [Session.nameModule, Session.nameModule, h.package]

theorem publish (h : s.Relaxes s') (job : Job) : (s.publish job).Relaxes (s'.publish job) := by
  refine ⟨h.root, h.inner, ?_, h.moduleName, h.log⟩
  rw [Session.publish, Session.publish, h.package]

theorem tell (h : s.Relaxes s') (event : Event) :
    Relaxes { s with log := s.log ++ [event] } { s' with log := s'.log ++ [event] } :=
  ⟨h.root, h.inner, h.package, h.moduleName, congrArg (· ++ [event]) h.log⟩

/-- If no layer of the second is pure, it is determined by the first. -/
theorem eq_relaxed (h : s.Relaxes s') (hs' : ∀ layer ∈ s'.scope.inner, layer.tag = false) :
    s' = s.relaxed := by
  obtain ⟨⟨root, inner⟩, package, moduleName, log⟩ := s
  obtain ⟨⟨root', inner'⟩, package', moduleName', log'⟩ := s'
  obtain ⟨rfl, hinner, rfl, rfl, rfl⟩ := h
  rw [relaxed, ← eq_lax_of_laxer hinner hs']

end Relaxes

end Session

namespace Gen

open Session

/-- What a run has in common with the one in which layers count as less pure: all but refusals for
effects. -/
def purityAccord (job : Job) : Accord where
  exact := True
  excused c := c.category = .impure
  job := job
  job' := job
  session := Relaxes
  variadic_eq _ := rfl
  find?_eq n h := h.find?_eq n
  getRoot?_eq n h := h.getRoot?_eq n
  isPure_eq {s s'} h := by
    have hle := h.isPure_le
    cases hpure : s'.isPure with
    | false => exact .inr ⟨rfl, fun _ => id⟩
    | true =>
      rw [hpure] at hle
      exact .inl (hle rfl).symm
  package_eq _ h := h.package
  power_eq _ _ _ _ := rfl
  session_enter pure? h := h.enter pure?
  session_leave h := h.leave
  session_set n b h := h.set n b
  session_setRoot n b h := h.setRoot n b
  session_nameModule n h := h.nameModule job.options n
  session_log event _ hevent h := hevent rfl ▸ h.tell event

variable {α : Type} {job : Job}

/-! ### Both runs of a generation -/

theorem runs_chunk (ss : List Lua.Stmt) :
    (purityAccord job).Runs (purityAccord job).Same (chunk ss) (chunk ss) := by
  intro s s' hs
  show (purityAccord job).Ends _ ((chunk ss).exec job s) ((chunk ss).exec job s')
  have hs : s.Relaxes s' := hs
  simp only [chunk, exec_bind, exec_read, exec_get, hs.package, hs.moduleName]
  cases job.options.publish && s.moduleName.isNone with
  | true => exact .ok (fun _ => rfl) (hs.tell _)
  | false => exact .ok (fun _ => rfl) hs

theorem runs_program (p : Program) :
    (purityAccord job).Runs (purityAccord job).Same (program p) (program p) := by
  have hpublish : (purityAccord job).Runs Eq (do modify (·.publish (← read)) : Gen PUnit)
      (do modify (·.publish (← read)) : Gen PUnit) :=
    fun _ _ hs => .ok rfl (hs.publish job)
  rw [program, ← bind_assoc]
  refine hpublish.seq fun _ => (Accord.runs_statements p).bind fun ss ss' hss => ?_
  rw [hss trivial]
  exact runs_chunk ss

/-- Every generation ends in the same way, or is refused for effects. -/
theorem Generator.runs {g : Gen α} (hg : Generator g) (job : Job) :
    (purityAccord job).Runs (purityAccord job).Same g g := by
  have hterm : (purityAccord job).Lowers Gen.term := Accord.runs_term
  induction hg with
  | term t => exact hterm t
  | value t => exact hterm.eval t
  | call c => exact fun _ _ hs => hterm.dispatch c hs
  | args ts => exact hterm.args ts
  | body ts => exact hterm.body ts
  | access path => exact Accord.runs_access path
  | statements p => exact Accord.runs_statements p
  | program p => exact runs_program p
  | inLayer pure? _ ih => exact .inLayer pure? ih

/-- No generation changes which layers are pure. -/
theorem Generator.tags_eq {g : Gen α} (hg : Generator g) (job : Job) (s : Session) :
    (g.exec job s).2.scope.inner.map Layer.tag = s.scope.inner.map Layer.tag := by
  induction hg generalizing s with
  | term t => exact (kept_term t job s).tags
  | value t => exact ((built_eval t).framed job s).layers.tags
  | call c => exact (framed_call c job s).layers.tags
  | args ts => exact ((built_args ts).framed job s).layers.tags
  | body ts => exact ((built_body ts).framed job s).layers.tags
  | access path => exact ((built_access path).framed job s).layers.tags
  | statements p => exact ((built_statements p).framed job s).layers.tags
  | program p => exact (framed_program p job s).1.tags
  | inLayer pure? _ ih =>
    rw [exec_inLayer]
    have hinside := congrArg List.tail (ih (s.enter pure?))
    rwa [← List.map_tail] at hinside

end Gen

open Session Gen

/-- What comes of a generation from a session without pure layers. -/
theorem Gen.Generator.exec_relaxed {α : Type} {g : Gen α} (hg : Generator g) (job : Job)
    (s : Session) :
    g.exec job s.relaxed = ((g.exec job s).1, (g.exec job s).2.relaxed) ∨
      ∃ f, (g.exec job s).1 = .error f ∧ f.cause.category = .impure := by
  have hends := hg.runs job (relaxes_relaxed s)
  have htags := hg.tags_eq job s.relaxed
  -- the second run leaves no layer pure, as it found none
  have hlax : ∀ layer ∈ (g.exec job s.relaxed).2.scope.inner, layer.tag = false := by
    intro layer hlayer
    have hmem := List.mem_map_of_mem (f := Layer.tag) hlayer
    rw [htags] at hmem
    exact eq_false_of_mem_tags_lax hmem
  change (purityAccord job).Ends _ (g.exec job s) (g.exec job s.relaxed) at hends
  generalize g.exec job s = r at hends ⊢
  generalize g.exec job s.relaxed = r' at hends hlax ⊢
  cases hends with
  | ok hab hs =>
    left
    rw [hab trivial, Relaxes.eq_relaxed hs hlax]
  | error hs =>
    left
    rw [Relaxes.eq_relaxed hs hlax]
  | excused hf => exact .inr ⟨_, rfl, hf⟩

/-- Purity only refuses. What a generation gives, it gives from the session without pure layers too,
and the sessions behind it differ only in which layers are pure; a fault that is not about purity is
given again as well. In turn, a fault of the second run that is not about purity is one of the first
run, unless that is refused for purity. -/
theorem purity_only_refuses {α : Type} {g : Gen α} (hg : Generator g) (job : Job) (s : Session) :
    (∀ a s₁, g.exec job s = (.ok a, s₁) → g.exec job s.relaxed = (.ok a, s₁.relaxed)) ∧
    (∀ f s₁, g.exec job s = (.error f, s₁) → f.cause.category ≠ .impure →
      g.exec job s.relaxed = (.error f, s₁.relaxed)) ∧
    ∀ f, (g.exec job s.relaxed).1 = .error f → f.cause.category ≠ .impure →
      (g.exec job s).1 = .error f ∨
        ∃ f', (g.exec job s).1 = .error f' ∧ f'.cause.category = .impure := by
  rcases hg.exec_relaxed job s with heq | ⟨f', hf', himpure⟩
  · rw [heq]
    refine ⟨fun a s₁ h => by rw [h], fun f s₁ h _ => by rw [h], fun f h _ => .inl h⟩
  · refine ⟨fun a s₁ h => ?_, fun f s₁ h hf => ?_, fun _ _ _ => .inr ⟨f', hf', himpure⟩⟩
    · rw [h] at hf'
      cases hf'
    · rw [h] at hf'
      cases hf'
      exact absurd himpure hf

/-- Inside a pure function with a parameter `x`. -/
def Session.insidePure : Session :=
  (Session.start.enter (some true)).perform .library (.register ⟨"x", default⟩ .value .block false)

/-- The lowering of the arguments of the first call of a source. -/
def Session.lowerArguments (s : Session) (source : String) :
    Except Fault (List Lua.Code) × Session :=
  let ts := ((parse source).toOption.getD []).head?.map Call.args
  (args term (ts.getD [])).exec ⟨.library, "test.crn", source⟩ s

/-- The category of a fault. -/
def Session.category? (r : Except Fault (List Lua.Code) × Session) : Option Category :=
  match r.1 with
  | .error f => some f.cause.category
  | .ok _ => none

theorem Session.exists_of_category? {r : Except Fault (List Lua.Code) × Session} {c : Category}
    (h : category? r = some c) : ∃ f s, r = (.error f, s) ∧ f.cause.category = c := by
  obtain ⟨f | codes, s⟩ := r
  · exact ⟨f, s, rfl, Option.some.inj h⟩
  · cases h

/-- A function is lowered alike inside a pure function and outside, and so is one whose body refers
to a name that is not declared. Behind a call with effects such a name is found outside only. -/
theorem purity_only_refuses_arguments :
    (∃ codes s, insidePure.lowerArguments "(f (fn [y] (+ x y)))" = (.ok codes, s) ∧
      insidePure.relaxed.lowerArguments "(f (fn [y] (+ x y)))" = (.ok codes, s.relaxed)) ∧
    (∃ f s, insidePure.lowerArguments "(f (fn [y] z))" = (.error f, s) ∧
      f.cause.category = .unbound "z" ∧
      insidePure.relaxed.lowerArguments "(f (fn [y] z))" = (.error f, s.relaxed)) ∧
    ∃ f, (insidePure.relaxed.lowerArguments "(f (println! x) z)").1 = .error f ∧
      f.cause.category = .unbound "z" ∧
      ((insidePure.lowerArguments "(f (println! x) z)").1 = .error f ∨
        ∃ f', (insidePure.lowerArguments "(f (println! x) z)").1 = .error f' ∧
          f'.cause.category = .impure) := by
  refine ⟨?_, ?_, ?_⟩
  · have haccepted : (insidePure.lowerArguments "(f (fn [y] (+ x y)))").1.toOption.isSome := by
      decide +kernel
    rcases hrun : insidePure.lowerArguments "(f (fn [y] (+ x y)))" with ⟨f | codes, s⟩
    · rw [hrun] at haccepted
      cases haccepted
    · exact ⟨codes, s, rfl, (purity_only_refuses (.args _) _ insidePure).1 codes s hrun⟩
  · have hcategory : category? (insidePure.lowerArguments "(f (fn [y] z))") =
        some (.unbound "z") := by
      decide +kernel
    obtain ⟨f, s, hrun, hf⟩ := exists_of_category? hcategory
    have hpure : f.cause.category ≠ .impure := by
      rw [hf]
      nofun
    exact ⟨f, s, hrun, hf, (purity_only_refuses (.args _) _ insidePure).2.1 f s hrun hpure⟩
  · have hcategory : category? (insidePure.relaxed.lowerArguments "(f (println! x) z)") =
        some (.unbound "z") := by
      decide +kernel
    obtain ⟨f, s, hrun, hf⟩ := exists_of_category? hcategory
    have hpure : f.cause.category ≠ .impure := by
      rw [hf]
      nofun
    have herror : (insidePure.relaxed.lowerArguments "(f (println! x) z)").1 = .error f := by
      rw [hrun]
    exact ⟨f, herror, hf, (purity_only_refuses (.args _) _ insidePure).2.2 f herror hpure⟩

end LispLua
