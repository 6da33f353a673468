import LispLua.Generate.Equation
import Mathlib.Data.List.Forall2

/-!
# Two generations side by side

What a generation does can be compared with what another one does: the same program with other
spans, the same program in another session, or the same run once more with an eye on its faults. A
pairing says what corresponds in the two runs. It is enough to know that the few actions that look
at a session or change it keep to the pairing; then so does everything that is put together from
them.

A fact about one run is a fact about two runs of which the second one is the same: the relations of
the pairing are then subsets of equality. So one pass through the forms serves both.

The faults of a pairing can depend on the steps of the first run. That is for faults that only make
sense by what led to them.
-/

namespace LispLua

/-- Whether a cause is one a form can give. The others belong to calls and to their arguments. -/
def Cause.isOrdinary : Cause → Bool
  | wildcardText _ | badTarget _ | noFunctionFor _ | unfinished => false
  | _ => true

/-- Why nothing can be called through a term, if that is so in every session. -/
def Term.refusal? : Term → Option Cause
  | symbol _ | number _ | name _ | path _ => none
  | wildcard t => if t.text = "#'" then none else some (.wildcardText t.text)
  | t => some (.badTarget t.shape)

theorem Term.isOrdinary_of_refusal? {t : Term} {c : Cause} (h : t.refusal? = some c) :
    c.isOrdinary = false := by
  cases t with
  | wildcard t =>
    rw [refusal?] at h
    split at h
    · cases h
    · cases h
      rfl
  | symbol _ | number _ | name _ | path _ => cases h
  | list _ _ | table _ _ _ | call _ _ _ | string _ =>
    cases h
    rfl

/-- The names that a program refers to without writing them: those in the terms sugar stands for,
and the value of a key without one. -/
def impliedNames : List String :=
  ["and", "or", "not", "table/get", "list/get", "unit"]

namespace Gen

open Lua

/-- What corresponds in two generations. -/
structure Pairing where
  /-- The names that may be looked up and declared. -/
  name : String → Prop
  /-- The causes a program may be refused for by itself. -/
  cause : Cause → Prop
  span : Span → Span → Prop
  job : Job → Job → Prop
  session : Session → Session → Prop
  /-- The faults of two runs, of which the first took the steps. -/
  fault : Job → List Step → Fault → Fault → Prop
  implied : ∀ n ∈ impliedNames, name n
  ordinary {c : Cause} : c.isOrdinary = true → cause c
  -- What can be read off.
  options_eq {j j' : Job} : job j j' → j'.options = j.options
  sourceName_eq {j j' : Job} : job j j' → j'.sourceName = j.sourceName
  find?_eq {s s' : Session} {n : String} : session s s' → name n → s'.find? n = s.find? n
  getRoot?_eq {s s' : Session} {n : String} : session s s' → name n →
    s'.scope.getRoot? n = s.scope.getRoot? n
  isPure_eq {s s' : Session} : session s s' → s'.isPure = s.isPure
  package_eq {s s' : Session} : session s s' → s'.package = s.package
  moduleName_eq {s s' : Session} : session s s' → s'.moduleName = s.moduleName
  -- What changes a session.
  session_enter {s s' : Session} (pure? : Option Bool) : session s s' →
    session (s.enter pure?) (s'.enter pure?)
  session_leave {s s' : Session} : session s s' → session s.leave s'.leave
  session_set {s s' : Session} {n : String} (b : Binding) : session s s' → name n →
    session { s with scope := s.scope.set n b } { s' with scope := s'.scope.set n b }
  session_setRoot {s s' : Session} {n : String} (b : Binding) : session s s' → name n →
    session { s with scope := s.scope.setRoot n b } { s' with scope := s'.scope.setRoot n b }
  session_rename {s s' : Session} (moduleName : Option String) (package : String) : session s s' →
    session { s with moduleName, package } { s' with moduleName, package }
  session_log {s s' : Session} (event : Event) : session s s' →
    session { s with log := s.log ++ [event] } { s' with log := s'.log ++ [event] }
  session_warn {j j' : Job} {s s' : Session} {sp sp' : Span} (message : String) : job j j' → span sp sp' →
    session s s' →
    session { s with log := s.log ++ [.warning message j.sourceName j.code sp] }
      { s' with log := s'.log ++ [.warning message j'.sourceName j'.code sp'] }
  -- What makes a fault, and what hands one on.
  fault_refuse {j : Job} {c : Cause} {sp sp' : Span} : cause c → span sp sp' →
    fault j [] ⟨c, sp⟩ ⟨c, sp'⟩
  fault_append {j : Job} {f f' : Fault} {v : List Step} (u : List Step) : fault j v f f' →
    fault j (u ++ v) f f'
  fault_layer {j : Job} {f f' : Fault} {u : List Step} (s : Session) : fault j u f f' →
    fault j [.layer s u] f f'
  fault_call {j : Job} {f f' : Fault} {u : List Step} (c : Call) (s : Session) : fault j u f f' →
    fault j [.call c s u] f f'

namespace Pairing

/-! ### Runs of one job -/

theorem options_of_eq {j j' : Job} (h : j' = j) : j'.options = j.options := by
  rw [h]

theorem sourceName_of_eq {j j' : Job} (h : j' = j) : j'.sourceName = j.sourceName := by
  rw [h]

variable (p : Pairing)

/-! ### Terms -/

/-- Tokens of one text. -/
structure Tokens (t t' : Token) : Prop where
  text : t'.text = t.text
  span : p.span t.span t'.span

/-- Tokens of one name. -/
structure Names (t t' : Token) : Prop extends Tokens p t t' where
  name : p.name t.text

structure Segments (s s' : Segment) : Prop where
  link : s'.link = s.link
  name : s'.name.text = s.name.text
  span : p.span s.span s'.span

structure Paths (q q' : Path) : Prop where
  root : p.Names q.root q'.root
  segments : List.Forall₂ p.Segments q.segments q'.segments
  span : p.span q.span q'.span

/-- Terms that differ at most in corresponding spans. A call through something that cannot be called
must be one the program may be refused for. -/
inductive Terms : Term → Term → Prop
  | list {ts ts' : List Term} {sp sp' : Span} : List.Forall₂ Terms ts ts' → p.span sp sp' →
      Terms (.list ts sp) (.list ts' sp')
  | table {ts ts' : List Term} {sp sp' : Span} (escaped : Bool) : List.Forall₂ Terms ts ts' →
      p.span sp sp' → Terms (.table ts escaped sp) (.table ts' escaped sp')
  | call {t t' : Term} {ts ts' : List Term} {sp sp' : Span} : Terms t t' →
      (∀ c, t.refusal? = some c → p.cause c) → List.Forall₂ Terms ts ts' → p.span sp sp' →
      Terms (.call t ts sp) (.call t' ts' sp')
  | path {q q' : Path} : p.Paths q q' → Terms (.path q) (.path q')
  | number {t t' : Token} : p.Tokens t t' → Terms (.number t) (.number t')
  | string {t t' : Token} : p.Tokens t t' → Terms (.string t) (.string t')
  | symbol {t t' : Token} : p.Tokens t t' → Terms (.symbol t) (.symbol t')
  | name {t t' : Token} : p.Names t t' → Terms (.name t) (.name t')
  | wildcard {t t' : Token} : p.Tokens t t' → Terms (.wildcard t) (.wildcard t')

variable {p}

namespace Terms

variable {t t' : Term}

theorem span (h : p.Terms t t') : p.span t.span t'.span := by
  cases h with
  | list _ h | table _ _ h | call _ _ _ h => exact h
  | path h => exact h.span
  | number h | string h | symbol h | wildcard h => exact h.span
  | name h => exact h.span

theorem refusal?_eq (h : p.Terms t t') : t'.refusal? = t.refusal? := by
  cases h with
  | wildcard h => rw [Term.refusal?, Term.refusal?, h.text]
  | _ => rfl

theorem isName_eq (h : p.Terms t t') (n : String) : t'.isName n = t.isName n := by
  cases h with
  | name h => rw [Term.isName, Term.isName, h.text]
  | _ => rfl

theorem isCatch_eq (h : p.Terms t t') : t'.isCatch = t.isCatch := by
  cases h with
  | call ht _ _ _ =>
    cases ht with
    | name h => rw [Term.isCatch, Term.isCatch, h.text]
    | _ => rfl
  | _ => rfl

end Terms

theorem Paths.render_eq {q q' : Path} (h : p.Paths q q') : q'.render = q.render := by
  have hsegments : (q'.segments.map fun s => s.link.text ++ s.name.text) =
      q.segments.map fun s => s.link.text ++ s.name.text := by
    have hs := h.segments
    generalize q.segments = ss, q'.segments = ss' at hs
    induction hs with
    | nil => rfl
    | cons hs _ ih => rw [List.map_cons, List.map_cons, ih, hs.link, hs.name]
  rw [Path.render, Path.render, h.root.text, hsegments]

mutual

theorem render_eq : ∀ {t t' : Term}, p.Terms t t' → t'.render = t.render
  | .list ts _, .list ts' _, .list h _ => by
    rw [Term.render, Term.render, renderAll_eq h]
  | .table ts _ _, .table ts' _ _, .table _ h _ => by
    rw [Term.render, Term.render, renderAll_eq h]
  | .call t ts _, .call t' ts' _, .call ht _ hts _ => by
    rw [Term.render, Term.render, render_eq ht, renderAll_eq hts]
  | .path q, .path q', .path h => h.render_eq
  | .number _, .number _, .number h => h.text
  | .string _, .string _, .string h => h.text
  | .symbol _, .symbol _, .symbol h => congrArg (":" ++ ·) h.text
  | .name _, .name _, .name h => h.text
  | .wildcard _, .wildcard _, .wildcard h => h.text

theorem renderAll_eq : ∀ {ts ts' : List Term}, List.Forall₂ p.Terms ts ts' →
    Term.renderAll ts' = Term.renderAll ts
  | [], [], .nil => rfl
  | _ :: _, _ :: _, .cons ht hts => by
    rw [Term.renderAll, Term.renderAll, render_eq ht, renderAll_eq hts]

end

/-- A property of terms that their parts inherit, and by which a term corresponds to itself. -/
structure Hereditary (p : Pairing) (P : Term → Prop) : Prop where
  span {t : Term} : P t → p.span t.span t.span
  name {t : Token} : P (.name t) → p.name t.text
  path {q : Path} : P (.path q) → p.Paths q q
  items {ts : List Term} {sp : Span} : P (.list ts sp) → ∀ t ∈ ts, P t
  entries {ts : List Term} {escaped : Bool} {sp : Span} : P (.table ts escaped sp) → ∀ t ∈ ts, P t
  target {t : Term} {ts : List Term} {sp : Span} : P (.call t ts sp) → P t
  args {t : Term} {ts : List Term} {sp : Span} : P (.call t ts sp) → ∀ u ∈ ts, P u
  refusal {t : Term} {ts : List Term} {sp : Span} : P (.call t ts sp) →
    ∀ c, t.refusal? = some c → p.cause c

mutual

theorem Hereditary.terms {P : Term → Prop} (hP : p.Hereditary P) : ∀ {t : Term}, P t → p.Terms t t
  | .list _ _, h => .list (hP.forall₂_terms (hP.items h)) (hP.span h)
  | .table _ escaped _, h => .table escaped (hP.forall₂_terms (hP.entries h)) (hP.span h)
  | .call _ _ _, h =>
    .call (hP.terms (hP.target h)) (hP.refusal h) (hP.forall₂_terms (hP.args h)) (hP.span h)
  | .path _, h => .path (hP.path h)
  | .number _, h => .number ⟨rfl, hP.span h⟩
  | .string _, h => .string ⟨rfl, hP.span h⟩
  | .symbol _, h => .symbol ⟨rfl, hP.span h⟩
  | .name _, h => .name ⟨⟨rfl, hP.span h⟩, hP.name h⟩
  | .wildcard _, h => .wildcard ⟨rfl, hP.span h⟩

theorem Hereditary.forall₂_terms {P : Term → Prop} (hP : p.Hereditary P) :
    ∀ {ts : List Term}, (∀ t ∈ ts, P t) → List.Forall₂ p.Terms ts ts
  | [], _ => .nil
  | t :: _, h => .cons (hP.terms (h t List.mem_cons_self))
      (hP.forall₂_terms fun u hu => h u (List.mem_cons_of_mem t hu))

end

/-! ### Ends of runs -/

section

variable {α β γ δ : Type} {V : α → β → Prop} {W : γ → δ → Prop} {F : Fault → Fault → Prop}

/-- Two runs both succeed with corresponding values or both fail with corresponding faults, and
leave corresponding sessions. -/
inductive Ends (p : Pairing) (F : Fault → Fault → Prop) (V : α → β → Prop) :
    Except Fault α × Session → Except Fault β × Session → Prop
  | ok {a : α} {b : β} {s s' : Session} : V a b → p.session s s' → Ends p F V (.ok a, s) (.ok b, s')
  | error {f f' : Fault} {s s' : Session} : F f f' → p.session s s' →
      Ends p F V (.error f, s) (.error f', s')

theorem Ends.imp {G : Fault → Fault → Prop} {V' : α → β → Prop} {r : Except Fault α × Session}
    {r' : Except Fault β × Session} (h : p.Ends F V r r') (hF : ∀ f f', F f f' → G f f')
    (hV : ∀ a b, V a b → V' a b) : p.Ends G V' r r' := by
  cases h with
  | ok h hs => exact .ok (hV _ _ h) hs
  | error h hs => exact .error (hF _ _ h) hs

/-- Two generations run from given sessions to corresponding ends. -/
def RunsFrom (p : Pairing) (F : List Step → Fault → Fault → Prop) (V : α → β → Prop) (g : Gen α)
    (h : Gen β) (j j' : Job) (s s' : Session) : Prop :=
  p.Ends (F (g.steps j s)) V (g.exec j s) (h.exec j' s')

/-- Two generations run from corresponding sessions to corresponding ends. -/
def Runs (p : Pairing) (V : α → β → Prop) (g : Gen α) (h : Gen β) : Prop :=
  ∀ ⦃j j' s s'⦄, p.job j j' → p.session s s' → p.RunsFrom (p.fault j) V g h j j' s s'

/-- A sequence runs to corresponding ends if its parts do. The second parts may rely on how the first
part of the first run ended. -/
theorem RunsFrom.bind {F : List Step → Fault → Fault → Prop}
    (hF : ∀ {v f f'} (u), F v f f' → F (u ++ v) f f') {g : Gen α} {h : Gen β} {k : α → Gen γ}
    {l : β → Gen δ} {j j' : Job} {s s' : Session} (hg : p.RunsFrom F V g h j j' s s')
    (hk : ∀ a b t t', V a b → p.session t t' → g.exec j s = (.ok a, t) →
      p.RunsFrom F W (k a) (l b) j j' t t') :
    p.RunsFrom F W (g >>= k) (h >>= l) j j' s s' := by
  rw [RunsFrom] at hg ⊢
  rw [exec_bind, exec_bind, steps_bind]
  generalize hr : g.exec j s = r at hg
  generalize h.exec j' s' = r' at hg
  cases hg with
  | ok hab hs => exact (hk _ _ _ _ hab hs hr).imp (fun _ _ => hF _) fun _ _ => id
  | error hf hs => exact .error hf hs

namespace Runs

theorem imp {V' : α → β → Prop} {g : Gen α} {h : Gen β} (hg : p.Runs V g h)
    (hV : ∀ a b, V a b → V' a b) : p.Runs V' g h :=
  fun _ _ _ _ hj hs => (hg hj hs).imp (fun _ _ => id) hV

theorem pure {a : α} {b : β} (h : V a b) : p.Runs V (pure a) (pure b) :=
  fun _ _ _ _ _ hs => .ok h hs

theorem bind {g : Gen α} {h : Gen β} {k : α → Gen γ} {l : β → Gen δ} (hg : p.Runs V g h)
    (hk : ∀ a b, V a b → p.Runs W (k a) (l b)) : p.Runs W (g >>= k) (h >>= l) :=
  fun _ _ _ _ hj hs => (hg hj hs).bind p.fault_append fun _ _ _ _ hab hs _ => hk _ _ hab hj hs

/-- A last step that makes the value. -/
theorem map {g : Gen α} {h : Gen β} {f : α → γ} {f' : β → δ} (hg : p.Runs V g h)
    (hf : ∀ a b, V a b → W (f a) (f' b)) :
    p.Runs W (do return f (← g)) (do return f' (← h)) :=
  hg.bind fun _ _ hab => .pure (hf _ _ hab)

/-- A sequence whose first part gives equal values. -/
theorem seq {g h : Gen α} {k : α → Gen γ} {l : α → Gen δ} (hg : p.Runs Eq g h)
    (hk : ∀ a, p.Runs W (k a) (l a)) : p.Runs W (g >>= k) (h >>= l) :=
  hg.bind fun a _ hab => hab ▸ hk a

theorem mapEq {g h : Gen α} {f : α → γ} (hg : p.Runs Eq g h) :
    p.Runs Eq (do return f (← g)) (do return f (← h)) :=
  hg.map fun _ _ => congrArg f

theorem ite {c c' : Prop} [Decidable c] [Decidable c'] {g₁ g₂ : Gen α} {h₁ h₂ : Gen β}
    (hc : c ↔ c') (h₁₁ : p.Runs V g₁ h₁) (h₂₂ : p.Runs V g₂ h₂) :
    p.Runs V (if c then g₁ else g₂) (if c' then h₁ else h₂) := by
  by_cases h : c
  · rw [if_pos h, if_pos (hc.1 h)]
    exact h₁₁
  · rw [if_neg h, if_neg (mt hc.2 h)]
    exact h₂₂

theorem refuse {c : Cause} {sp sp' : Span} (hc : p.cause c) (hsp : p.span sp sp') :
    p.Runs V (Gen.refuse c sp) (Gen.refuse c sp') :=
  fun _ _ _ _ _ hs => .error (p.fault_refuse hc hsp) hs

/-- A condition under which the rest is refused. -/
theorem guard {c c' : Prop} [Decidable c] [Decidable c'] {g : Gen α} {h : Gen β} {cause : Cause}
    {sp sp' : Span} (hc : c ↔ c') (hcause : p.cause cause) (hsp : p.span sp sp')
    (hg : p.Runs V g h) :
    p.Runs V (if c then (do (Gen.refuse cause sp : Gen PUnit); g) else g)
      (if c' then (do (Gen.refuse cause sp' : Gen PUnit); h) else h) :=
  .ite hc ((refuse hcause hsp).seq fun _ => hg) hg

theorem inLayer {g : Gen α} {h : Gen β} (pure? : Option Bool) (hg : p.Runs V g h) :
    p.Runs V (Gen.inLayer pure? g) (Gen.inLayer pure? h) := by
  intro j j' s s' hj hs
  have hinside := hg hj (p.session_enter pure? hs)
  rw [RunsFrom] at hinside ⊢
  rw [exec_inLayer, exec_inLayer, steps_inLayer]
  generalize g.exec j (s.enter pure?) = r at hinside
  generalize h.exec j' (s'.enter pure?) = r' at hinside
  cases hinside with
  | ok hab hs => exact .ok hab (p.session_leave hs)
  | error hf hs => exact .error (p.fault_layer _ hf) (p.session_leave hs)

theorem unlessPure {g : Gen α} {h : Gen β} {cause : Cause} {sp sp' : Span} (hc : p.cause cause)
    (hsp : p.span sp sp') (hg : p.Runs V g h) :
    p.Runs V (Gen.unlessPure cause sp g) (Gen.unlessPure cause sp' h) := by
  intro j j' s s' hj hs
  rw [RunsFrom, exec_unlessPure, exec_unlessPure, steps_unlessPure, p.isPure_eq hs]
  split
  · exact .error (p.fault_refuse hc hsp) hs
  · exact hg hj hs

theorem mapM {R : α → β → Prop} {f : α → Gen γ} {g : β → Gen δ} {as : List α} {bs : List β}
    (h : List.Forall₂ R as bs) (hf : ∀ a b, R a b → p.Runs W (f a) (g b)) :
    p.Runs (List.Forall₂ W) (as.mapM f) (bs.mapM g) := by
  induction h with
  | nil => exact .pure .nil
  | cons hab _ ih =>
    rw [List.mapM_cons, List.mapM_cons]
    exact (hf _ _ hab).bind fun _ _ hcd => ih.map fun _ _ hrest => .cons hcd hrest

theorem mapEqM {R : α → β → Prop} {f : α → Gen γ} {g : β → Gen γ} {as : List α} {bs : List β}
    (h : List.Forall₂ R as bs) (hf : ∀ a b, R a b → p.Runs Eq (f a) (g b)) :
    p.Runs Eq (as.mapM f) (bs.mapM g) :=
  (mapM h hf).imp fun _ _ h => by rwa [List.forall₂_eq_eq_eq] at h

theorem foldlM {R : α → β → Prop} {f : γ → α → Gen γ} {g : γ → β → Gen γ} {as : List α}
    {bs : List β} (h : List.Forall₂ R as bs) (hf : ∀ c a b, R a b → p.Runs Eq (f c a) (g c b))
    (c : γ) : p.Runs Eq (as.foldlM f c) (bs.foldlM g c) := by
  induction h generalizing c with
  | nil => exact .pure rfl
  | cons hab _ ih =>
    rw [List.foldlM_cons, List.foldlM_cons]
    exact (hf c _ _ hab).seq ih

end Runs

end

/-! ### Actions -/

theorem runs_read : p.Runs p.job read read :=
  fun _ _ _ _ hj hs => .ok hj hs

theorem runs_find? {n : String} (hn : p.name n) : p.Runs Eq (find? n) (find? n) :=
  fun _ _ _ _ _ hs => .ok (p.find?_eq hs hn).symm hs

theorem runs_resolve {t t' : Token} (h : p.Names t t') : p.Runs Eq (resolve t) (resolve t') := by
  rw [resolve, resolve, h.text]
  refine (runs_find? h.name).seq fun m => ?_
  cases m with
  | none => exact .refuse (p.ordinary rfl) h.span
  | some m => exact .pure rfl

theorem runs_reference (m : Meaning) : p.Runs Eq (reference m) (reference m) :=
  fun _ _ _ _ _ hs => .ok (congrArg m.reference (p.package_eq hs).symm) hs

theorem runs_log (event : Event) : p.Runs Eq (log event) (log event) :=
  fun _ _ _ _ _ hs => .ok rfl (p.session_log event hs)

theorem runs_warn (message : String) {sp sp' : Span} (h : p.span sp sp') :
    p.Runs Eq (warn message sp) (warn message sp') :=
  fun _ _ _ _ hj hs => .ok rfl (p.session_warn message hj h hs)

theorem runs_thunk (body : Code) : p.Runs Eq (thunk body) (thunk body) :=
  runs_read.map fun j j' hj => by rw [p.options_eq hj]

theorem runs_register {t t' : Token} (h : p.Names t t') (kind : Kind) (reach : Reach)
    (preserve : Bool) :
    p.Runs Eq (register t kind reach preserve) (register t' kind reach preserve) := by
  intro j j' s s' hj hs
  rw [RunsFrom, exec_register, exec_register, steps_register]
  cases reach with
  | block =>
    simp only [Session.register, h.text]
    exact .ok rfl (p.session_set _ hs h.name)
  | everywhere =>
    simp only [Session.register, h.text]
    exact .ok rfl (p.session_setRoot _ hs h.name)
  | package =>
    simp only [Session.register, h.text, p.getRoot?_eq hs h.name]
    cases (s.scope.getRoot? t.text).any (·.reach == .package) with
    | true => exact .error (p.fault_refuse (p.ordinary rfl) h.span) hs
    | false => exact .ok rfl (p.session_setRoot _ hs h.name)

theorem runs_registerLocal {t t' : Token} (h : p.Names t t') :
    p.Runs Eq (registerLocal t) (registerLocal t') :=
  (runs_register h _ _ _).mapEq

theorem runs_nameModule {j j' : Job} (hj : p.job j j') (n : String) :
    p.Runs Eq (modify (·.nameModule j.options n)) (modify (·.nameModule j'.options n)) := by
  intro _ _ s s' _ hs
  refine .ok rfl ?_
  show p.session (s.nameModule j.options n) (s'.nameModule j'.options n)
  rw [Session.nameModule, Session.nameModule, p.options_eq hj, p.package_eq hs]
  exact p.session_rename _ _ hs

end Pairing

end Gen

end LispLua
