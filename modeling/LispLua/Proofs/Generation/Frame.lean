import LispLua.Proofs.Generation.Built

/-!
# What a generation leaves alone

A generation writes into the innermost layer and, outside pure functions, into the root. It leaves
all other layers and all tags as they are, whether it fails or not. What a layer of its own declares
is gone behind it.
-/

namespace LispLua

namespace Session

/-- The root has only got names that are not local to a block. -/
def Grown (s s' : Session) : Prop :=
  ∃ new, s'.scope.root = new ++ s.scope.root ∧ ∀ e ∈ new, e.2.reach ≠ .block

namespace Grown

variable {s s' s'' : Session}

theorem of_root_eq (h : s'.scope.root = s.scope.root) : Grown s s' :=
  ⟨[], by rw [h, List.nil_append], by simp⟩

theorem trans (h : Grown s s') (h' : Grown s' s'') : Grown s s'' := by
  obtain ⟨new, hroot, hnew⟩ := h
  obtain ⟨new', hroot', hnew'⟩ := h'
  refine ⟨new' ++ new, by rw [hroot', hroot, List.append_assoc], fun e he => ?_⟩
  rcases List.mem_append.1 he with he | he
  · exact hnew' e he
  · exact hnew e he

theorem setRoot (s : Session) (key : String) {b : Binding} (hb : b.reach ≠ .block) :
    Grown s { s with scope := s.scope.setRoot key b } := by
  refine ⟨[(key, b)], rfl, fun e he => ?_⟩
  cases List.mem_singleton.1 he
  exact hb

end Grown

/-- The layers behind a generation: the tags are the same, only the innermost layer and the root can
have changed, the root not from inside a pure function, and a root that is not the innermost layer
has only grown. -/
structure Kept (s s' : Session) : Prop where
  tags : s'.scope.inner.map Layer.tag = s.scope.inner.map Layer.tag
  outer : s'.scope.inner.tail = s.scope.inner.tail
  root : s.isPure = true → s'.scope.root = s.scope.root
  grown : s.scope.inner ≠ [] → Grown s s'

theorem isPure_eq (s : Session) : s.isPure = (s.scope.inner.map Layer.tag).head?.getD false := by
  rw [isPure, Layers.tag?, List.head?_map]

namespace Kept

variable {s s' s'' : Session}

theorem of_scope_eq (h : s'.scope = s.scope) : Kept s s' :=
  ⟨by rw [h], by rw [h], fun _ => by rw [h], fun _ => .of_root_eq (by rw [h])⟩

theorem refl (s : Session) : Kept s s :=
  .of_scope_eq rfl

theorem isPure (h : Kept s s') : s'.isPure = s.isPure := by
  rw [isPure_eq, isPure_eq, h.tags]

theorem inner_ne_nil (h : Kept s s') (hs : s.scope.inner ≠ []) : s'.scope.inner ≠ [] := by
  intro hnil
  have htags := h.tags
  rw [hnil, List.map_nil] at htags
  exact hs (List.map_eq_nil_iff.1 htags.symm)

theorem trans (h : Kept s s') (h' : Kept s' s'') : Kept s s'' := by
  refine ⟨h'.tags.trans h.tags, h'.outer.trans h.outer, fun hp => ?_, fun hne => ?_⟩
  · exact (h'.root (h.isPure.trans hp)).trans (h.root hp)
  · exact (h.grown hne).trans (h'.grown (h.inner_ne_nil hne))

/-- A write into the innermost layer. -/
theorem set (s : Session) (key : String) (b : Binding) :
    Kept s { s with scope := s.scope.set key b } := by
  obtain ⟨⟨root, inner⟩, package, moduleName, log⟩ := s
  cases inner with
  | nil => exact ⟨rfl, rfl, fun hp => absurd hp Bool.false_ne_true, fun hne => absurd rfl hne⟩
  | cons layer outer => exact ⟨rfl, rfl, fun _ => rfl, fun _ => .of_root_eq rfl⟩

/-- A write into the root, from outside pure functions. -/
theorem setRoot {s : Session} (hs : s.isPure = false) (key : String) {b : Binding}
    (hb : b.reach ≠ .block) : Kept s { s with scope := s.scope.setRoot key b } := by
  refine ⟨rfl, rfl, fun hp => ?_, fun _ => .setRoot s key hb⟩
  rw [hs] at hp
  cases hp

end Kept

/-- A declaration writes into the innermost layer, or into the root a name that is not local to a
block. -/
theorem register_cases {s s' : Session} {token : Token} {kind : Kind} {reach : Reach}
    {preserve : Bool} {b : Binding} (h : s.register token kind reach preserve = .ok (b, s')) :
    b = .declare token.text kind reach preserve ∧
      ((reach = .block ∧ s' = { s with scope := s.scope.set token.text b }) ∨
        (reach ≠ .block ∧ s' = { s with scope := s.scope.setRoot token.text b })) := by
  cases reach with
  | block =>
    cases h
    exact ⟨rfl, .inl ⟨rfl, rfl⟩⟩
  | everywhere =>
    cases h
    exact ⟨rfl, .inr ⟨by decide, rfl⟩⟩
  | package =>
    simp only [register] at h
    split at h
    · cases h
    · cases h
      exact ⟨rfl, .inr ⟨by decide, rfl⟩⟩

theorem kept_register {s s' : Session} {token : Token} {kind : Kind} {reach : Reach}
    {preserve : Bool} {b : Binding} (h : s.register token kind reach preserve = .ok (b, s'))
    (hs : reach = .block ∨ s.isPure = false) : Kept s s' := by
  obtain ⟨rfl, ⟨rfl, rfl⟩ | ⟨hreach, rfl⟩⟩ := register_cases h
  · exact .set s _ _
  · exact .setRoot (hs.resolve_left hreach) _ hreach

/-- The layers behind a generation in a layer of its own: none has changed, and the root has only
grown. -/
structure Sealed (s s' : Session) : Prop where
  inner : s'.scope.inner = s.scope.inner
  grown : Grown s s'

namespace Sealed

variable {s s' s'' : Session}

theorem of_scope_eq (h : s'.scope = s.scope) : Sealed s s' :=
  ⟨by rw [h], .of_root_eq (by rw [h])⟩

theorem refl (s : Session) : Sealed s s :=
  .of_scope_eq rfl

theorem trans (h : Sealed s s') (h' : Sealed s' s'') : Sealed s s'' :=
  ⟨h'.inner.trans h.inner, h.grown.trans h'.grown⟩

end Sealed

/-- A layer is left as it was found around what happened inside. -/
theorem Kept.sealed {s s' : Session} {pure? : Option Bool} (h : Kept (s.enter pure?) s') :
    Sealed s s'.leave :=
  ⟨h.outer, h.grown (List.cons_ne_nil _ _)⟩

theorem Kept.leave {s s' : Session} {pure? : Option Bool} (h : Kept (s.enter pure?) s')
    (hs : pure? = none ∨ s.isPure = false) : Kept s s'.leave := by
  have hsealed := h.sealed
  refine ⟨by rw [hsealed.inner], by rw [hsealed.inner], fun hp => ?_, fun _ => hsealed.grown⟩
  obtain rfl := hs.resolve_right (by rw [hp]; decide)
  exact h.root hp

theorem find?_eq_declared_iff {s : Session} {name : String} {b : Binding} :
    s.find? name = some (.declared b) ↔ s.scope.get? name = some b := by
  rw [find?]
  cases s.scope.get? name <;> simp

/-- A name that is local to a block has become visible. -/
structure Reveals (s s' : Session) (name : String) (b : Binding) : Prop where
  after : s'.find? name = some (.declared b)
  block : b.reach = .block
  before : s.find? name ≠ some (.declared b)

/-- Nothing of a block is visible behind it. -/
theorem Sealed.not_reveals {s s' : Session} (h : Sealed s s') (name : String) (b : Binding) :
    ¬ Reveals s s' name b := by
  rintro ⟨hafter, hb, hbefore⟩
  refine hbefore ?_
  rw [find?_eq_declared_iff] at hafter ⊢
  obtain ⟨new, hroot, hnew⟩ := h.grown
  rw [Layers.get?, h.inner] at hafter
  rw [Layers.get?]
  cases hlayer : s.scope.inner.findSome? fun layer => layer.entries.lookup name with
  | some b' => rwa [hlayer] at hafter
  | none =>
    rw [hlayer, Layers.getRoot?, hroot, List.lookup_append] at hafter
    cases hentry : new.lookup name with
    | none => rwa [hentry] at hafter
    | some b' =>
      rw [hentry] at hafter
      cases hafter
      obtain ⟨l₁, l₂, rfl, -⟩ := List.lookup_eq_some_iff.1 hentry
      exact absurd hb (hnew (name, b) (by simp))

/-- What has become visible across a layer has become visible before it. -/
theorem Sealed.reveals {s s' s'' : Session} (h : Sealed s' s'') {name : String} {b : Binding}
    (hr : Reveals s s'' name b) : Reveals s s' name b := by
  refine ⟨?_, hr.block, hr.before⟩
  by_cases hbefore : s'.find? name = some (.declared b)
  · exact hbefore
  · exact absurd ⟨hr.after, hr.block, hbefore⟩ (h.not_reveals name b)

/-- A declaration makes only the declared name visible. -/
theorem reveals_register {s s' : Session} {token : Token} {kind : Kind} {reach : Reach}
    {preserve : Bool} {b : Binding} (h : s.register token kind reach preserve = .ok (b, s'))
    {name : String} {b' : Binding} (hr : Reveals s s' name b') : name = token.text ∧ b' = b := by
  obtain ⟨rfl, ⟨-, rfl⟩ | ⟨hreach, rfl⟩⟩ := register_cases h
  · have hafter := find?_eq_declared_iff.1 hr.after
    by_cases hname : name = token.text
    · rw [hname, Layers.get?_set_self] at hafter
      exact ⟨hname, (Option.some.inj hafter).symm⟩
    · rw [Layers.get?_set_of_ne _ _ hname] at hafter
      exact absurd (find?_eq_declared_iff.2 hafter) hr.before
  · have hsealed : Sealed s { s with
        scope := s.scope.setRoot token.text (.declare token.text kind reach preserve) } :=
      ⟨rfl, .setRoot s _ hreach⟩
    exact absurd hr (hsealed.not_reveals name b')

end Session

namespace Gen

open Session (Kept Sealed)

variable {lower : Lower} {α : Type}

/-- What is built from actions leaves the layers alone if the lowering of terms inside does. -/
theorem Built.kept (hlower : ∀ t job s, Kept s ((lower t).exec job s).2) {p : Place} {g : Gen α}
    (h : Built lower p g) (job : Job) (s : Session) (hs : p = .outside → s.isPure = false) :
    Kept s (g.exec job s).2 := by
  induction h generalizing s with
  | pure | throw | read | find? | reference => exact .refl s
  | log | nameModule => exact .of_scope_eq rfl
  | lower t => exact hlower t job s
  | @bind _ _ _ g k _ _ ihg ihk =>
    have hg := ihg s hs
    rw [exec_bind]
    rcases hrun : g.exec job s with ⟨_ | a, s'⟩
    · rwa [hrun] at hg
    · rw [hrun] at hg
      -- The first part keeps the purity, so what is allowed in front of it is allowed behind it.
      exact hg.trans (ihk a s' fun hp => hg.isPure.trans (hs hp))
  | register token kind preserve =>
    rw [exec_register]
    split
    · exact Session.kept_register ‹_› (.inl rfl)
    · exact .refl s
  | registerOutside token kind reach preserve =>
    rw [exec_register]
    split
    · exact Session.kept_register ‹_› (.inr (hs rfl))
    · exact .refl s
  | inLayer _ ih => exact (ih (s.enter none) Place.anywhere_ne).leave (.inl rfl)
  -- A layer with a purity of its own is opened outside pure functions only.
  | inFunction isPure _ ih => exact (ih (s.enter isPure) Place.anywhere_ne).leave (.inr (hs rfl))
  | unlessPure cause span _ ih =>
    rw [exec_unlessPure]
    split
    · exact .refl s
    · exact ih s fun _ => Bool.eq_false_iff.2 ‹_›

theorem kept_dispatch (hlower : ∀ t job s, Kept s ((lower t).exec job s).2) (c : Call) (job : Job)
    (s : Session) : Kept s ((dispatch lower c).exec job s).2 := by
  rcases dispatch_cases lower c job s with ⟨-, h⟩ | ⟨f, h⟩ | ⟨m, -, -, h⟩
  · exact h.kept hlower job s Place.anywhere_ne
  · rw [exec, h]
    exact .refl s
  · rw [exec, h]
    exact (built_through m c fun _ => rfl).kept hlower job s Place.naming_ne

theorem kept_within (depth : Nat) (t : Term) (job : Job) (s : Session) :
    Kept s ((within depth t).exec job s).2 := by
  induction depth generalizing t job s with
  | zero => exact .refl s
  | succ depth ih =>
    rw [within]
    rcases step_cases (within depth) t with h | ⟨c, -, h⟩
    · exact h.kept ih job s Place.anywhere_ne
    · rw [h, call, exec_inCall]
      exact kept_dispatch ih c job s

theorem kept_term (t : Term) (job : Job) (s : Session) : Kept s ((term t).exec job s).2 :=
  kept_within t.rank t job s

end Gen

end LispLua
