import LispLua.Proofs.Lexical.Emission
import LispLua.Proofs.Lowering.Scopes

/-!
# Local names are in scope

A local name that is in order is not free in the code of a program. The induction over the rules
goes along with the session: where a name is visible in front of a term, either it is declared in
the code in front of it, or the term does not use it.
-/

namespace LispLua

open Lua

variable {P : Term → Prop} {job : Job} {name : String} {s s' : Session} {u v : List Step}
  {cs : List Code}

/-- A name is in order in front of some steps that belong to terms with some names of their own. -/
structure InOrder (name : String) (plain : List String) (s : Session) (u : List Step) : Prop where
  spares : s.Spares name (plain ++ Step.usesAll u)
  apart : Step.Apart name u
  sunk : name ∈ plain → name ∉ Step.sunkAll u
  steps : Step.Everywhere (Step.Settles name) u

namespace InOrder

variable {plain less : List String}

theorem mono (h : InOrder name plain s u) (hless : less ⊆ plain) : InOrder name less s u where
  spares := h.spares.mono fun hmem =>
    List.mem_append.2 ((List.mem_append.1 hmem).imp_left (hless ·))
  apart := h.apart
  sunk hname := h.sunk (hless hname)
  steps := h.steps

theorem of_shows (h : InOrder name plain s u)
    (hs : s.Spares name (plain ++ Step.usesAll u) → s'.Spares name (plain ++ Step.usesAll u)) :
    InOrder name plain s' u :=
  ⟨hs h.spares, h.apart, h.sunk, h.steps⟩

theorem enter (h : InOrder name plain s u) (pure? : Option Bool) :
    InOrder name plain (s.enter pure?) u :=
  h.of_shows fun hs => Session.Shows.enter hs pure?

theorem withLocal {t : Token} (h : InOrder name plain s u) (ht : mangle t.text ≠ name) :
    InOrder name plain (s.withLocal t) u :=
  h.of_shows fun hs => hs.withLocal fun hname => absurd hname ht

theorem binds {names : List String} (h : InOrder name plain s u) (hbinds : s.Binds names s')
    (hnames : name ∉ names) : InOrder name plain s' u :=
  h.of_shows fun hs => hs.binds hbinds fun hmem => absurd hmem hnames

theorem left (h : InOrder name plain s (u ++ v)) : InOrder name plain s u where
  spares := h.spares.mono fun hmem => List.mem_append.2
    ((List.mem_append.1 hmem).imp_right (Step.usesAll_append_left u v ·))
  apart := h.apart.left
  sunk hname := by
    have hnot := h.sunk hname
    rw [Step.sunkAll_append, List.mem_append, not_or] at hnot
    exact hnot.1
  steps := h.steps.left

/-- A name that is not declared in the open by some terms is in order behind them. -/
theorem right {f : Fragment} (h : InOrder name plain s (u ++ v))
    (hlowers : Lowers P job f s cs u s')
    (hnames : name ∈ f.names u cs → name ∈ Step.namesAll u) (hpasses : f.Passes name)
    (hopened : name ∉ u.flatMap Step.opened) : InOrder name plain s' v where
  spares := by
    refine hlowers.spares (h.spares.mono fun hmem => ?_) (fun hmem huses => ?_) hpasses
      h.steps.left
    · exact List.mem_append.2
        ((List.mem_append.1 hmem).imp_right (Step.mem_usesAll_append_right hopened))
    · have hburied := (Step.mem_namesAll.1 (hnames hmem)).resolve_left hopened
      rcases List.mem_append.1 huses with hplain | huses
      · refine h.sunk hplain ?_
        rw [Step.sunkAll_append]
        exact List.mem_append_left _ (Step.mem_sunkAll_of_buried hburied)
      · exact h.apart.not_uses hopened hburied huses
  apart := h.apart.right
  sunk hname := by
    have hnot := h.sunk hname
    rw [Step.sunkAll_append, List.mem_append, not_or] at hnot
    exact hnot.2
  steps := h.steps.right

/-- Behind a term, or some terms. -/
theorem behind {f : Fragment} {n : Nat} (h : InOrder name plain s (u ++ v))
    (hlowers : Lowers P job f s cs u s') (hf : n ∈ f.width?)
    (hopened : name ∉ u.flatMap Step.opened) : InOrder name plain s' v := by
  cases f with
  | term | values | args | key | entries | body =>
    exact h.right hlowers id trivial hopened
  | _ => cases hf

/-- Behind terms, in front of what does not use the name at all. -/
theorem past {f : Fragment} {n : Nat} (h : InOrder name plain s (u ++ v))
    (hlowers : Lowers P job f s cs u s') (hf : n ∈ f.width?) (huses : name ∉ Step.usesAll v) :
    InOrder name [] s' v where
  spares := by
    have hs : s.Spares name (Step.usesAll v) := h.spares.mono fun hmem => absurd hmem huses
    cases f with
    | term | values | args | key | entries | body =>
      exact hlowers.spares hs (fun _ => huses) trivial h.steps.left
    | _ => cases hf
  apart := h.apart.right
  sunk hname := by cases hname
  steps := h.steps.right

theorem layer (h : InOrder name plain s [.layer s' u]) : InOrder name plain s u where
  spares := by
    have hs := h.spares
    rwa [Step.usesAll_singleton] at hs
  apart := h.steps _ (Step.occurs_layer.2 (.inl rfl))
  sunk hname := by
    have hnot := h.sunk hname
    rwa [Step.sunkAll, Step.sunk, Step.sunkAll, List.append_nil] at hnot
  steps := h.steps.layer

/-- In front of a program no local name is visible. -/
theorem start (job : Job) (h : Orderly name u) : InOrder name [] (Session.start.publish job) u where
  spares := Session.shows_start _ job
  apart := h.1
  sunk hname := by cases hname
  steps := h.2

theorem call {c : Call} (h : InOrder name plain s [.call c s u]) (hown : name ∉ s.own c) :
    InOrder name (s.plain c) s u where
  spares := by
    refine h.spares.mono fun hmem => ?_
    rw [Step.usesAll_singleton, Step.uses, List.mem_append, mem_unbound]
    exact .inr ⟨hmem, hown⟩
  apart := h.steps.head.1
  sunk := h.steps.head.2.1
  steps := h.steps.call

end InOrder

/-- A name is not free in a row of code, and in none of its codes if no step declares it. -/
structure InRow (name : String) (u : List Step) (cs : List Code) : Prop where
  free : name ∉ Code.freeAll cs
  each : name ∉ u.flatMap Step.opened → ∀ c ∈ cs, name ∉ c.free

namespace InRow

theorem of_forall (h : ∀ c ∈ cs, name ∉ c.free) : InRow name u cs :=
  ⟨Code.not_mem_freeAll h, fun _ => h⟩

/-- Behind code either the name is in scope or no step has declared it. -/
theorem cons {c : Code} (hc : name ∉ c.free)
    (hopened : name ∉ c.declared → name ∉ u.flatMap Step.opened)
    (h : name ∉ u.flatMap Step.opened → InRow name v cs) : InRow name (u ++ v) (c :: cs) := by
  refine ⟨Code.not_mem_freeAll_cons.2 ⟨hc, fun hdeclared => (h (hopened hdeclared)).free⟩, ?_⟩
  intro hnone
  rw [List.flatMap_append, List.mem_append, not_or] at hnone
  exact List.forall_mem_cons.2 ⟨hc, (h hnone.1).each hnone.2⟩

end InRow

/-- A name that a term declares is declared in its code. -/
theorem Lowers.not_opened {f : Fragment} {c : Code} {n : Nat} (h : Lowers P job f s [c] u s')
    (hf : n ∈ f.width?) (hc : name ∉ c.declared) : name ∉ u.flatMap Step.opened := by
  rw [← Code.declaredAll_singleton] at hc
  cases f with
  | term | values | args | key | entries | body => exact mt (h.opens ·) hc
  | _ => cases hf

namespace Fragment

/-- The names that a fragment uses outside of the calls in it. -/
def plain : Fragment → List String
  | term t | key _ t => t.plain
  | values ts | args ts | body ts | pairs ts | tests _ ts _ | arms _ ts | closure _ ts
  | named _ _ _ _ ts => Term.plainAll ts
  | entries _ ts => mangle "unit" :: Term.plainAll ts
  | imports ts => Term.plainAll (ts.drop 2)
  | clauses ts => ts.flatMap fun clause => Term.plainAll (clause.clauseArgs.drop 2)
  | form special c => special.plain c

theorem plain_clauses_cons {clause : Term} {rest ts : List Term} {t : Token} {span : Span}
    (h : clause = .list (.symbol t :: ts) span ∨ clause = .call (.symbol t) ts span) :
    plain (clauses (clause :: rest)) = plain (imports ts) ++ plain (clauses rest) := by
  rcases h with rfl | rfl
  · rfl
  · rfl

/-- The name of a hidden function. -/
def own : Fragment → List String
  | form special c => special.own c
  | named _ hidden t _ rest => if hidden && !Gen.isGlobal rest then [mangle t.text] else []
  | _ => []

/-- What a name must be like for a fragment on its own, besides its steps. -/
def Admits (name : String) (u : List Step) : Fragment → Prop
  | tests subject _ _ | arms subject _ => name ∉ subject.free ∧ name ∉ u.flatMap Step.opened
  | clauses _ => name ∉ u.flatMap Step.opened
  | pairs ts => ∀ left ∈ Term.lefts ts, left.binders = [] → name ∉ u.flatMap Step.opened
  | form special c => special.Admits name c u
  | _ => True

/-- A name is not free in the code of a fragment. -/
def Scoped (name : String) (u : List Step) (cs : List Code) : Fragment → Prop
  | values _ | args _ | entries _ _ | body _ => InRow name u cs
  | pairs _ | clauses _ => name ∉ Code.freeAll cs
  | _ => ∀ c ∈ cs, name ∉ c.free

end Fragment

/-- The rules: a name that is in order is not free in the code. -/
theorem Lowers.scoped {f : Fragment} (h : Lowers Term.Literate job f s cs u s') :
    (name ∉ f.own → InOrder name f.plain s u) → f.Admits name u → f.Scoped name u cs := by
  -- Each case says where the name is in order in front of its parts: behind a part whose code
  -- declares the name nothing is left to show, since the rest of the row stands in its scope.
  have hglue := Code.glued_not_mem_free name
  induction h with
  | list _ _ ih =>
    intro horder _
    refine List.forall_mem_singleton.2 ?_
    rw [Code.free]
    exact (ih horder trivial).free
  | @table _ escaped _ _ _ _ _ _ _ ih =>
    intro horder _
    have hfree := (ih horder trivial).free
    refine List.forall_mem_singleton.2 ?_
    cases escaped with
    | true => exact hfree
    | false => exact hfree
  | path _ hfind _ haccesses =>
    intro horder _
    have hs := (horder List.not_mem_nil).spares
    refine List.forall_mem_singleton.2 (hglue.joined.of_accesses haccesses ?_)
    exact hs.not_mem_free hfind (List.mem_cons_self ..) _
  | nameForm _ hfind _ hfunction =>
    intro _ _
    refine List.forall_mem_singleton.2 ?_
    exact Code.not_mem_free_of_startsPlain (startsPlain_function? hfind hfunction)
  | name _ hfind _ =>
    intro horder _
    have hs := (horder List.not_mem_nil).spares
    exact List.forall_mem_singleton.2 (hs.not_mem_free hfind (List.mem_cons_self ..) _)
  | symbol _ | keyQuoted =>
    intro _ _
    exact List.forall_mem_singleton.2 (by simp [Code.free])
  | number hP =>
    intro _ _
    cases hP with
    | number htext =>
      exact List.forall_mem_singleton.2 (Code.not_mem_free_of_startsPlain htext.startsPlain)
  | string hP =>
    intro _ _
    cases hP with
    | string htext =>
      exact List.forall_mem_singleton.2 (Code.not_mem_free_of_startsPlain htext.startsPlain)
  | indexed _ hform _ ih =>
    intro horder _
    have horder := (horder List.not_mem_nil).call (by simp [Session.own, hform])
    exact ih (fun _ => horder.mono (List.nil_subset _)) trivial
  | self _ hform _ ih =>
    intro horder _
    have horder := (horder List.not_mem_nil).call (by simp [Session.own, hform])
    rw [Session.plain, hform] at horder
    have hcs := ih (fun _ => horder.mono (List.subset_append_right _ _)) trivial
    refine List.forall_mem_singleton.2 ?_
    rw [Code.free, List.mem_append, not_or]
    exact ⟨by simp [Code.free, isMangled], hcs.free⟩
  | reached _ hform htarget hfind _ haccesses _ ih =>
    intro horder _
    have horder := (horder List.not_mem_nil).call (by simp [Session.own, hform])
    rw [Session.plain, hform, htarget] at horder
    have hcs := ih (fun _ => horder.mono (List.subset_append_right _ _)) trivial
    refine List.forall_mem_singleton.2 ?_
    rw [Code.free, List.mem_append, not_or]
    refine ⟨hglue.joined.of_accesses haccesses ?_, hcs.free⟩
    exact horder.spares.not_mem_free hfind (List.mem_cons_self ..) _
  | through _ hform htarget hfind _ _ ih =>
    intro horder _
    have horder := (horder List.not_mem_nil).call (by simp [Session.own, hform])
    rw [Session.plain, hform, htarget] at horder
    have hcs := ih (fun _ => horder.mono (List.subset_append_right _ _)) trivial
    refine List.forall_mem_singleton.2 ?_
    rw [Code.free, List.mem_append, not_or]
    exact ⟨horder.spares.not_mem_free hfind (List.mem_cons_self ..) _, hcs.free⟩
  | special _ hform _ ih =>
    intro horder _
    have horder := horder List.not_mem_nil
    refine ih (fun hown => ?_) (horder.steps.head.2.2 _ hform)
    have horder := horder.call (by rwa [Session.own, hform])
    rwa [Session.plain, hform] at horder
  | valuesNil | bodyNil | entriesNil | argsNil =>
    intro _ _
    exact .of_forall (by simp)
  | testsNil | armsNil =>
    intro _ _
    simp [Fragment.Scoped]
  | pairsNil | clausesNil =>
    intro _ _
    exact List.not_mem_nil
  | valuesCons hterm _ ih ih' | argsCons hterm _ ih ih' =>
    intro horder _
    have horder := horder List.not_mem_nil
    have hc := Code.not_mem_free_of_singleton
      (ih (fun _ => horder.left.mono (List.subset_append_left _ _)) trivial)
    refine .cons hc (hterm.not_opened rfl) fun hopened => ih' (fun _ => ?_) trivial
    exact (horder.behind hterm rfl hopened).mono (List.subset_append_right _ _)
  | argsForm hfind _ hfunction _ ih =>
    intro horder _
    have hcs := ih (fun _ => (horder List.not_mem_nil).mono (List.subset_append_right _ _)) trivial
    have hf : name ∉ (Code.word _).free :=
      Code.not_mem_free_of_startsPlain (startsPlain_function? hfind hfunction)
    refine ⟨Code.not_mem_freeAll_cons.2 ⟨hf, fun _ => hcs.free⟩, fun hopened => ?_⟩
    exact List.forall_mem_cons.2 ⟨hf, hcs.each hopened⟩
  | keyTerm _ ih =>
    intro horder _
    exact ih horder trivial
  | @entriesLast _ _ _ _ u _ _ hkey hfind _ ih =>
    intro horder _
    have horder := horder List.not_mem_nil
    have hc := ih (fun _ => horder.mono (by simp [Fragment.plain, Term.plainAll])) trivial
    refine .of_forall (List.forall_mem_singleton.2 ?_)
    rw [Code.free, List.mem_append, mem_unbound, not_or, not_and, imp_not_comm]
    refine ⟨Code.not_mem_free_of_singleton hc, fun hdeclared => ?_⟩
    rw [← List.append_nil u] at horder
    have hs' := (horder.behind hkey rfl (hkey.not_opened rfl hdeclared)).spares
    exact hs'.not_mem_free hfind (List.mem_cons_self ..) _
  | @entriesCons _ k _ _ _ _ t _ _ _ ts _ _ _ hkey hterm _ ih ih' ih'' =>
    intro horder _
    have horder := horder List.not_mem_nil
    have hplain : ∀ t' ∈ k :: t :: ts,
        t'.plain ⊆ Fragment.plain (.entries true (k :: t :: ts)) := fun t' ht' =>
      List.subset_cons_of_subset _ (Term.plain_subset_plainAll ht')
    have hc := Code.not_mem_free_of_singleton
      (ih (fun _ => horder.left.mono (hplain k (by simp))) trivial)
    rw [← List.append_assoc]
    refine .cons ?_ (fun hdeclared => ?_) fun hopened => ?_
    · rw [Code.free, List.mem_append, mem_unbound, not_or, not_and, imp_not_comm]
      refine ⟨hc, fun hdeclared => ?_⟩
      have horder := horder.behind hkey rfl (hkey.not_opened rfl hdeclared)
      exact Code.not_mem_free_of_singleton
        (ih' (fun _ => horder.left.mono (hplain t (by simp))) trivial)
    · rw [Code.declared, List.mem_append, not_or] at hdeclared
      rw [List.flatMap_append, List.mem_append, not_or]
      exact ⟨hkey.not_opened rfl hdeclared.1, hterm.not_opened rfl hdeclared.2⟩
    · rw [List.flatMap_append, List.mem_append, not_or] at hopened
      have horder := (horder.behind hkey rfl hopened.1).behind hterm rfl hopened.2
      refine ih'' (fun _ => horder.mono (List.cons_subset_cons _ (Term.plainAll_subset ?_))) trivial
      exact List.subset_cons_of_subset _ (List.subset_cons_self _ _)
  | @bodyLast _ _ definition _ c _ _ _ _ _ ih =>
    intro horder _
    have hc := ih (fun _ => (horder List.not_mem_nil).mono (List.subset_append_left _ _)) trivial
    have hc := Code.not_mem_free_of_singleton hc
    cases definition with
    | true =>
      refine .of_forall (List.forall_mem_cons.2 ⟨hc, List.forall_mem_singleton.2 ?_⟩)
      exact Code.not_mem_free_giveUnit
    | false => exact .of_forall (List.forall_mem_singleton.2 hc)
  | bodyCons _ hterm _ ih ih' =>
    intro horder _
    have horder := horder List.not_mem_nil
    have hc := Code.not_mem_free_of_singleton
      (ih (fun _ => horder.left.mono (List.subset_append_left _ _)) trivial)
    refine .cons (c := .run _ _) hc (hterm.not_opened rfl) fun hopened => ih' (fun _ => ?_) trivial
    exact (horder.behind hterm rfl hopened).mono (List.subset_append_right _ _)
  | @pairsCons _ _ _ u _ bs _ _ _ _ _ _ hterm hdestructs hlength _ ih ih' =>
    intro horder hadmits
    have horder := horder List.not_mem_nil
    obtain ⟨hleft, hlefts⟩ := List.forall_mem_cons.1 hadmits
    simp only [List.flatMap_append, List.mem_append, not_or] at hleft hlefts
    have hc := Code.not_mem_free_of_singleton
      (ih (fun _ => horder.left.mono (Term.plain_subset_plainAll (by simp))) trivial)
    have hbs := hglue.joined.of_destructs (fun h => h) hdestructs hc
    refine Code.not_mem_freeAll_append (Code.not_mem_freeAll hbs) fun hdeclared => ?_
    -- A pattern without binders leaves no code, and so no declaration that the rest could stand in.
    have hopened : name ∉ u.flatMap Step.opened := by
      by_cases hnil : bs = []
      · rw [hnil] at hlength
        exact (hleft (List.length_eq_zero_iff.1 hlength.symm)).1
      · exact hterm.not_opened rfl (mt (hdestructs.declared_subset hnil ·) hdeclared)
    have horder := (horder.behind hterm rfl hopened).of_shows fun hs =>
      hs.destructs hdestructs fun hmem => absurd hmem hdeclared
    refine ih' (fun _ => horder.mono (Term.plainAll_subset ?_)) fun left hleft hnil =>
      (hlefts left hleft hnil).2
    exact List.subset_cons_of_subset _ (List.subset_cons_self _ _)
  | testsAny _ ih =>
    intro horder hadmits
    exact ih (fun _ => (horder List.not_mem_nil).mono (List.subset_append_right _ _)) hadmits
  | testsCons hterm _ ih ih' =>
    rintro horder ⟨hsubject, hopened⟩
    rw [List.flatMap_append, List.mem_append, not_or] at hopened
    have horder := horder List.not_mem_nil
    have hc := ih (fun _ => horder.left.mono (List.subset_append_left _ _)) trivial
    have horder₁ := horder.behind hterm rfl hopened.1
    have hcs := ih' (fun _ => horder₁.mono (List.subset_append_right _ _)) ⟨hsubject, hopened.2⟩
    refine List.forall_mem_cons.2 ⟨hglue _ trivial (List.forall_mem_cons.2 ⟨?_, hc⟩), hcs⟩
    exact hglue _ trivial (List.forall_mem_singleton.2 (hglue.joined.indexable hsubject))
  | armsAny _ ih =>
    intro horder hadmits
    have horder := (horder List.not_mem_nil).mono (Term.plainAll_subset
      (List.subset_cons_of_subset _ (List.subset_cons_self _ _)))
    exact ih (fun _ => horder.of_shows fun hs => Session.Shows.of_scope_eq hs rfl) hadmits
  | armsList hright htests _ ih ih' ih'' =>
    rintro horder ⟨hsubject, hopened⟩
    simp only [List.flatMap_append, List.mem_append, not_or] at hopened
    have horder := horder List.not_mem_nil
    have horder₁ := horder.behind hright rfl hopened.1
    have horder₂ := horder₁.right htests id trivial hopened.2.1
    have hvalue := ih (fun _ => horder.left.mono (Term.plain_subset_plainAll (by simp))) trivial
    have htests := ih' (fun _ => horder₁.left.mono (List.subset_append_left _ _))
      ⟨hsubject, hopened.2.1⟩
    have hcs := ih'' (fun _ => horder₂.mono (Term.plainAll_subset
      (List.subset_cons_of_subset _ (List.subset_cons_self _ _)))) ⟨hsubject, hopened.2.2⟩
    refine List.forall_mem_cons.2 ⟨hglue _ trivial (List.forall_mem_cons.2 ⟨?_, hvalue⟩), hcs⟩
    refine hglue _ trivial (List.forall_mem_cons.2 ⟨hglue _ trivial ?_, htests⟩)
    exact List.forall_mem_singleton.2 hsubject
  | armsTerm _ hright hleft _ ih ih' ih'' =>
    rintro horder ⟨hsubject, hopened⟩
    simp only [List.flatMap_append, List.mem_append, not_or] at hopened
    have horder := horder List.not_mem_nil
    have horder₁ := horder.behind hright rfl hopened.1
    have horder₂ := horder₁.behind hleft rfl hopened.2.1
    have hvalue := ih (fun _ => horder.left.mono (Term.plain_subset_plainAll (by simp))) trivial
    have hc := ih' (fun _ => horder₁.left.mono (List.subset_append_left _ _)) trivial
    have hcs := ih'' (fun _ => horder₂.mono (Term.plainAll_subset
      (List.subset_cons_of_subset _ (List.subset_cons_self _ _)))) ⟨hsubject, hopened.2.2⟩
    refine List.forall_mem_cons.2 ⟨hglue _ trivial (List.forall_mem_cons.2 ⟨?_, hvalue⟩), hcs⟩
    exact hglue _ trivial (List.forall_mem_cons.2 ⟨hsubject, hc⟩)
  | importWhole _ ih =>
    intro horder _
    have hc := Code.not_mem_free_of_singleton (ih horder trivial)
    exact List.forall_mem_singleton.2 hc
  | importNamed =>
    intro _ _
    exact List.forall_mem_singleton.2 (by simp [Code.free])
  | importAs _ ih =>
    intro horder _
    have hc := Code.not_mem_free_of_singleton
      (ih (fun _ => (horder List.not_mem_nil).mono (List.subset_append_left _ _)) trivial)
    exact List.forall_mem_singleton.2 hc
  | importMembers _ _ _ ih =>
    intro horder _
    have hc := ih (fun _ => (horder List.not_mem_nil).mono (List.subset_append_left _ _)) trivial
    refine List.forall_mem_singleton.2 ?_
    rw [Code.free, mem_unbound]
    exact fun hmem => Code.not_mem_free_of_singleton hc hmem.1
  | clausesCons hclause himports _ ih ih' =>
    intro horder hopened
    have horder := horder List.not_mem_nil
    rw [Fragment.plain_clauses_cons hclause] at horder
    rw [Fragment.Admits, List.flatMap_append, List.mem_append, not_or] at hopened
    have hc := Code.not_mem_free_of_singleton
      (ih (fun _ => horder.left.mono (List.subset_append_left _ _)) trivial)
    refine Code.not_mem_freeAll_cons.2 ⟨hc, fun hdeclared => ih' (fun _ => ?_) hopened.2⟩
    rw [← Code.declaredAll_singleton] at hdeclared
    refine (horder.right himports (fun hmem => ?_) trivial hopened.1).mono
      (List.subset_append_right _ _)
    exact (List.mem_append.1 hmem).resolve_left (mt (himports.opens ·) hdeclared)
  | closureEmpty =>
    intro _ _
    refine List.forall_mem_singleton.2 ?_
    rw [Code.free, mem_unbound, Code.free, Code.freeAll_singleton]
    exact fun hmem => Code.not_mem_free_giveUnit hmem.1
  | closure hbinds _ _ ih =>
    intro horder _
    refine List.forall_mem_singleton.2 ?_
    rw [Code.free, mem_unbound, Code.free, not_and, imp_not_comm]
    exact fun hnames => (ih (fun _ => (horder List.not_mem_nil).binds hbinds hnames) trivial).free
  | @named s₂ s₁ _ rest c _ s₃ t _ _ b _ _ hidden hregister hlog hclosure ih =>
    intro horder _
    have hrest : (if Gen.isGlobal rest then rest.drop 1 else rest) ⊆ rest := by
      split
      · exact List.drop_subset _ _
      · exact List.Subset.refl _
    -- A hidden function is visible in its own body, which stands in the scope of its name.
    have hc : name ∉ (if hidden && !Gen.isGlobal rest then [mangle t.text] else []) →
        name ∉ c.free := by
      intro hown
      have horder := (horder hown).layer.mono (Term.plainAll_subset hrest)
      refine Code.not_mem_free_of_singleton
        (ih (fun _ => (horder.of_shows fun hs => ?_).enter _) trivial)
      have hs₁ : s₁.Spares name _ := Session.Spares.register hs hregister (absurd · hown)
      exact Session.Shows.of_scope_eq hs₁ (by rw [hlog])
    refine List.forall_mem_singleton.2 ?_
    cases hopen : hidden && !Gen.isGlobal rest with
    | true =>
      rw [if_pos rfl, Code.free, Session.emitted_of_register hregister hopen, mem_unbound, not_and,
        imp_not_comm]
      rwa [hopen, if_pos rfl] at hc
    | false =>
      rw [hopen, if_neg (by simp)] at hc
      obtain ⟨owner, key, href⟩ :=
        Session.reference_of_register hregister (Session.reach_ne_block hopen) s₃.package
      rw [if_neg (by simp), href, Code.free, List.mem_append, not_or]
      exact ⟨by simp [Code.free], hc List.not_mem_nil⟩
  | defineFunction hargs _ _ ih =>
    intro horder _
    have horder : InOrder name (Term.plainAll _) _ _ := horder List.not_mem_nil
    rw [hargs] at horder
    exact ih (fun _ => horder.mono (List.subset_append_right _ _)) trivial
  | function hargs _ _ ih =>
    intro horder _
    refine ih (fun hown => ?_) trivial
    have horder : InOrder name (Term.plainAll _) _ _ :=
      horder (by rwa [Fragment.own, Form.own_function hargs])
    rw [hargs] at horder
    exact horder.mono (List.subset_append_right _ _)
  | defineValue hargs _ _ hregister ih =>
    intro horder _
    have horder := horder List.not_mem_nil
    rw [Fragment.plain, Form.plain, hargs] at horder
    have hc := Code.not_mem_free_of_singleton
      (ih (fun _ => horder.mono (List.subset_append_left _ _)) trivial)
    obtain ⟨rfl, -⟩ := Session.register_cases hregister
    refine List.forall_mem_singleton.2 ?_
    rw [Code.free, List.mem_append, not_or]
    exact ⟨by simp [Binding.reference, Binding.declare, Code.free], hc⟩
  | declare =>
    intro _ _
    exact List.forall_mem_singleton.2 (by simp [Code.free])
  | importModule _ ih =>
    intro horder _
    exact ih (fun _ => horder List.not_mem_nil) trivial
  | nameModule hargs _ ih =>
    intro horder hopened
    have horder := horder List.not_mem_nil
    rw [Fragment.plain, Form.plain, hargs] at horder
    have hcs := ih (fun _ => horder.of_shows fun hs => Session.Shows.of_scope_eq hs rfl) hopened
    refine List.forall_mem_singleton.2 ?_
    rw [Code.free]
    exact hcs
  | @bindings _ pairs _ u _ _ _ _ _ _ _ hargs hpairs _ ih ih' =>
    intro horder hadmits
    have horder : InOrder name (Term.plainAll _) _ _ := (horder List.not_mem_nil).layer.enter none
    rw [hargs] at horder
    have hdrops : ∀ left ∈ Term.lefts pairs, left.binders = [] → name ∉ u.flatMap Step.opened := by
      rw [Fragment.Admits, Form.Admits, hargs] at hadmits
      intro left hleft hnil
      have hopened := hadmits left (by simpa [Term.items] using hleft) hnil
      simp only [List.flatMap_singleton, Step.exposed, List.flatMap_append, List.mem_append,
        not_or] at hopened
      exact hopened.1
    have hbs := ih (fun _ => horder.left.mono (List.subset_append_left _ _)) hdrops
    refine List.forall_mem_singleton.2 ?_
    rw [Code.free, Code.free, List.mem_append, mem_unbound, not_or, not_and, imp_not_comm]
    refine ⟨hbs, fun hdeclared => ?_⟩
    have hopened : name ∉ u.flatMap Step.opened := by
      by_cases hlefts : ∀ left ∈ Term.lefts pairs, left.binders ≠ []
      · exact mt (hpairs.opens hlefts ·) hdeclared
      · simp only [not_forall, not_not] at hlefts
        obtain ⟨left, hleft, hnil⟩ := hlefts
        exact hdrops left hleft hnil
    have horder := horder.right hpairs (fun hmem => ?_) trivial hopened
    · exact (ih' (fun _ => horder.mono (List.subset_append_right _ _)) trivial).free
    · exact (List.mem_append.1 hmem).resolve_left hdeclared
  | @conditional test yes no _ _ u _ _ v _ _ _ _ _ hargs htest hyes _ ih ih' ih'' =>
    intro horder hadmits
    have horder : InOrder name (Term.plainAll _) _ _ := horder List.not_mem_nil
    rw [hargs] at horder
    -- What is admitted is a declaration in the last branch, whose steps are the last ones.
    have hwidth : Term.widthAll ((test :: yes :: no).take 2) = (u ++ v).length := by
      rw [List.length_append, htest.length_eq _ rfl, hyes.length_eq _ rfl]
      rfl
    rw [Fragment.Admits, Form.Admits, hargs, hwidth, ← List.append_assoc, List.take_left,
      List.flatMap_append, List.mem_append, not_or] at hadmits
    have horder₁ := horder.behind htest rfl hadmits.1
    have horder₂ := horder₁.behind hyes rfl hadmits.2
    have hc := Code.not_mem_free_of_singleton
      (ih (fun _ => horder.left.mono (Term.plain_subset_plainAll (by simp))) trivial)
    have hd := Code.not_mem_free_of_singleton
      (ih' (fun _ => horder₁.left.mono (Term.plain_subset_plainAll (by simp))) trivial)
    have hcs := ih'' (fun _ => horder₂.mono (Term.plainAll_subset
      (List.subset_cons_of_subset _ (List.subset_cons_self _ _)))) trivial
    refine List.forall_mem_singleton.2 ?_
    rw [Code.free, Code.free, List.mem_append, List.mem_append, not_or, not_or]
    exact ⟨hc, hd, hcs.free⟩
  | matching hargs _ hvalue _ ih ih' =>
    intro horder hopened
    rw [Fragment.Admits, Form.Admits, List.flatMap_append, List.mem_append, not_or] at hopened
    have horder : InOrder name (Term.plainAll _) _ _ := horder List.not_mem_nil
    rw [hargs] at horder
    have hsubject := Code.not_mem_free_of_singleton
      (ih (fun _ => horder.left.mono (List.subset_append_left _ _)) trivial)
    have horder₁ := horder.behind hvalue rfl hopened.1
    have hcs := ih' (fun _ => horder₁.mono (List.subset_append_right _ _)) ⟨hsubject, hopened.2⟩
    exact List.forall_mem_singleton.2 (hglue.joined.choice hcs (by simp))
  | matchingElse hargs hfallback hvalue harms _ ih ih' ih'' =>
    intro horder hopened
    simp only [Fragment.Admits, Form.Admits, List.flatMap_append, List.mem_append,
      not_or] at hopened
    have horder : InOrder name (Term.plainAll _) _ _ := horder List.not_mem_nil
    rw [hargs] at horder
    have hsubject := Code.not_mem_free_of_singleton
      (ih (fun _ => horder.left.mono (List.subset_append_left _ _)) trivial)
    have horder₁ := horder.behind hvalue rfl hopened.1
    have hcs := ih' (fun _ => horder₁.left.mono (List.subset_append_right _ _))
      ⟨hsubject, hopened.2.1⟩
    have horder₂ := horder₁.right harms id trivial hopened.2.1
    have hds := ih'' (fun _ => horder₂.mono (Term.plainAll_subset (List.cons_subset.2
      ⟨List.mem_cons_of_mem _ (Gen.mem_of_fallback? hfallback), List.nil_subset _⟩))) trivial
    refine List.forall_mem_singleton.2 (hglue.joined.choice hcs fun ds heq => ?_)
    cases heq
    exact hds.each hopened.2.2
  | block _ ih =>
    intro horder _
    refine List.forall_mem_singleton.2 ?_
    rw [Code.free, Code.free]
    exact (ih horder trivial).free
  | loopCount hargs hbounds _ ih ih' =>
    intro horder _
    have horder : InOrder name (Term.plainAll _) _ _ := (horder List.not_mem_nil).layer.enter none
    rw [hargs] at horder
    have hbs := (ih (fun _ => horder.left.mono (Term.plainAll_subset
      (List.subset_append_of_subset_left _ (by simp [Term.bounds])))) trivial).free
    refine List.forall_mem_singleton.2 ?_
    rw [Code.free, Code.free, List.mem_append, mem_unbound, List.mem_cons, not_or, not_and,
      imp_not_comm, not_or]
    refine ⟨hbs, ?_⟩
    rintro ⟨ht, hdeclared⟩
    have horder := (horder.behind hbounds rfl (mt (hbounds.opens ·) hdeclared)).mono
      (Term.plainAll_subset (List.subset_append_of_subset_right _ (List.subset_cons_self _ _)))
    exact (ih' (fun _ => horder.withLocal (Ne.symm ht)) trivial).free
  | loopEach hargs hsource _ ih ih' =>
    intro horder _
    have horder : InOrder name (Term.plainAll _) _ _ := (horder List.not_mem_nil).layer.enter none
    rw [hargs] at horder
    have hc := Code.not_mem_free_of_singleton (ih (fun _ => horder.left.mono
      (Term.plain_subset_of_mem_items (by simp) (List.mem_append_right _ List.mem_cons_self)))
      trivial)
    refine List.forall_mem_singleton.2 ?_
    rw [Code.free, Code.free, List.mem_append, mem_unbound, List.mem_cons, List.mem_cons, not_or,
      not_and, imp_not_comm, not_or, not_or]
    refine ⟨hc, ?_⟩
    rintro ⟨-, ht, hdeclared⟩
    have horder := (horder.behind hsource rfl (hsource.not_opened rfl hdeclared)).mono
      (Term.plainAll_subset (List.subset_append_of_subset_right _ (List.subset_cons_self _ _)))
    exact (ih' (fun _ => horder.withLocal (Ne.symm ht)) trivial).free
  | loopPairs hargs hsource _ ih ih' =>
    intro horder _
    have horder : InOrder name (Term.plainAll _) _ _ := (horder List.not_mem_nil).layer.enter none
    rw [hargs] at horder
    have hc := Code.not_mem_free_of_singleton (ih (fun _ => horder.left.mono
      (Term.plain_subset_of_mem_items (by simp) (List.mem_append_right _ List.mem_cons_self)))
      trivial)
    refine List.forall_mem_singleton.2 ?_
    rw [Code.free, Code.free, List.mem_append, mem_unbound, List.mem_cons, List.mem_cons, not_or,
      not_and, imp_not_comm, not_or, not_or]
    refine ⟨hc, ?_⟩
    rintro ⟨ht', ht, hdeclared⟩
    have horder := (horder.behind hsource rfl (hsource.not_opened rfl hdeclared)).mono
      (Term.plainAll_subset (List.subset_append_of_subset_right _ (List.subset_cons_self _ _)))
    exact (ih' (fun _ => (horder.withLocal (Ne.symm ht)).withLocal (Ne.symm ht')) trivial).free
  | lambda hargs _ ih =>
    intro horder _
    have horder : InOrder name (Term.plainAll _) _ _ := (horder List.not_mem_nil).layer.enter none
    rw [hargs] at horder
    exact ih (fun _ => horder.mono (List.subset_append_right _ _)) trivial
  | @attempt _ _ u _ _ _ _ _ hbody _ ih ih' =>
    intro horder hadmits
    have horder : InOrder name (Term.plainAll _) _ _ := horder List.not_mem_nil
    simp only [Fragment.Admits, Form.Admits, ← hbody.length_eq _ rfl, List.take_left,
      List.drop_left] at hadmits
    have hcs := (ih (fun _ => horder.left.mono (Term.plainAll_subset List.filter_sublist.subset))
      trivial).free
    have hds := (ih' (fun _ => ?_) trivial).free
    · refine List.forall_mem_singleton.2 ?_
      rw [Code.free, Code.free, List.mem_append, not_or]
      exact ⟨hcs, hds⟩
    -- The handlers stand outside of the body's block, so a name declared there must not be used.
    · by_cases hopened : name ∈ u.flatMap Step.opened
      · refine (horder.past hbody rfl (hadmits hopened)).mono ?_
        rw [Fragment.plain, Term.plainAll_filter_isCatch]
        exact List.nil_subset _
      · refine (horder.behind hbody rfl hopened).mono ?_
        exact Term.plainAll_subset List.filter_sublist.subset
  | handler hargs _ ih =>
    intro horder _
    have horder : InOrder name (Term.plainAll _) _ _ := (horder List.not_mem_nil).layer.enter none
    rw [hargs] at horder
    refine List.forall_mem_singleton.2 ?_
    rw [Code.free, mem_unbound, Code.free, not_and, imp_not_comm]
    intro ht
    refine (ih (fun _ => ?_) trivial).free
    refine (horder.mono (List.subset_append_right _ _)).withLocal fun hname => ht ?_
    exact hname ▸ List.mem_singleton_self _
  | arguments =>
    intro _ _
    exact List.forall_mem_singleton.2 (by simp [Code.free])
  | sugar hexpands _ ih =>
    intro horder _
    have horder := horder (by simp [Fragment.own, hexpands.own_eq_nil])
    rw [Fragment.plain, hexpands.plain_eq] at horder
    exact ih (fun _ => horder.mono hexpands.plain_subset) trivial
  | negation hargs _ ih =>
    intro horder _
    have horder : InOrder name (Term.plainAll _) _ _ := horder List.not_mem_nil
    rw [hargs] at horder
    have hc := Code.not_mem_free_of_singleton
      (ih (fun _ => horder.mono (List.subset_append_left _ _)) trivial)
    exact List.forall_mem_singleton.2 hc
  | operator _ _ ih =>
    intro horder hopened
    have hcs := (ih horder trivial).each hopened
    refine List.forall_mem_singleton.2 (hglue.joined.combine _ _ fun c hc => ?_)
    obtain ⟨d, hd, rfl⟩ := List.mem_map.1 hc
    exact hglue.joined.operand (hcs d hd)

/-! ### Names inside of words -/

namespace Lua

/-- A name stands in a text: not within quotes, with no other character of a name beside it and not
behind a point. -/
def Mentions (text name : String) : Prop :=
  text.toList.head? ≠ some '"' ∧ ∃ before after : List Char,
    text.toList = before ++ name.toList ++ after ∧
      (∀ c ∈ before.getLast?, isWordChar c = false ∧ c ≠ '.') ∧
      ∀ c ∈ after.head?, isWordChar c = false

/-- A text of a node of code has a name in it and is another word. -/
def Code.Hides (name : String) : Code → Prop
  | word text | field _ text | method _ text => text ≠ name ∧ Mentions text name
  | _ => False

variable {text : String}

theorem head?_of_isMangled (h : isMangled name = true) : name.toList.head? = some '_' := by
  rw [isMangled, List.isPrefixOf_iff_prefix] at h
  obtain ⟨rest, hrest⟩ := h
  rw [← hrest]
  rfl

theorem mem_intercalate {words : List (List Char)} {c : Char} (h : c ∈ ['.'].intercalate words) :
    c = '.' ∨ ∃ word ∈ words, c ∈ word := by
  induction words with
  | nil => simp at h
  | cons word words ih =>
    cases words with
    | nil => exact .inr ⟨word, by simp, by simpa using h⟩
    | cons word' words =>
      simp only [List.intercalate_cons_cons, List.mem_append, List.mem_singleton] at h
      rcases h with (h | h) | h
      · exact .inr ⟨word, by simp, h⟩
      · exact .inl h
      · obtain hc | ⟨w, hw, hc⟩ := ih h
        · exact .inl hc
        · exact .inr ⟨w, List.mem_cons_of_mem _ hw, hc⟩

theorem isWordChar_of_isReference (h : isReference text = true) :
    ∀ c ∈ text.toList, isWordChar c = true ∨ c = '.' := by
  have hsplit : ['.'].intercalate (text.toList.splitOn '.') = text.toList :=
    List.intercalate_splitOn '.'
  rw [← hsplit]
  intro c hc
  obtain hc | ⟨word, hword, hc⟩ := mem_intercalate hc
  · exact .inr hc
  · exact .inl ((isPlainWord_of_isName (List.all_eq_true.1 h word hword)).1 c hc)

theorem not_underscore_of_isDigits {cs : List Char} (h : IsDigits cs) : '_' ∉ cs := by
  intro hmem
  have hdigit := h.2 '_' hmem
  cases hdigit

theorem not_underscore_of_isNumeral {cs : List Char} (h : IsNumeral cs) : '_' ∉ cs := by
  have hunsigned : ∀ {ds : List Char}, IsUnsigned ds → '_' ∉ ds := by
    intro ds hds
    cases hds with
    | whole hds => exact not_underscore_of_isDigits hds
    | decimal hds hes =>
      simp [not_underscore_of_isDigits hds, not_underscore_of_isDigits hes]
  cases h with
  | plain hcs => exact hunsigned hcs
  | negative hcs => simpa using hunsigned hcs

theorem not_underscore_of_isIndex (h : isIndex text = true) : '_' ∉ text.toList := by
  obtain ⟨ds, hds, htext⟩ := exists_digits_of_isIndex h
  have hnot := not_underscore_of_isDigits hds
  simp only [List.mem_cons, List.not_mem_nil, or_false] at htext
  rcases htext with htext | htext | htext
  · simpa [htext] using hnot
  · simpa [htext] using hnot
  · rwa [htext]

namespace Mentions

/-- A name in a word stands at its start. -/
theorem starts (h : Mentions text name)
    (htext : ∀ c ∈ text.toList, isWordChar c = true ∨ c = '.') :
    ∃ after, text.toList = name.toList ++ after ∧ ∀ c ∈ after.head?, isWordChar c = false := by
  obtain ⟨-, before, after, heq, hbefore, hafter⟩ := h
  rcases List.eq_nil_or_concat before with rfl | ⟨before, c, rfl⟩
  · exact ⟨after, heq, hafter⟩
  · obtain ⟨hword, hpoint⟩ := hbefore c (by simp)
    rcases htext c (by simp [heq]) with hc | hc
    · rw [hword] at hc
      cases hc
    · exact absurd hc hpoint

theorem eq_of_isIdentifier (h : Mentions text name) (htext : isIdentifier text = true) :
    text = name := by
  have hword := (isPlainWord_of_isIdentifier htext).1
  obtain ⟨after, heq, hafter⟩ := h.starts fun c hc => .inl (hword c hc)
  cases after with
  | nil =>
    rw [List.append_nil] at heq
    exact String.toList_inj.1 heq
  | cons c after =>
    have hc := hword c (by simp [heq])
    rw [hafter c rfl] at hc
    cases hc

theorem subset (h : Mentions text name) : name.toList ⊆ text.toList := by
  obtain ⟨-, before, after, heq, -⟩ := h
  rw [heq]
  exact List.subset_append_of_subset_left _ (List.subset_append_right _ _)

/-- A word that has a local name in it is that name. -/
theorem eq_of_isAtom (h : Mentions text name) (hname : isMangled name = true)
    (htext : IsAtom text) : text = name := by
  have hhead := head?_of_isMangled hname
  have hmem : '_' ∈ text.toList := h.subset (List.mem_of_mem_head? hhead)
  cases htext with
  | name htext => exact h.eq_of_isIdentifier htext
  | reference htext hplain =>
    obtain ⟨after, heq, -⟩ := h.starts (isWordChar_of_isReference htext)
    refine absurd ?_ hplain
    rw [heq, List.head?_append, hhead]
    rfl
  | numeral htext => exact absurd hmem (not_underscore_of_isNumeral htext)
  | index htext => exact absurd hmem (not_underscore_of_isIndex htext)
  | literal htext => exact absurd htext.head h.1

end Mentions

theorem Code.Contained.not_hides {c : Code} (h : c.Contained) (hname : isMangled name = true) :
    ¬ c.Hides name := by
  cases c with
  | word text => exact fun hhides => hhides.1 (hhides.2.eq_of_isAtom hname h)
  | field | method => exact fun hhides => hhides.1 (hhides.2.eq_of_isIdentifier h)
  | _ => exact id

end Lua

namespace Gen

/-- A local name that is in order is not free in the code of an accepted source: each use stands in
the block of a declaration of the same name, behind it. If the names behind access operators and
those that a `declare` lists are names of Lua, no word of the code has a local name in it and is
another. -/
theorem locals_used_in_their_blocks {source sourceName text : String} {options : Options}
    (h : (compile source sourceName options).1 = .ok text) {p : Program}
    (hp : parse source = .ok p) :
    ∃ stmts s', (statements p).exec ⟨options, sourceName, source⟩
        (Session.start.publish ⟨options, sourceName, source⟩) = (.ok stmts, s') ∧
      text = (Chunk.mk options s'.package stmts).render ∧
      (∀ name, Orderly name ((statements p).steps ⟨options, sourceName, source⟩
          (Session.start.publish ⟨options, sourceName, source⟩)) →
        name ∉ Code.freeAll (stmts.map Stmt.code)) ∧
      ((∀ c ∈ p, ∀ x ∈ c.term.segments, isIdentifier x.name.text = true) →
        Step.Everywhere (·.declaresNames = true) ((statements p).steps ⟨options, sourceName, source⟩
          (Session.start.publish ⟨options, sourceName, source⟩)) →
        (options.publish = true → Quotable (stem sourceName)) →
        ∀ name, isMangled name = true → ∀ stmt ∈ stmts, ∀ c ∈ stmt.code.nodes, ¬ c.Hides name) := by
  obtain ⟨stmts, s', hexec, rfl⟩ := (compile_eq_ok_iff hp).1 h
  refine ⟨stmts, s', hexec, rfl, fun name horderly => ?_, fun hsegments hdeclares hmodule => ?_⟩
  · have hlowers := lowers_statements hereditary_literate (literate_of_parse hp)
      (gives_iff.2 ⟨hexec, rfl⟩)
    refine (hlowers.scoped (fun _ => ?_) trivial).free
    rw [Fragment.plain, Term.plainAll_map_term]
    exact .start _ horderly
  · intro name hname stmt hstmt c hc
    have hlowers := lowers_statements hereditary_emittable (emittable_of_parse hp hsegments)
      (gives_iff.2 ⟨hexec, rfl⟩)
    have hstart : (Session.start.publish ⟨options, sourceName, source⟩).Clean :=
      Session.Clean.start.publish hmodule
    obtain ⟨-, hformed⟩ := hlowers.formed hstart trivial hdeclares
    have hcontained := (hformed _ (List.mem_map_of_mem hstmt)).every_contained
    exact (hcontained c hc).not_hides hname

/-- Local functions in functions and in blocks, patterns, imports and loops. -/
def sheltered : Job :=
  ⟨.library, "test.crn",
    "(import m :from \"lib\") (defn-! f [x] (let [[a] x] (defn- g [] a) (g)))
     (for [i (range 1 3)] (if i (f m) (try (f i) (catch [e] e))))
     (do (defn- h [x] x) (h 1)) (if 1 2 (do (defn- h [] 3) (h)))"⟩

/-- The names of `sheltered`, as they are emitted. -/
def shelteredNames : List String :=
  ["m", "f", "x", "a", "g", "i", "e", "h"].map mangle

theorem locals_used_in_their_blocks_sheltered :
    ∃ text p, (compile sheltered.code sheltered.sourceName sheltered.options).1 = .ok text ∧
      parse sheltered.code = .ok p ∧
      ∃ stmts s',
        (statements p).exec sheltered (Session.start.publish sheltered) = (.ok stmts, s') ∧
        ∀ name ∈ shelteredNames,
          Orderly name ((statements p).steps sheltered (Session.start.publish sheltered)) ∧
          name ∉ Code.freeAll (stmts.map Stmt.code) ∧
          ∀ stmt ∈ stmts, ∀ c ∈ stmt.code.nodes, ¬ c.Hides name := by
  have hcheck : (match parse sheltered.code with
      | .ok p =>
        match (statements p).exec sheltered (Session.start.publish sheltered) with
        | (.ok _, _) =>
          let steps := (statements p).steps sheltered (Session.start.publish sheltered)
          shelteredNames.all (fun name => decide (Step.Apart name steps) &&
            (Step.flatten steps).all fun step => decide (step.Settles name)) &&
          ((p.all fun c => c.term.segments.all fun x => isIdentifier x.name.text) &&
            (Step.flatten steps).all Step.declaresNames)
        | _ => false
      | _ => false) = true := by
    decide +kernel
  split at hcheck
  · rename_i p hp
    split at hcheck
    · rename_i hexec
      simp only [List.all_eq_true, Bool.and_eq_true, decide_eq_true_eq] at hcheck
      obtain ⟨hnames, hsegments, hsteps⟩ := hcheck
      have htext := (compile_eq_ok_iff hp).2 ⟨_, _, hexec, rfl⟩
      obtain ⟨stmts, s', hstmts, -, hfree, hhides⟩ := locals_used_in_their_blocks htext hp
      have hhides := hhides hsegments (Step.everywhere_of_flatten hsteps) fun hpublish => by
        cases hpublish
      refine ⟨_, p, htext, hp, stmts, s', hstmts, fun name hname => ?_⟩
      have horderly :
          Orderly name ((statements p).steps sheltered (Session.start.publish sheltered)) :=
        ⟨(hnames name hname).1, Step.everywhere_of_flatten (hnames name hname).2⟩
      obtain ⟨surface, -, rfl⟩ := List.mem_map.1 hname
      exact ⟨horderly, hfree _ horderly, hhides _ (isMangled_mangle surface)⟩
    · cases hcheck
  · cases hcheck

/-- A function that is local to a block, and a call of it behind the block. -/
def escaping : Job :=
  ⟨.library, "test.crn", "(do (defn- f [] 1)) (f)"⟩

/-- A block has no layer of its own, so the call is accepted, and the name is free in it. -/
theorem local_used_behind_its_block :
    (parse escaping.code).toOption.bind (fun p =>
      ((statements p).exec escaping (Session.start.publish escaping)).1.toOption.map
        fun stmts => Code.freeAll (stmts.map Stmt.code)) = some [mangle "f"] := by
  decide +kernel

end Gen

end LispLua
