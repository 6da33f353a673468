import LispLua.Proofs.Lowering.Parts
import LispLua.Proofs.Lowering.Sound

/-!
# Definitions where a value is expected

A definition has no value. A body that ends with one runs it and returns unit, if it can tell the
definition by its name. It cannot tell one that sugar stands for, and the branches of `if` and
`when` are returned without a look at them. A definition is returned from these three places only.
-/

namespace LispLua

open Lua

namespace Lua.Code

/-- Whether code is that of a definition, which has no value. -/
def isDefinition : Code → Bool
  | assign _ _ | define _ _ | declareThen _ _ | load _ | loadAs _ _ | loadMembers _ _
  | moduleNote _ _ | externNote _ _ => true
  | _ => false

/-- The code that is written behind `return`. -/
def returned? : Code → Option Code
  | give _ c | branch _ c _ | arm _ c => some c
  | _ => none

/-- What is returned is not a definition. -/
def Valued (c : Code) : Prop :=
  ∀ d, c.returned? = some d → d.isDefinition = false

theorem isDefinition_reference (m : Meaning) (package : String) :
    (m.reference package).isDefinition = false := by
  cases m with
  | declared b =>
    unfold Meaning.reference Binding.reference
    dsimp only
    split <;> rfl
  | standard e => rfl

theorem isDefinition_of_accesses {segments : List Segment} {root c : Code}
    (h : Accesses segments root c) (hroot : root.isDefinition = false) :
    c.isDefinition = false := by
  cases h with
  | root => exact hroot
  | field => rfl
  | method => rfl

theorem isDefinition_powers (target : Target) {first : Code} {rest : List Code} (h : rest ≠ []) :
    (rest.foldl (Gen.power target) first).isDefinition = false := by
  obtain ⟨front, last, rfl⟩ := rest.eq_nil_or_concat.resolve_left h
  rw [List.concat_eq_append, List.foldl_append, List.foldl_cons, List.foldl_nil, Gen.power]
  split <;> rfl

theorem isDefinition_combine (op : Operator) (target : Target) {cs : List Code}
    (h : 2 ≤ cs.length) : (Gen.combine op target cs).isDefinition = false := by
  unfold Gen.combine
  split
  · rfl
  · split
    · rfl
    · rfl
    · exact isDefinition_powers target (List.ne_nil_of_length_pos (Nat.le_of_succ_le_succ h))
    · rfl

end Lua.Code

/-! ### Terms that are definitions -/

namespace Session

/-- A term is a definition: by the form of its name, or because it is sugar for one. -/
inductive Defines (s : Session) : Term → Prop
  | form {c : Call} {form : Form} : s.form? c = some form → form.isDefinition = true →
      s.Defines c.term
  | sugar {c : Call} {form : Form} {t : Term} : s.form? c = some form → form.Expands c t →
      s.Defines t → s.Defines c.term

/-- Whether the name of a call is that of a definition. -/
def definesOutright (s : Session) : Term → Bool
  | .call target args span => (s.form? ⟨target, args, span⟩).any Form.isDefinition
  | _ => false

/-- An index is not looked up through a special form. -/
theorem form?_indexed (s : Session) (c : Call) : s.form? c.indexed = none := by
  have hgetter : c.indexed.name? = some "list/get" ∨ c.indexed.name? = some "table/get" := by
    have hindexer : c.target.indexer.1 = "list/get" ∨ c.target.indexer.1 = "table/get" := by
      unfold Term.indexer
      split
      · split
        · exact .inl rfl
        · exact .inr rfl
      · exact .inl rfl
      · exact .inr rfl
    exact hindexer.imp (congrArg some) (congrArg some)
  have hplain : ∀ name, name = "list/get" ∨ name = "table/get" →
      (s.find? name).bind Meaning.form? = none := by
    intro name hname
    unfold find?
    split
    · rfl
    · rcases hname with rfl | rfl <;> decide
  rw [form?, meaning?, Option.bind_assoc]
  rcases hgetter with h | h
  · rw [h]
    exact hplain _ (.inl rfl)
  · rw [h]
    exact hplain _ (.inr rfl)

end Session

namespace Form.Expands

variable {form : Form} {c : Call} {t t' : Term}

theorem isSugar (h : form.Expands c t) : form.isSugar = true := by
  cases form <;> first | rfl | cases h

theorem isDefinition (h : form.Expands c t) : form.isDefinition = false := by
  cases form <;> first | rfl | cases h

theorem unique (h : form.Expands c t) (h' : form.Expands c t') : t = t' := by
  cases form <;> first | exact Except.ok.inj (h.symm.trans h') | cases h

end Form.Expands

/-- What the code of a fragment tells about it. -/
def Fragment.Tells (s : Session) (cs : List Code) : Fragment → Prop
  | .term t => ∀ c ∈ cs, c.isDefinition = true ↔ s.Defines t
  | .form name call => ∀ c ∈ cs, c.isDefinition = true ↔
      name.isDefinition = true ∨ ∃ t, name.Expands call t ∧ s.Defines t
  | .imports _ | .named _ _ _ _ _ => ∀ c ∈ cs, c.isDefinition = true
  | .closure _ _ => ∀ c ∈ cs, c.isDefinition = false
  | .values ts => cs.length = ts.length
  | _ => True

section

variable {P : Term → Prop} {job : Job} {s s' : Session} {u : List Step}

theorem Session.defines_iff {c : Call} : s.Defines c.term ↔ ∃ form, s.form? c = some form ∧
    (form.isDefinition = true ∨ ∃ t, form.Expands c t ∧ s.Defines t) := by
  constructor
  · intro h
    obtain ⟨target, args, span⟩ := c
    generalize ht : Call.term ⟨target, args, span⟩ = t at h
    cases h with
    | @form c form hform hdefinition =>
      cases c
      cases ht
      exact ⟨form, hform, .inl hdefinition⟩
    | @sugar c form t hform hexpands hdefines =>
      cases c
      cases ht
      exact ⟨form, hform, .inr ⟨t, hexpands, hdefines⟩⟩
  · rintro ⟨form, hform, hdefinition | ⟨t, hexpands, hdefines⟩⟩
    · exact .form hform hdefinition
    · exact .sugar hform hexpands hdefines

theorem Session.not_defines {c : Call} (h : s.form? c = none) : ¬ s.Defines c.term := by
  simp [defines_iff, h]

/-- The rules: the code of a term is that of a definition if and only if the term is one. -/
theorem Lowers.tells {f : Fragment} {cs : List Code} (h : Lowers P job f s cs u s') :
    f.Tells s cs := by
  have hvalue : ∀ {c : Code} {t : Term} {s : Session}, c.isDefinition = false →
      ¬ s.Defines t → ∀ d ∈ [c], d.isDefinition = true ↔ s.Defines t := by
    intro c t s hc ht
    refine List.forall_mem_singleton.2 ⟨fun h => ?_, fun h => absurd h ht⟩
    rw [hc] at h
    cases h
  have hplain : ∀ {t : Term} {s : Session}, (∀ c : Call, t ≠ c.term) → ¬ s.Defines t := by
    intro t s ht h
    cases h with
    | form => exact ht _ rfl
    | sugar => exact ht _ rfl
  induction h with
  | list | symbol | number | string | nameForm => exact hvalue rfl (hplain nofun)
  | @table _ escaped =>
    refine hvalue ?_ (hplain nofun)
    cases escaped <;> rfl
  | path _ _ _ haccesses =>
    refine hvalue ?_ (hplain nofun)
    exact Code.isDefinition_of_accesses haccesses (Code.isDefinition_reference _ _)
  | name => exact hvalue (Code.isDefinition_reference _ _) (hplain nofun)
  | indexed _ hform _ ih =>
    intro d hd
    rw [ih d hd]
    exact iff_of_false (Session.not_defines (Session.form?_indexed _ _)) (Session.not_defines hform)
  | self _ hform | reached _ hform | through _ hform => exact hvalue rfl (Session.not_defines hform)
  | special _ hform _ ih =>
    intro d hd
    rw [ih d hd, Session.defines_iff, hform]
    simp
  | valuesNil => rfl
  | valuesCons _ _ _ ih => exact congrArg Nat.succ ih
  | argsNil | argsForm | argsCons | keyQuoted | keyTerm | entriesNil | entriesLast | entriesCons
  | bodyNil | bodyLast | bodyCons | pairsNil | pairsCons | testsNil | testsAny | testsCons | armsNil
  | armsAny | armsList | armsTerm | clausesNil | clausesCons => trivial
  | importWhole | importNamed | importAs | importMembers => exact List.forall_mem_singleton.2 rfl
  | closureEmpty | closure => exact List.forall_mem_singleton.2 rfl
  | named =>
    refine List.forall_mem_singleton.2 ?_
    split <;> rfl
  | defineFunction _ _ _ ih | function _ _ _ ih | importModule _ ih =>
    exact fun d hd => iff_of_true (ih d hd) (.inl rfl)
  | defineValue | declare | nameModule =>
    exact List.forall_mem_singleton.2 (iff_of_true rfl (.inl rfl))
  | bindings | conditional | matching | matchingElse | block | loopCount | loopEach | loopPairs
  | attempt | handler | arguments | negation =>
    refine List.forall_mem_singleton.2 (iff_of_false nofun ?_)
    rintro (h | ⟨_, h, _⟩) <;> cases h
  | lambda _ _ ih =>
    refine fun d hd => iff_of_false (by simp [ih d hd]) ?_
    rintro (h | ⟨_, h, _⟩) <;> cases h
  | sugar hexpands _ ih =>
    intro d hd
    rw [ih d hd]
    constructor
    · exact fun h => .inr ⟨_, hexpands, h⟩
    · rintro (h | ⟨t, ht, h⟩)
      · rw [hexpands.isDefinition] at h
        cases h
      · rw [hexpands.unique ht]
        exact h
  | operator harity _ ih =>
    refine List.forall_mem_singleton.2 (iff_of_false ?_ ?_)
    · rw [Code.isDefinition_combine]
      · nofun
      · rw [List.length_map, ih]
        exact harity
    · rintro (h | ⟨_, h, _⟩) <;> cases h

/-- A call is lowered in a step of its own. -/
theorem Lowers.step_eq {c : Call} {cs : List Code} (h : Lowers P job (.term c.term) s cs u s') :
    ∃ v, u = [.call c s v] := by
  have hcall : ∀ {c' : Call}, Fragment.term c.term = .term c'.term → c = c' := by
    intro c' h
    cases c
    cases c'
    cases h
    rfl
  generalize ht : Fragment.term c.term = f at h
  cases h with
  | indexed | self | reached | through | special =>
    cases hcall ht
    exact ⟨_, rfl⟩
  | _ => cases ht

/-- Code of a definition comes from a call that is one. -/
theorem Lowers.defines {t : Term} {c : Code} (h : Lowers P job (.term t) s [c] u s')
    (hc : c.isDefinition = true) :
    ∃ call v, t = call.term ∧ u = [.call call s v] ∧ s.Defines t := by
  have hdefines := (h.tells c (by simp)).1 hc
  have hcall : ∃ call : Call, t = call.term := by
    cases hdefines with
    | form => exact ⟨_, rfl⟩
    | sugar => exact ⟨_, rfl⟩
  obtain ⟨call, rfl⟩ := hcall
  obtain ⟨v, rfl⟩ := h.step_eq
  exact ⟨call, v, rfl, rfl, hdefines⟩

end

/-! ### Terms that become returned values -/

/-- The values of the cases of a match, without fallbacks. -/
def Term.caseValues : List Term → List Term
  | left :: right :: rest =>
    if left.isName "_" then caseValues rest else right :: caseValues rest
  | _ => []

namespace Form

/-- The terms a form returns whatever they are. -/
def branches : Form → List Term → List Term
  | conditional, _ :: yes :: _ => [yes]
  | matching, _ :: cases => Term.caseValues cases
  | _, _ => []

/-- The last terms of the bodies of a form. -/
def lasts : Form → List Term → List Term
  | bindings, _ :: ts | lambda, _ :: ts | handler, _ :: ts => ts.getLast?.toList
  | define _, _ :: _ :: ts | function _ _, _ :: _ :: ts => ts.getLast?.toList
  | conditional, _ :: _ :: no => no.getLast?.toList
  | matching, _ :: cases => (Gen.fallback? cases).toList
  | block, ts => ts.getLast?.toList
  | attempt, ts =>
    (ts.filter fun t => !t.isCatch).getLast?.toList ++ (ts.filter Term.isCatch).getLast?.toList
  | _, _ => []

end Form

/-- Among some steps a definition is lowered that is one of some branches, or that is sugar and the
last term of a body. -/
def Misplaced (branches lasts : List Term) (steps : List Step) : Prop :=
  ∃ c s inner, Step.Occurs (.call c s inner) steps ∧ s.Defines c.term ∧
    (c.term ∈ branches ∨ c.term ∈ lasts ∧ (s.form? c).any Form.isSugar = true)

/-- A call has a definition where it returns a value without a look at it. -/
def Step.Misplaces : Step → Prop
  | .call c s inner =>
    ∃ form, s.form? c = some form ∧ Misplaced (form.branches c.args) (form.lasts c.args) inner
  | .layer _ _ => False

/-- No call misplaces a definition. -/
def Placed : List Step → Prop :=
  Step.Everywhere fun step => ¬ step.Misplaces

namespace Fragment

/-- The terms a fragment returns whatever they are. -/
def branches : Fragment → List Term
  | .arms _ ts => Term.caseValues ts
  | .form name c => name.branches c.args
  | _ => []

/-- The last terms of the bodies of a fragment. -/
def lasts : Fragment → List Term
  | .body ts | .closure _ ts | .named _ _ _ _ ts => ts.getLast?.toList
  | .form name c => name.lasts c.args
  | _ => []

/-- What is matched against cases does not return a definition. -/
def SubjectValued : Fragment → Prop
  | .tests subject _ _ | .arms subject _ => subject.Every Code.Valued
  | _ => True

/-- A fragment does not itself misplace a definition. -/
def Placed (f : Fragment) (steps : List Step) : Prop :=
  ¬ Misplaced f.branches f.lasts steps

end Fragment

theorem Misplaced.mono {branches branches' lasts lasts' : List Term} {u v : List Step}
    (h : Misplaced branches lasts u) (hbranches : branches ⊆ branches') (hlasts : lasts ⊆ lasts')
    (hu : Step.Everywhere (Step.Occurs · v) u) : Misplaced branches' lasts' v := by
  obtain ⟨c, s, inner, hoccurs, hdefines, hc⟩ := h
  exact ⟨c, s, inner, hu _ hoccurs, hdefines, hc.imp (hbranches ·) (.imp_left (hlasts ·))⟩

theorem Term.caseValues_subset (left right : Term) (ts : List Term) :
    caseValues ts ⊆ caseValues (left :: right :: ts) := by
  rw [caseValues]
  split
  · exact List.Subset.refl _
  · exact List.subset_cons_self _ _

/-- The body of a named function ends as what stands behind its formal arguments. -/
theorem Gen.lasts_body (rest : List Term) :
    (if isGlobal rest then rest.drop 1 else rest).getLast?.toList ⊆ rest.getLast?.toList := by
  split
  · cases rest with
    | nil => simp
    | cons t ts => cases ts <;> simp
  · exact List.Subset.refl _

/-- A fragment that returns nothing misplaces nothing. -/
theorem not_misplaced_nil {u : List Step} : ¬ Misplaced [] [] u := by
  rintro ⟨_, _, _, _, _, h | ⟨h, _⟩⟩ <;> cases h

theorem Step.everywhere_occurs (u : List Step) : Everywhere (Occurs · u) u :=
  fun _ h => h

theorem Gen.gives_isDefinition {job : Job} {s s' : Session} {u : List Step} {t : Term} {d : Bool} :
    (isDefinition t).Gives job s d u s' ↔ d = s.definesOutright t ∧ u = [] ∧ s' = s := by
  unfold isDefinition
  split
  · rw [gives_map]
    simp only [gives_find?]
    constructor
    · rintro ⟨m, ⟨rfl, rfl, rfl⟩, rfl⟩
      exact ⟨rfl, rfl, rfl⟩
    · rintro ⟨rfl, rfl, rfl⟩
      exact ⟨_, ⟨rfl, rfl, rfl⟩, rfl⟩
  · rename_i hname
    have hdefines : s.definesOutright t = false := by
      unfold Session.definesOutright
      split
      · rename_i target args span
        cases target with
        | name token => exact (hname token args span rfl).elim
        | _ => rfl
      · rfl
    rw [gives_pure, hdefines]

section

variable {P : Term → Prop} {job : Job} {s s' : Session} {u v : List Step}

/-- A branch that is not misplaced has a value. -/
theorem Lowers.isDefinition_branch {t : Term} {c : Code} {branches lasts : List Term}
    (h : Lowers P job (.term t) s [c] u s') (hplaced : ¬ Misplaced branches lasts v)
    (ht : t ∈ branches) (hu : Step.Everywhere (Step.Occurs · v) u) : c.isDefinition = false := by
  refine Bool.eq_false_iff.2 fun hc => ?_
  obtain ⟨call, inner, rfl, rfl, hdefines⟩ := h.defines hc
  exact hplaced ⟨call, s, inner, hu.head, hdefines, .inl ht⟩

/-- So has a last term that is not misplaced and not written as a definition. -/
theorem Lowers.isDefinition_last {t : Term} {c : Code} (h : Lowers P job (.term t) s [c] u s')
    (hplaced : ¬ Misplaced [] [t] u) (ht : s.definesOutright t = false) :
    c.isDefinition = false := by
  refine Bool.eq_false_iff.2 fun hc => ?_
  obtain ⟨call, inner, rfl, rfl, hdefines⟩ := h.defines hc
  obtain ⟨form, hform, hdefinition | ⟨t, hexpands, -⟩⟩ := Session.defines_iff.1 hdefines
  · have houtright : s.definesOutright call.term = form.isDefinition :=
      congrArg (Option.any Form.isDefinition) hform
    rw [houtright, hdefinition] at ht
    cases ht
  · refine hplaced ⟨call, s, inner, .mem (by simp), hdefines, .inr ⟨by simp, ?_⟩⟩
    rw [hform]
    exact hexpands.isSugar

theorem Lua.Code.joined_valued : Code.Joined (Code.Every Code.Valued) := by
  refine Code.joined_every fun c hc => ?_
  cases c <;> first | exact False.elim hc | nofun

/-- Code that writes nothing behind `return` itself is as good as its parts. -/
theorem Lua.Code.valued_node {c : Code} (h : c.returned? = none)
    (hparts : ∀ d ∈ c.parts, d.Every Code.Valued) : c.Every Code.Valued := by
  refine .intro ?_ hparts
  simp [Code.Valued, h]

theorem Lua.Code.valued_leaf {c : Code} (hc : c.parts = []) (hreturned : c.returned? = none) :
    c.Every Code.Valued :=
  valued_node hreturned (by simp [hc])

theorem Lua.Code.valued_reference (m : Meaning) (package : String) :
    (m.reference package).Every Code.Valued := by
  cases m with
  | declared b =>
    unfold Meaning.reference Binding.reference
    dsimp only
    split <;> exact valued_leaf rfl rfl
  | standard e => exact valued_leaf rfl rfl

theorem Lua.Code.valued_giveUnit : Gen.giveUnit.Every Code.Valued := by
  refine .intro ?_ (List.forall_mem_singleton.2 (valued_leaf rfl rfl))
  rintro d ⟨rfl⟩
  rfl

/-- The rules: if no call misplaces a definition, no definition is returned. -/
theorem Lowers.valued {f : Fragment} {cs : List Code} (h : Lowers P job f s cs u s') :
    f.Placed u → Placed u → f.SubjectValued → ∀ c ∈ cs, c.Every Code.Valued := by
  have hthunk : ∀ {c : Code}, c.Every Code.Valued →
      ∀ d ∈ [Code.thunk job.options.variadic c], d.Every Code.Valued :=
    fun hc => List.forall_mem_singleton.2 (Code.valued_node rfl (List.forall_mem_singleton.2 hc))
  have hlines : ∀ {cs : List Code}, (∀ c ∈ cs, c.Every Code.Valued) →
      (Code.lines cs).Every Code.Valued :=
    fun hcs => Code.joined_valued (.lines _) trivial hcs
  induction h with
  | list _ _ ih =>
    intro _ hu _
    exact List.forall_mem_singleton.2 (Code.valued_node rfl (ih not_misplaced_nil hu trivial))
  | @table _ escaped _ _ _ _ _ _ _ ih =>
    intro _ hu _
    have hcs := ih not_misplaced_nil hu trivial
    refine List.forall_mem_singleton.2 ?_
    cases escaped with
    | true => exact Code.valued_node rfl hcs
    | false => exact Code.valued_node rfl hcs
  | path _ _ _ haccesses =>
    intro _ _ _
    refine List.forall_mem_singleton.2 ?_
    exact Code.joined_valued.of_accesses haccesses (Code.valued_reference _ _)
  | name =>
    intro _ _ _
    exact List.forall_mem_singleton.2 (Code.valued_reference _ _)
  | nameForm | symbol | number | string | keyQuoted | declare | arguments =>
    intro _ _ _
    exact List.forall_mem_singleton.2 (Code.valued_leaf rfl rfl)
  | indexed _ _ _ ih =>
    intro _ hu _
    exact ih not_misplaced_nil hu.call trivial
  | self _ _ _ ih =>
    intro _ hu _
    refine List.forall_mem_singleton.2 (Code.valued_node rfl (List.forall_mem_cons.2 ⟨?_, ?_⟩))
    · exact Code.valued_leaf rfl rfl
    · exact ih not_misplaced_nil hu.call trivial
  | reached _ _ _ _ _ haccesses _ ih =>
    intro _ hu _
    refine List.forall_mem_singleton.2 (Code.valued_node rfl (List.forall_mem_cons.2 ⟨?_, ?_⟩))
    · exact Code.joined_valued.of_accesses haccesses (Code.valued_reference _ _)
    · exact ih not_misplaced_nil hu.call trivial
  | through _ _ _ _ _ _ ih =>
    intro _ hu _
    refine List.forall_mem_singleton.2 (Code.valued_node rfl (List.forall_mem_cons.2 ⟨?_, ?_⟩))
    · exact Code.valued_reference _ _
    · exact ih not_misplaced_nil hu.call trivial
  | special _ hform _ ih =>
    intro _ hu _
    exact ih (fun hmisplaced => hu.head ⟨_, hform, hmisplaced⟩) hu.call trivial
  | valuesNil | argsNil | bodyNil | entriesNil | testsNil | clausesNil | pairsNil | armsNil =>
    intro _ _ _
    simp
  | valuesCons _ _ ih ih' | argsCons _ _ ih ih' | clausesCons _ _ _ ih ih' =>
    intro _ hu _
    refine List.forall_mem_cons.2 ⟨?_, ih' not_misplaced_nil hu.right trivial⟩
    exact ih not_misplaced_nil hu.left trivial _ (by simp)
  | argsForm _ _ _ _ ih =>
    intro _ hu _
    exact List.forall_mem_cons.2 ⟨Code.valued_leaf rfl rfl, ih not_misplaced_nil hu trivial⟩
  | keyTerm _ ih =>
    intro _ hu _
    exact ih not_misplaced_nil hu trivial
  | entriesLast _ _ _ ih =>
    intro _ hu _
    have hc := ih not_misplaced_nil hu trivial
    refine List.forall_mem_singleton.2 (Code.valued_node rfl (List.forall_mem_cons.2 ⟨?_, ?_⟩))
    · exact hc _ (by simp)
    · exact List.forall_mem_singleton.2 (Code.valued_reference _ _)
  | entriesCons _ _ _ ih ih' ih'' =>
    intro _ hu _
    have hc := ih not_misplaced_nil hu.left trivial
    have hd := ih' not_misplaced_nil hu.right.left trivial
    have hcs := ih'' not_misplaced_nil hu.right.right trivial
    refine List.forall_mem_cons.2 ⟨Code.valued_node rfl ?_, hcs⟩
    exact List.forall_mem_cons.2 ⟨hc _ (by simp), hd⟩
  | @bodyLast _ _ definition _ _ _ _ hdefinition _ hlowers ih =>
    intro hplaced hu _
    have hc := ih not_misplaced_nil hu trivial
    cases definition with
    | true =>
      refine List.forall_mem_cons.2 ⟨Code.valued_node rfl hc, ?_⟩
      exact List.forall_mem_singleton.2 Code.valued_giveUnit
    | false =>
      refine List.forall_mem_singleton.2 (.intro ?_ hc)
      rintro d ⟨rfl⟩
      exact hlowers.isDefinition_last hplaced (Gen.gives_isDefinition.1 hdefinition).1.symm
  | bodyCons _ _ _ ih ih' =>
    intro hplaced hu _
    refine List.forall_mem_cons.2 ⟨Code.valued_node rfl (ih not_misplaced_nil hu.left trivial), ?_⟩
    refine ih' (fun h => hplaced (h.mono (List.nil_subset _) ?_ ?_)) hu.right trivial
    · simp [Fragment.lasts]
    · exact (Step.everywhere_occurs _).right
  | pairsCons _ hdestructs _ _ ih ih' =>
    intro _ hu _
    have hvalue := ih not_misplaced_nil hu.left trivial
    refine List.forall_mem_append.2 ⟨?_, ih' not_misplaced_nil hu.right trivial⟩
    refine Code.joined_valued.of_destructs (fun hpart => ?_) hdestructs (hvalue _ (by simp))
    exact Code.valued_node rfl (List.forall_mem_singleton.2 hpart)
  | testsAny _ ih =>
    intro _ hu hsubject
    exact ih not_misplaced_nil hu hsubject
  | testsCons _ _ ih ih' =>
    intro _ hu hsubject
    have hitem := Code.joined_valued.indexable hsubject
    refine List.forall_mem_cons.2 ⟨Code.valued_node rfl ?_, ih' not_misplaced_nil hu.right hsubject⟩
    refine List.forall_mem_cons.2 ⟨Code.valued_node rfl ?_, ih not_misplaced_nil hu.left trivial⟩
    exact List.forall_mem_singleton.2 hitem
  | armsAny _ ih =>
    intro hplaced hu hsubject
    exact ih (fun h => hplaced (h.mono (Term.caseValues_subset _ _ _) (List.nil_subset _)
      (Step.everywhere_occurs _))) hu hsubject
  | armsList hvalue _ _ ih ih' ih'' =>
    intro hplaced hu hsubject
    have hcs := ih'' (fun h => hplaced (h.mono (Term.caseValues_subset _ _ _) (List.nil_subset _)
      (Step.everywhere_occurs _).right.right)) hu.right.right hsubject
    have htests := ih' not_misplaced_nil hu.right.left hsubject
    refine List.forall_mem_cons.2 ⟨.intro ?_ ?_, hcs⟩
    · rintro d ⟨rfl⟩
      refine hvalue.isDefinition_branch hplaced ?_ (Step.everywhere_occurs _).left
      simp [Fragment.branches, Term.caseValues, Term.isName]
    · refine List.forall_mem_cons.2 ⟨Code.valued_node rfl ?_, ih not_misplaced_nil hu.left trivial⟩
      refine List.forall_mem_cons.2 ⟨Code.valued_node rfl ?_, htests⟩
      exact List.forall_mem_singleton.2 hsubject
  | armsTerm hleft hvalue _ _ ih ih' ih'' =>
    intro hplaced hu hsubject
    have hcs := ih'' (fun h => hplaced (h.mono (Term.caseValues_subset _ _ _) (List.nil_subset _)
      (Step.everywhere_occurs _).right.right)) hu.right.right hsubject
    refine List.forall_mem_cons.2 ⟨.intro ?_ ?_, hcs⟩
    · rintro d ⟨rfl⟩
      refine hvalue.isDefinition_branch hplaced ?_ (Step.everywhere_occurs _).left
      simp [Fragment.branches, Term.caseValues, hleft]
    · refine List.forall_mem_cons.2 ⟨Code.valued_node rfl ?_, ih not_misplaced_nil hu.left trivial⟩
      exact List.forall_mem_cons.2 ⟨hsubject, ih' not_misplaced_nil hu.right.left trivial⟩
  | importWhole _ ih | importAs _ ih | importMembers _ _ _ ih =>
    intro _ hu _
    exact List.forall_mem_singleton.2 (Code.valued_node rfl (ih not_misplaced_nil hu trivial))
  | importNamed =>
    intro _ _ _
    refine List.forall_mem_singleton.2 (Code.valued_node rfl (List.forall_mem_singleton.2 ?_))
    exact Code.valued_leaf rfl rfl
  | closureEmpty =>
    intro _ _ _
    refine List.forall_mem_singleton.2 (Code.valued_node rfl ?_)
    exact List.forall_mem_singleton.2 (hlines (List.forall_mem_singleton.2 Code.valued_giveUnit))
  | closure _ _ _ ih =>
    intro hplaced hu _
    refine List.forall_mem_singleton.2 (Code.valued_node rfl ?_)
    exact List.forall_mem_singleton.2 (hlines (ih hplaced hu trivial))
  | named _ _ _ ih =>
    intro hplaced hu _
    have hc := ih (fun h => hplaced (h.mono (List.nil_subset _) (Gen.lasts_body _)
      (Step.everywhere_occurs _).layer)) hu.layer trivial
    refine List.forall_mem_singleton.2 ?_
    split
    · exact Code.valued_node rfl hc
    · refine Code.valued_node rfl (List.forall_mem_cons.2 ⟨?_, hc⟩)
      exact Code.valued_reference (.declared _) _
  | defineFunction hargs _ _ ih | function hargs _ _ ih =>
    intro hplaced hu _
    rw [Fragment.Placed, Fragment.branches, Fragment.lasts, hargs] at hplaced
    exact ih hplaced hu trivial
  | defineValue _ _ _ _ ih =>
    intro _ hu _
    refine List.forall_mem_singleton.2 (Code.valued_node rfl (List.forall_mem_cons.2 ⟨?_, ?_⟩))
    · exact Code.valued_reference (.declared _) _
    · exact ih not_misplaced_nil hu trivial
  | importModule _ ih | sugar _ _ ih =>
    intro _ hu _
    exact ih not_misplaced_nil hu trivial
  | nameModule _ _ ih | negation _ _ ih =>
    intro _ hu _
    exact List.forall_mem_singleton.2 (Code.valued_node rfl (ih not_misplaced_nil hu trivial))
  | bindings hargs _ _ ih ih' =>
    intro hplaced hu _
    rw [Fragment.Placed, Fragment.branches, Fragment.lasts, hargs] at hplaced
    have hbs := ih not_misplaced_nil hu.layer.left trivial
    have hcs := ih' (fun h => hplaced (h.mono (List.nil_subset _) (List.Subset.refl _)
      (Step.everywhere_occurs _).layer.right)) hu.layer.right trivial
    refine hthunk (Code.valued_node rfl (List.forall_mem_append.2 ⟨hbs, ?_⟩))
    exact List.forall_mem_singleton.2 (hlines hcs)
  | conditional hargs _ hyes _ ih ih' ih'' =>
    intro hplaced hu _
    rw [Fragment.Placed, Fragment.branches, Fragment.lasts, hargs] at hplaced
    have htest := ih not_misplaced_nil hu.left trivial
    have hbranch := ih' not_misplaced_nil hu.right.left trivial
    have hcs := ih'' (fun h => hplaced (h.mono (List.nil_subset _) (List.Subset.refl _)
      (Step.everywhere_occurs _).right.right)) hu.right.right trivial
    refine hthunk (.intro ?_ ?_)
    · rintro d ⟨rfl⟩
      exact hyes.isDefinition_branch hplaced (List.mem_cons_self ..)
        (Step.everywhere_occurs _).right.left
    · refine List.forall_mem_cons.2 ⟨htest _ (by simp), ?_⟩
      refine List.forall_mem_cons.2 ⟨hbranch _ (by simp), ?_⟩
      exact List.forall_mem_singleton.2 (hlines hcs)
  | matching hargs _ _ _ ih ih' =>
    intro hplaced hu _
    rw [Fragment.Placed, Fragment.branches, Fragment.lasts, hargs] at hplaced
    have hsubject := ih not_misplaced_nil hu.left trivial
    have hcs := ih' (fun h => hplaced (h.mono (List.Subset.refl _) (List.nil_subset _)
      (Step.everywhere_occurs _).right)) hu.right (hsubject _ (by simp))
    exact hthunk (Code.joined_valued.choice hcs (by simp))
  | matchingElse hargs hlast _ _ _ ih ih' ih'' =>
    intro hplaced hu _
    rw [Fragment.Placed, Fragment.branches, Fragment.lasts, hargs] at hplaced
    have hsubject := ih not_misplaced_nil hu.left trivial
    have hcs := ih' (fun h => hplaced (h.mono (List.Subset.refl _) (List.nil_subset _)
      (Step.everywhere_occurs _).right.left)) hu.right.left (hsubject _ (by simp))
    have hds := ih'' (fun h => hplaced (h.mono (List.nil_subset _) ?_
      (Step.everywhere_occurs _).right.right)) hu.right.right trivial
    · exact hthunk (Code.joined_valued.choice hcs (by simpa using hds))
    · simp [Fragment.lasts, Form.lasts, hlast]
  | block _ ih =>
    intro hplaced hu _
    exact hthunk (hlines (ih hplaced hu trivial))
  | loopCount _ _ _ ih ih' =>
    intro _ hu _
    have hbs := ih not_misplaced_nil hu.layer.left trivial
    have hcs := ih' not_misplaced_nil hu.layer.right trivial
    exact hthunk (Code.valued_node rfl (List.forall_mem_append.2 ⟨hbs, hcs⟩))
  | loopEach _ _ _ ih ih' | loopPairs _ _ _ ih ih' =>
    intro _ hu _
    have hsource := ih not_misplaced_nil hu.layer.left trivial
    have hcs := ih' not_misplaced_nil hu.layer.right trivial
    exact hthunk (Code.valued_node rfl (List.forall_mem_cons.2 ⟨hsource _ (by simp), hcs⟩))
  | lambda hargs _ ih =>
    intro hplaced hu _
    rw [Fragment.Placed, Fragment.branches, Fragment.lasts, hargs] at hplaced
    exact ih (fun h => hplaced (h.mono (List.nil_subset _) (List.Subset.refl _)
      (Step.everywhere_occurs _).layer)) hu.layer trivial
  | attempt _ _ ih ih' =>
    intro hplaced hu _
    have hcs := ih (fun h => hplaced (h.mono (List.nil_subset _) (List.subset_append_left _ _)
      (Step.everywhere_occurs _).left)) hu.left trivial
    have hds := ih' (fun h => hplaced (h.mono (List.nil_subset _) (List.subset_append_right _ _)
      (Step.everywhere_occurs _).right)) hu.right trivial
    refine hthunk (Code.valued_node rfl (List.forall_mem_cons.2 ⟨hlines hcs, ?_⟩))
    exact List.forall_mem_singleton.2 (hlines hds)
  | handler hargs _ ih =>
    intro hplaced hu _
    rw [Fragment.Placed, Fragment.branches, Fragment.lasts, hargs] at hplaced
    have hcs := ih (fun h => hplaced (h.mono (List.nil_subset _) (List.Subset.refl _)
      (Step.everywhere_occurs _).layer)) hu.layer trivial
    refine List.forall_mem_singleton.2 (Code.valued_node rfl ?_)
    exact List.forall_mem_singleton.2 (hlines hcs)
  | operator _ _ ih =>
    intro _ hu _
    have hcs := ih not_misplaced_nil hu trivial
    refine List.forall_mem_singleton.2 (Code.joined_valued.combine _ _ fun c hc => ?_)
    obtain ⟨d, hd, rfl⟩ := List.mem_map.1 hc
    exact Code.joined_valued.operand (hcs d hd)

end

namespace Gen

/-- A body that is not empty ends with its last term: with its code and the return of unit if the
term is written as a definition, and with the return of its code if not. -/
theorem gives_body_append {job : Job} {lower : Lower} {t : Term} : ∀ {ts : List Term}
    {s s' : Session} {cs : List Code} {u : List Step},
    (body lower (ts ++ [t])).Gives job s cs u s' →
      ∃ init s₁ stmt v, (lower t).Gives job s₁ stmt v s' ∧
        cs = init ++ if s₁.definesOutright t then [.run stmt.separated stmt.code, giveUnit]
          else [.give stmt.separated stmt.code]
  | [], s, _, _, _, h => by
    obtain ⟨definition, _, s₁, _, hdefinition, hrest, rfl⟩ := gives_bind.1 h
    obtain ⟨rfl, rfl, rfl⟩ := gives_isDefinition.1 hdefinition
    obtain ⟨stmt, hstmt, rfl⟩ := gives_map.1 hrest
    exact ⟨[], s₁, stmt, _, hstmt, rfl⟩
  | [t'], _, _, _, _, h | t' :: _ :: _, _, _, _, _, h => by
    obtain ⟨stmt, _, s₁, _, -, hrest, rfl⟩ := gives_bind.1 h
    obtain ⟨cs, hcs, rfl⟩ := gives_map.1 hrest
    obtain ⟨init, s₂, last, v, hlast, rfl⟩ := gives_body_append hcs
    exact ⟨.run stmt.separated stmt.code :: init, s₂, last, v, hlast, rfl⟩

/-- A body runs a last term that is written as a definition and returns unit. In an accepted source
a definition is returned only where a call has one as the value of a branch, or has sugar for one at
the end of a body. -/
theorem definition_returned_only_if_misplaced {source sourceName text : String} {options : Options}
    (h : (compile source sourceName options).1 = .ok text) {p : Program}
    (hp : parse source = .ok p) :
    (∀ ts t s s' cs u, (body term (ts ++ [t])).Gives ⟨options, sourceName, source⟩ s cs u s' →
      ∃ init s₁ stmt v, (term t).Gives ⟨options, sourceName, source⟩ s₁ stmt v s' ∧
        (stmt.code.isDefinition = true ↔ s₁.Defines t) ∧
        cs = init ++ if s₁.definesOutright t then [.run stmt.separated stmt.code, giveUnit]
          else [.give stmt.separated stmt.code]) ∧
    ∃ stmts s', (statements p).exec ⟨options, sourceName, source⟩
        (Session.start.publish ⟨options, sourceName, source⟩) = (.ok stmts, s') ∧
      text = (Chunk.mk options s'.package stmts).render ∧
      ((∃ stmt ∈ stmts, ∃ c ∈ stmt.code.nodes, ∃ d, c.returned? = some d ∧ d.isDefinition = true) →
        ∃ step : Step, step.Occurs ((statements p).steps ⟨options, sourceName, source⟩
          (Session.start.publish ⟨options, sourceName, source⟩)) ∧ step.Misplaces) := by
  constructor
  · intro ts t s s' cs u hbody
    obtain ⟨init, s₁, stmt, v, hstmt, hcs⟩ := gives_body_append hbody
    have hlowers := (lowers_term hereditary_true trivial hstmt).1
    exact ⟨init, s₁, stmt, v, hstmt, hlowers.tells _ (by simp), hcs⟩
  · obtain ⟨stmts, s', hexec, rfl⟩ := (compile_eq_ok_iff hp).1 h
    refine ⟨stmts, s', hexec, rfl, ?_⟩
    rintro ⟨stmt, hstmt, c, hc, d, hreturned, hdefinition⟩
    refine Classical.byContradiction fun hnone => ?_
    have hplaced : Placed ((statements p).steps ⟨options, sourceName, source⟩
        (Session.start.publish ⟨options, sourceName, source⟩)) :=
      fun step hstep hmisplaces => hnone ⟨step, hstep, hmisplaces⟩
    have hlowers := lowers_statements hereditary_true (fun _ _ => trivial)
      (gives_iff.2 ⟨hexec, rfl⟩)
    have hvalued := hlowers.valued not_misplaced_nil hplaced trivial stmt.code
      (List.mem_map_of_mem hstmt) c hc d hreturned
    rw [hdefinition] at hvalued
    cases hvalued

/-- A body and a branch behind `else` that end with a definition, and a branch behind `then` that is
one. -/
def settled : Job :=
  ⟨.script, "test.crn", "(do 1 (def x 2)) (if x (def y 3) (def z 4))"⟩

theorem definition_returned_only_if_misplaced_branch :
    ∃ text p stmts s', (compile settled.code settled.sourceName settled.options).1 = .ok text ∧
      parse settled.code = .ok p ∧
      (statements p).exec settled (Session.start.publish settled) = (.ok stmts, s') ∧
      (∃ stmt ∈ stmts, ∃ c ∈ stmt.code.nodes, ∃ d, c.returned? = some d ∧ d.isDefinition = true) ∧
      ∃ step : Step, step.Occurs ((statements p).steps settled (Session.start.publish settled)) ∧
        step.Misplaces := by
  have hcheck : (match parse settled.code with
      | .ok p =>
        match (statements p).exec settled (Session.start.publish settled) with
        | (.ok stmts, _) => stmts.any fun stmt => stmt.code.nodes.any fun c =>
            c.returned?.any Code.isDefinition
        | _ => false
      | _ => false) = true := by
    decide +kernel
  split at hcheck
  · rename_i p hp
    split at hcheck
    · rename_i stmts s' hexec
      have hreturned : ∃ stmt ∈ stmts, ∃ c ∈ stmt.code.nodes, ∃ d, c.returned? = some d ∧
          d.isDefinition = true := by
        simpa [List.any_eq_true, Option.any_eq_true] using hcheck
      have htext := (compile_eq_ok_iff hp).2 ⟨_, _, hexec, rfl⟩
      obtain ⟨-, stmts', s'', hexec', -, hmisplaced⟩ :=
        definition_returned_only_if_misplaced htext hp
      cases hexec.symm.trans hexec'
      exact ⟨_, p, stmts, s', htext, hp, hexec, hreturned, hmisplaced hreturned⟩
    · cases hcheck
  · cases hcheck

/-- Whether a definition is returned in the code of a source, if the source is accepted. -/
def returnsDefinition? (job : Job) : Option Bool := do
  let p ← (parse job.code).toOption
  let stmts ← ((statements p).exec job (Session.start.publish job)).1.toOption
  return stmts.any fun stmt => stmt.code.nodes.any fun c => c.returned?.any Code.isDefinition

/-- A definition as a branch of `if`, as a branch of `when`, and as what sugar at the end of a body
stands for. -/
def returning : List Job :=
  ["(if 1 (def x 2))", "(when 1 2 (def x 1))", "(do (-> x (def 1)))"].map (⟨.script, "test.crn", ·⟩)

/-- All three are accepted, and the definition is returned. -/
theorem misplaced_definitions_returned :
    returning.map returnsDefinition? = [some true, some true, some true] := by
  decide +kernel

end Gen

end LispLua
