import LispLua.Proofs.Lowering.Parts
import LispLua.Proofs.Lowering.Passage
import LispLua.Proofs.Lowering.Sound
import LispLua.Proofs.Operators.Meaning

/-!
# The package table

All that a program declares in its package is written to one table and read from it. If the package
is published, the table has the name of the module, and a program can give that name at any place.
What is emitted before is not written anew, so the table is one and the same only if the package is
still without names when its table gets another name.
-/

namespace LispLua

open Lua

open Session (Later Leads)

/-- A member of a table is accounted for by some names: it is a name of the package and is reached
through the table `table`, or a name of every package and is reached through the environment. -/
def Lua.Code.Accounted (names : List (String × Binding)) (table : String) : Code → Prop
  | .member owner key =>
    owner = table ∧ (∃ b, (key, b) ∈ names ∧ b.reach = .package) ∨
      owner = "_G" ∧ ∃ e ∈ names, e.2.reach = .everywhere ∧ e.2.emitted = key
  | _ => True

variable {names : List (String × Binding)} {table : String} {P : Term → Prop} {job : Job}
  {s s' s₁ : Session} {u v : List Step} {given cs ds : List Code}

/-- A session whose root has some names at most, and whose package, if there is anything in it, has
the table `table`. -/
structure Session.Within (names : List (String × Binding)) (table : String) (s : Session) :
    Prop where
  root : s.scope.root ⊆ names
  package : s.hasPackage = true → s.package = table

theorem Session.Within.before (h : s'.Within names table) (hs : Leads s s') :
    s.Within names table :=
  ⟨List.Subset.trans hs.root h.root, fun hpackage =>
    (hs.package hpackage).symm.trans (h.package (hs.hasPackage hpackage))⟩

/-! ### References -/

theorem Lua.Code.accounted_leaf {c : Code} (hc : c.Accounted names table) (hparts : c.parts = []) :
    c.Every (Code.Accounted names table) :=
  .intro hc (by simp [hparts])

/-- A binding that is local to a block, or stands at the root under its own name, is referred to
through the table. -/
theorem accounted_binding {b : Binding} (hs : s.Within names table)
    (hb : b.reach ≠ .block → (b.surface, b) ∈ s.scope.root) :
    (b.reference s.package).Every (Code.Accounted names table) := by
  unfold Binding.reference
  cases hreach : b.reach with
  | block => exact Code.accounted_leaf trivial rfl
  | package =>
    have hmem := hb (by rw [hreach]; decide)
    have htable := hs.package (Session.hasPackage_of_mem hmem hreach)
    exact Code.accounted_leaf (.inl ⟨htable, b, hs.root hmem, hreach⟩) rfl
  | everywhere =>
    have hmem := hb (by rw [hreach]; decide)
    exact Code.accounted_leaf (.inr ⟨rfl, _, hs.root hmem, hreach, rfl⟩) rfl

/-- So is what a name referred to in an earlier session. -/
theorem accounted_reference {name : String} {m : Meaning} (hs : s.Proper) (hlater : Later s s')
    (hs' : s'.Within names table) (hfind : s.find? name = some m) :
    (m.reference s'.package).Every (Code.Accounted names table) := by
  cases m with
  | standard e => exact Code.accounted_leaf trivial rfl
  | declared b =>
    have hget : s.scope.get? name = some b := by
      unfold Session.find? at hfind
      split at hfind
      · rename_i b' hb
        cases hfind
        exact hb
      · cases hfound : Standard.find? name <;> simp [hfound] at hfind
    refine accounted_binding hs' fun hreach => ?_
    have hmem := Session.mem_root_of_get? hs hget hreach
    rw [hs.root _ hmem]
    exact hlater.leads.root hmem

theorem glued_accounted (names : List (String × Binding)) (table : String) :
    Code.Glued (Code.Every (Code.Accounted names table)) := by
  refine Code.glued_every fun c hc => ?_
  cases c with
  | member => cases hc
  | _ => trivial

/-! ### The rules -/

/-- From one session to a later one some codes are made, from given ones, all of whose members are
accounted for. -/
def Yields (names : List (String × Binding)) (table : String) (s s' : Session)
    (given cs : List Code) : Prop :=
  s.Proper → Later s s' ∧ (s'.Within names table →
    (∀ c ∈ given, c.Every (Code.Accounted names table)) →
    ∀ c ∈ cs, c.Every (Code.Accounted names table))

namespace Yields

theorem nil (s : Session) (given : List Code) : Yields names table s s given [] :=
  fun _ => ⟨.refl s, fun _ _ => by simp⟩

theorem append (h : Yields names table s s₁ given cs) (h' : Yields names table s₁ s' given ds) :
    Yields names table s s' given (cs ++ ds) := by
  intro hs
  obtain ⟨hlater, hcs⟩ := h hs
  obtain ⟨hlater', hds⟩ := h' (hlater.proper hs)
  refine ⟨hlater.trans hlater', fun hwithin hgiven => List.forall_mem_append.2 ⟨?_, ?_⟩⟩
  · exact hcs (hwithin.before hlater'.leads) hgiven
  · exact hds hwithin hgiven

theorem cons {c : Code} (h : Yields names table s s₁ given [c])
    (h' : Yields names table s₁ s' given cs) : Yields names table s s' given (c :: cs) :=
  h.append h'

/-- Codes that are made are given to what comes behind. -/
theorem hand (h : Yields names table s s₁ [] cs) (h' : Yields names table s₁ s' cs ds) :
    Yields names table s s' [] ds := by
  intro hs
  obtain ⟨hlater, hcs⟩ := h hs
  obtain ⟨hlater', hds⟩ := h' (hlater.proper hs)
  refine ⟨hlater.trans hlater', fun hwithin hgiven => hds hwithin ?_⟩
  exact hcs (hwithin.before hlater'.leads) hgiven

theorem ungiven (h : Yields names table s s' [] cs) : Yields names table s s' given cs := by
  intro hs
  obtain ⟨hlater, hcs⟩ := h hs
  exact ⟨hlater, fun hwithin _ => hcs hwithin (by simp)⟩

/-- Other code is made from some codes, with what the sessions tell. -/
theorem build (h : Yields names table s s' given cs)
    (hbuild : s.Proper → Later s s' → s'.Within names table →
      (∀ c ∈ given, c.Every (Code.Accounted names table)) →
      (∀ c ∈ cs, c.Every (Code.Accounted names table)) →
      ∀ d ∈ ds, d.Every (Code.Accounted names table)) : Yields names table s s' given ds := by
  intro hs
  obtain ⟨hlater, hcs⟩ := h hs
  exact ⟨hlater, fun hwithin hgiven => hbuild hs hlater hwithin hgiven (hcs hwithin hgiven)⟩

/-- Code whose parts are some codes. -/
theorem node {c : Code} (h : Yields names table s s' given c.parts)
    (hc : c.Accounted names table) : Yields names table s s' given [c] :=
  h.build fun _ _ _ _ hparts => List.forall_mem_singleton.2 (.intro hc hparts)

/-- Code that refers to what a name means, and other code that this is joined to. -/
theorem reference {name : String} {m : Meaning} {c : Code} (hfind : s.find? name = some m)
    (hc : (m.reference s.package).Every (Code.Accounted names table) →
      c.Every (Code.Accounted names table)) : Yields names table s s given [c] := by
  refine (nil s given).build fun hs hlater hwithin _ _ => List.forall_mem_singleton.2 (hc ?_)
  exact accounted_reference hs hlater hwithin hfind

theorem after (hlater : Later s s₁) (h : Yields names table s₁ s' given cs) :
    Yields names table s s' given cs := by
  intro hs
  obtain ⟨hlater', hcs⟩ := h (hlater.proper hs)
  exact ⟨hlater.trans hlater', hcs⟩

theorem before (h : Yields names table s s₁ given cs) (hlater : Later s₁ s') :
    Yields names table s s' given cs := by
  intro hs
  obtain ⟨hlater', hcs⟩ := h hs
  exact ⟨hlater'.trans hlater, fun hwithin => hcs (hwithin.before hlater.leads)⟩

theorem inLayer {pure? : Option Bool} (h : Yields names table (s.enter pure?) s₁ given cs) :
    Yields names table s s₁.leave given cs :=
  after (.enter s pure?) (h.before (.leave s₁))

end Yields

namespace Session

theorem Later.withLocal (s : Session) (t : Token) : Later s (s.withLocal t) :=
  .set s rfl rfl

theorem Later.withExtern (s : Session) (kind : Kind) (everywhere : Bool) (t : Token) :
    Later s (s.withExtern kind everywhere t) := by
  cases everywhere with
  | true => exact .setRoot s rfl
  | false => exact .set s rfl rfl

theorem Later.externs (kind : Kind) (everywhere : Bool) (tokens : List Token) (s : Session) :
    Later s (tokens.foldl (Session.withExtern · kind everywhere ·) s) := by
  induction tokens generalizing s with
  | nil => exact .refl s
  | cons t tokens ih => exact (Later.withExtern s kind everywhere t).trans (ih _)

theorem Binds.later {names : List String} (h : s.Binds names s') : Later s s' := by
  induction h with
  | nil => exact .refl _
  | cons t _ ih => exact (Later.withLocal _ t).trans ih

theorem Destructs.later {value : Code} {bs : List Code} (h : s.Destructs value bs s') :
    Later s s' := by
  induction h with
  | nil => exact .refl _
  | cons t _ _ ih => exact (Later.withLocal _ t).trans ih

/-- A declared name stands at the root under its own name, or is local to a block. -/
theorem mem_root_of_register {t : Token} {kind : Kind} {reach : Reach} {preserve : Bool}
    {b : Binding} (h : s.register t kind reach preserve = .ok (b, s')) (hb : b.reach ≠ .block) :
    (b.surface, b) ∈ s'.scope.root := by
  obtain ⟨rfl, ⟨rfl, rfl⟩ | ⟨-, rfl⟩⟩ := register_cases h
  · exact absurd rfl hb
  · exact List.mem_cons_self ..

end Session

namespace Fragment

/-- The codes a fragment compares with. -/
def subjects : Fragment → List Code
  | .tests subject _ _ | .arms subject _ => [subject]
  | _ => []

/-- A fragment that names the module keeps the table of a package with names. -/
def Keeps (job : Job) (s : Session) : Fragment → Prop
  | .form .nameModule c => ∀ t ts, c.args = .name t :: ts → s.hasPackage = true →
      job.options.publish = true → publishedPackage t.text = s.package
  | _ => True

end Fragment

theorem keeps_form {form : Form} {c : Call} (hform : s.form? c = some form)
    (h : Unsplit job [.call c s u]) : (Fragment.form form c).Keeps job s := by
  cases form with
  | nameModule => exact fun t ts hargs hs hpublish => h.published_eq hform hargs hs hpublish
  | _ => trivial

/-- The rules: nothing that is declared gets lost, and all members of tables are accounted for. -/
theorem Lowers.yields {f : Fragment} (h : Lowers P job f s cs u s') :
    f.Keeps job s → Unsplit job u → Yields names table s s' f.subjects cs := by
  have hglue := glued_accounted names table
  have hlines : ∀ {cs : List Code}, (∀ c ∈ cs, c.Every (Code.Accounted names table)) →
      (Code.lines cs).Every (Code.Accounted names table) := fun hcs => .intro trivial hcs
  have hunit : Gen.giveUnit.Every (Code.Accounted names table) :=
    .intro trivial (List.forall_mem_singleton.2 (Code.accounted_leaf trivial rfl))
  have hthunk : ∀ {variadic : Bool} {c : Code}, c.Every (Code.Accounted names table) →
      ∀ d ∈ [Code.thunk variadic c], d.Every (Code.Accounted names table) := fun hc =>
    List.forall_mem_singleton.2 (.intro trivial (List.forall_mem_singleton.2 hc))
  induction h with
  | list _ _ ih =>
    intro _ hu
    exact .node (ih trivial hu) trivial
  | @table _ escaped _ _ _ _ _ _ _ ih =>
    intro _ hu
    cases escaped with
    | true => exact .node (ih trivial hu) trivial
    | false => exact .node (ih trivial hu) trivial
  | path _ hfind _ haccesses =>
    intro _ _
    exact .reference hfind (hglue.joined.of_accesses haccesses)
  | name _ hfind _ =>
    intro _ _
    exact .reference hfind id
  | nameForm | symbol | number | string | keyQuoted | arguments =>
    intro _ _
    exact .node (.nil _ _) trivial
  | indexed _ _ _ ih =>
    intro _ hu
    exact ih trivial hu.call
  | self _ _ _ ih =>
    intro _ hu
    refine (ih trivial hu.call).build fun _ _ _ _ hcs => List.forall_mem_singleton.2 ?_
    exact .intro trivial (List.forall_mem_cons.2 ⟨Code.accounted_leaf trivial rfl, hcs⟩)
  | reached _ _ _ hfind _ haccesses _ ih =>
    intro _ hu
    have hcallee := hglue.joined.of_accesses haccesses
    exact .node (.cons (.reference hfind hcallee) (ih trivial hu.call)) trivial
  | through _ _ _ hfind _ _ ih =>
    intro _ hu
    refine (ih trivial hu.call).build fun hs hlater hwithin _ hcs => List.forall_mem_singleton.2 ?_
    have hcallee := accounted_reference hs hlater hwithin hfind
    exact .intro trivial (List.forall_mem_cons.2 ⟨hcallee, hcs⟩)
  | special _ hform _ ih =>
    intro _ hu
    exact ih (keeps_form hform hu) hu.call
  | valuesNil | argsNil | bodyNil | entriesNil | testsNil | clausesNil | pairsNil | armsNil =>
    intro _ _
    exact .nil _ _
  | valuesCons _ _ ih ih' | argsCons _ _ ih ih' | clausesCons _ _ _ ih ih' =>
    intro _ hu
    exact (ih trivial hu.left).append (ih' trivial hu.right)
  | argsForm _ _ _ _ ih =>
    intro _ hu
    refine (ih trivial hu).build fun _ _ _ _ hcs => List.forall_mem_cons.2 ⟨?_, hcs⟩
    exact Code.accounted_leaf trivial rfl
  | keyTerm _ ih | importModule _ ih | sugar _ _ ih =>
    intro _ hu
    exact ih trivial hu
  | entriesLast _ hfind _ ih =>
    intro _ hu
    exact .node ((ih trivial hu).append (.reference hfind id)) trivial
  | entriesCons _ _ _ ih ih' ih'' =>
    intro _ hu
    have hentry := (ih trivial hu.left).append (ih' trivial hu.right.left)
    exact .cons (.node hentry trivial) (ih'' trivial hu.right.right)
  | @bodyLast _ _ definition _ _ _ _ _ _ _ ih =>
    intro _ hu
    cases definition with
    | true =>
      refine (ih trivial hu).build fun _ _ _ _ hc => List.forall_mem_cons.2 ⟨?_, ?_⟩
      · exact .intro trivial hc
      · exact List.forall_mem_singleton.2 hunit
    | false => exact .node (ih trivial hu) trivial
  | bodyCons _ _ _ ih ih' =>
    intro _ hu
    exact .cons (.node (ih trivial hu.left) trivial) (ih' trivial hu.right)
  | pairsCons _ hdestructs _ _ ih ih' =>
    intro _ hu
    have hparts := (ih trivial hu.left).build fun _ _ _ _ hc =>
      hglue.joined.of_destructs (fun hpart => .intro trivial (List.forall_mem_singleton.2 hpart))
        hdestructs (hc _ (by simp))
    exact (hparts.before hdestructs.later).append (ih' trivial hu.right)
  | testsAny _ ih =>
    intro _ hu
    exact ih trivial hu
  | testsCons _ _ ih ih' =>
    intro _ hu
    refine .cons ((ih trivial hu.left).ungiven.build fun _ _ _ hsubject hc => ?_)
      (ih' trivial hu.right)
    have hitem := hglue.joined.indexable (hsubject _ (List.mem_singleton_self _))
    refine List.forall_mem_singleton.2 (.intro trivial (List.forall_mem_cons.2 ⟨?_, hc⟩))
    exact .intro trivial (List.forall_mem_singleton.2 hitem)
  | armsAny _ ih =>
    intro _ hu
    exact .after (.withLog _ _) (ih trivial hu)
  | armsList _ _ _ ih ih' ih'' =>
    intro _ hu
    have hpieces := (ih trivial hu.left).ungiven.append (ih' trivial hu.right.left)
    refine .cons (hpieces.build fun _ _ _ hsubject h => ?_) (ih'' trivial hu.right.right)
    obtain ⟨hvalue, htests⟩ := List.forall_mem_append.1 h
    refine List.forall_mem_singleton.2 (.intro trivial (List.forall_mem_cons.2 ⟨?_, hvalue⟩))
    refine .intro trivial (List.forall_mem_cons.2 ⟨?_, htests⟩)
    exact .intro trivial hsubject
  | armsTerm _ _ _ _ ih ih' ih'' =>
    intro _ hu
    have hpieces := (ih trivial hu.left).append (ih' trivial hu.right.left)
    refine .cons (hpieces.ungiven.build fun _ _ _ hsubject h => ?_) (ih'' trivial hu.right.right)
    obtain ⟨hvalue, hc⟩ := List.forall_mem_append.1 h
    refine List.forall_mem_singleton.2 (.intro trivial (List.forall_mem_cons.2 ⟨?_, hvalue⟩))
    exact .intro trivial (List.forall_mem_append.2 ⟨hsubject, hc⟩)
  | importWhole _ ih =>
    intro _ hu
    exact .node (ih trivial hu) trivial
  | importNamed =>
    intro _ _
    exact .node (.node (.nil _ _) trivial) trivial
  | importAs _ ih =>
    intro _ hu
    exact .before (.node (ih trivial hu) trivial) (.withLocal _ _)
  | importMembers _ hbinds _ ih =>
    intro _ hu
    exact .before (.node (ih trivial hu) trivial) hbinds.later
  | closureEmpty hbinds =>
    intro _ _
    refine .after hbinds.later ((Yields.nil _ _).build fun _ _ _ _ _ => ?_)
    refine List.forall_mem_singleton.2 (.intro trivial (List.forall_mem_singleton.2 ?_))
    exact hlines (List.forall_mem_singleton.2 hunit)
  | closure hbinds _ _ ih =>
    intro _ hu
    exact .after hbinds.later (.node (.node (ih trivial hu) trivial) trivial)
  | named hregister hlog _ ih =>
    intro _ hu
    subst hlog
    refine .after (.register hregister) (.after (.withLog _ _) (.inLayer
      ((ih trivial hu.layer).build fun _ hlater hwithin _ hc => ?_)))
    refine List.forall_mem_singleton.2 ?_
    split
    · exact .intro trivial hc
    · refine .intro trivial (List.forall_mem_cons.2 ⟨accounted_binding hwithin fun hb => ?_, hc⟩)
      have hmem := Session.mem_root_of_register hregister hb
      exact hlater.leads.root hmem
  | defineFunction _ _ _ ih | function _ _ _ ih =>
    intro _ hu
    exact ih trivial hu
  | defineValue _ _ _ hregister ih =>
    intro _ hu
    refine ((ih trivial hu).before (.register hregister)).build fun _ _ hwithin _ hc => ?_
    refine List.forall_mem_singleton.2 (.intro trivial (List.forall_mem_cons.2 ⟨?_, hc⟩))
    exact accounted_binding hwithin (Session.mem_root_of_register hregister)
  | declare _ _ _ heq =>
    intro _ _
    subst heq
    exact .before (.node (.nil _ _) trivial) (.externs _ _ _ _)
  | nameModule hargs _ ih =>
    intro hkeeps hu
    exact .after (.nameModule (hkeeps _ _ hargs)) (.node (ih trivial hu) trivial)
  | bindings _ _ _ ih ih' =>
    intro _ hu
    have hbody := Yields.node (c := .lines _) (ih' trivial hu.layer.right) trivial
    have hpieces := (ih trivial hu.layer.left).append hbody
    exact .inLayer (.node (.node hpieces trivial) trivial)
  | conditional _ _ _ _ ih ih' ih'' =>
    intro _ hu
    have hno := Yields.node (c := .lines _) (ih'' trivial hu.right.right) trivial
    have hpieces := (ih trivial hu.left).append ((ih' trivial hu.right.left).append hno)
    exact .node (.node hpieces trivial) trivial
  | matching _ _ _ _ ih ih' =>
    intro _ hu
    refine ((ih trivial hu.left).hand (ih' trivial hu.right)).build fun _ _ _ _ hcs => hthunk ?_
    exact hglue.joined.choice hcs (by simp)
  | matchingElse _ _ _ _ _ ih ih' ih'' =>
    intro _ hu
    have hcases := (ih trivial hu.left).hand (ih' trivial hu.right.left)
    refine (hcases.append (ih'' trivial hu.right.right)).build fun _ _ _ _ h => hthunk ?_
    obtain ⟨hcs, hds⟩ := List.forall_mem_append.1 h
    exact hglue.joined.choice hcs (by simpa using hds)
  | block _ ih =>
    intro _ hu
    exact .node (.node (ih trivial hu) trivial) trivial
  | loopCount _ _ _ ih ih' =>
    intro _ hu
    have hbody := Yields.after (.withLocal _ _) (ih' trivial hu.layer.right)
    exact .inLayer (.node (.node ((ih trivial hu.layer.left).append hbody) trivial) trivial)
  | loopEach _ _ _ ih ih' =>
    intro _ hu
    have hbody := Yields.after (.withLocal _ _) (ih' trivial hu.layer.right)
    exact .inLayer (.node (.node ((ih trivial hu.layer.left).append hbody) trivial) trivial)
  | loopPairs _ _ _ ih ih' =>
    intro _ hu
    have hbody := Yields.after ((Later.withLocal _ _).trans (.withLocal _ _))
      (ih' trivial hu.layer.right)
    exact .inLayer (.node (.node ((ih trivial hu.layer.left).append hbody) trivial) trivial)
  | lambda _ _ ih =>
    intro _ hu
    exact .inLayer (ih trivial hu.layer)
  | attempt _ _ ih ih' =>
    intro _ hu
    have hbody := Yields.node (c := .lines _) (ih trivial hu.left) trivial
    have hrescue := Yields.node (c := .lines _) (ih' trivial hu.right) trivial
    exact .node (.node (hbody.append hrescue) trivial) trivial
  | handler _ _ ih =>
    intro _ hu
    have hbody := Yields.after (.withLocal _ _) (ih trivial hu.layer)
    exact .inLayer (.node (.node hbody trivial) trivial)
  | negation _ _ ih =>
    intro _ hu
    exact .node (ih trivial hu) trivial
  | operator _ _ ih =>
    intro _ hu
    refine (ih trivial hu).build fun _ _ _ _ hcs => List.forall_mem_singleton.2 ?_
    refine hglue.joined.combine _ _ fun c hc => ?_
    obtain ⟨d, hd, rfl⟩ := List.mem_map.1 hc
    exact hglue.joined.operand (hcs d hd)

/-! ### Reads, calls and definitions -/

namespace Session

/-- What refers to the package is read through the table `table`: a name, and the root of an access
expression. -/
structure ReadsThrough (job : Job) (table : String) (s : Session) : Prop where
  name : ∀ t : Token, s.inPackage t.text = true →
    (Gen.value (.name t)).exec job s = (.ok (.member table t.text), s)
  path : ∀ p code s', s.inPackage p.root.text = true →
    (Gen.value (.path p)).exec job s = (.ok code, s') →
      Accesses p.segments (.member table p.root.text) code

/-- The name that a call declares in the package. -/
def declared? (s : Session) (c : Call) : Option Token :=
  match s.form? c, c.args with
  | some (.define _), .name t :: .list _ _ :: b :: bs =>
    if Gen.isGlobal (b :: bs) then none else some t
  | some (.define _), [.name t, _] => some t
  | some (.function _ false), .name t :: .list _ _ :: rest =>
    if Gen.isGlobal rest then none else some t
  | _, _ => none

/-- What a name of the package means, and how it is referred to from a later session. -/
theorem reference_of_inPackage (hs : s.Proper) (hlater : Leads s s') {name : String}
    (h : s.inPackage name = true) :
    ∃ b, s.find? name = some (.declared b) ∧ b.reference s'.package = .member s'.package name ∧
      s'.package = s.package := by
  obtain ⟨b, hget, hmem, hreach, hsurface⟩ := exists_of_inPackage hs h
  refine ⟨b, ?_, ?_, hlater.package (hasPackage_of_mem hmem hreach)⟩
  · rw [find?, hget]
  · rw [Binding.reference, hreach]
    exact congrArg (Code.member _) hsurface

end Session

/-- What a step does with names of the package goes through the table `table`. A call reads them in
this way in front of it and behind it. One that is called, and one that the call declares, stands in
its code. -/
def Step.Through (job : Job) (table : String) : Step → Prop
  | .call c s _ => s.ReadsThrough job table ∧
      ∃ stmt s', (Gen.term c.term).exec job s = (.ok stmt, s') ∧ s'.ReadsThrough job table ∧
        (∀ t, c.target = .name t → s.inPackage t.text = true →
          ∃ args, stmt.code = .call (.member table t.text) args) ∧
        (∀ p, c.target = .path p → s.inPackage p.root.text = true →
          ∃ callee args, stmt.code = .call callee args ∧
            Accesses p.segments (.member table p.root.text) callee) ∧
        ∀ t, s.declared? c = some t → ∃ value,
          stmt.code = .define (.member table t.text) value ∨
            stmt.code = .assign (.member table t.text) value
  | .layer s _ => s.ReadsThrough job table

namespace Gen

theorem readsThrough (hs : s.Proper) (hlater : Leads s s') : s.ReadsThrough job s'.package where
  name t ht := by
    obtain ⟨b, hfind, href, -⟩ := Session.reference_of_inPackage hs (.refl s) ht
    obtain ⟨-, -, -, hpackage⟩ := Session.reference_of_inPackage hs hlater ht
    have hname : (nameValue t).exec job s = (.ok (.member s'.package t.text), s) := by
      rw [nameValue, exec_bind, exec_resolve, hfind, hpackage, ← href]
      rfl
    rw [exec_value_plain (congrArg (exec · job s) (term_eq_step (.name t))), hname]
  path p code s₁ hp hcode := by
    obtain ⟨b, hfind, href, -⟩ := Session.reference_of_inPackage hs (.refl s) hp
    obtain ⟨-, -, -, hpackage⟩ := Session.reference_of_inPackage hs hlater hp
    rw [exec_value_plain (congrArg (exec · job s) (term_eq_step (.path p)))] at hcode
    obtain ⟨-, haccess⟩ := gives_guard.1 (gives_iff.2 ⟨hcode, rfl⟩)
    obtain ⟨m, hm, -, haccesses, -⟩ := gives_access haccess
    cases hfind.symm.trans hm
    have hroot : (Meaning.declared b).reference s.package = .member s'.package p.root.text := by
      rw [hpackage, ← href]
      rfl
    rwa [hroot] at haccesses

/-- The code of a call through a declared name. -/
theorem code_of_call {c : Call} {t : Token} {b : Binding} {stmt : Stmt}
    (htarget : c.target = .name t) (hfind : s.find? t.text = some (.declared b))
    (h : (term c.term).Gives job s stmt u s') :
    ∃ args, stmt.code = .call (b.reference s'.package) args := by
  have hcall : term c.term = call term c := term_eq_step c.term
  rw [hcall] at h
  obtain ⟨v, hdispatch, -⟩ := gives_inCall.1 h
  simp only [dispatch, htarget] at hdispatch
  obtain ⟨m, _, _, _, hresolve, hk, -⟩ := gives_bind.1 hdispatch
  obtain ⟨hm, -, rfl⟩ := gives_resolve.1 hresolve
  cases hfind.symm.trans hm
  obtain ⟨_, _, _, _, hpermit, hk', -⟩ := gives_bind.1 hk
  obtain ⟨-, rfl⟩ := quiet_permit hpermit
  obtain ⟨args, _, _, _, -, hk'', -⟩ := gives_bind.1 (gives_plain hk')
  obtain ⟨callee, hcallee, hcode⟩ := gives_map.1 hk''
  obtain ⟨rfl, -, rfl⟩ := gives_reference.1 hcallee
  exact ⟨args, hcode⟩

/-- The code of a call through an access expression. -/
theorem code_of_reached {c : Call} {p : Path} {m : Meaning} {stmt : Stmt}
    (htarget : c.target = .path p) (hfind : s.find? p.root.text = some m)
    (h : (term c.term).Gives job s stmt u s') :
    ∃ callee args, stmt.code = .call callee args ∧
      Accesses p.segments (m.reference s.package) callee := by
  have hcall : term c.term = call term c := term_eq_step c.term
  rw [hcall] at h
  obtain ⟨v, hdispatch, -⟩ := gives_inCall.1 h
  simp only [dispatch, htarget] at hdispatch
  obtain ⟨callee, _, _, _, hcallee, hk, -⟩ := gives_bind.1 (gives_plain hdispatch)
  obtain ⟨m', hm, -, haccesses, -⟩ := gives_access hcallee
  cases hfind.symm.trans hm
  obtain ⟨args, -, hcode⟩ := gives_map.1 hk
  exact ⟨callee, args, hcode, haccesses⟩

/-- A name that is declared in the package stays there, and is referred to through the table. -/
theorem reference_of_register {t : Token} {kind : Kind} {b : Binding}
    (h : s.register t kind .package false = .ok (b, s₁)) (hlater : Leads s₁ s') :
    s'.hasPackage = true ∧ b.reference s'.package = .member s'.package t.text := by
  obtain ⟨rfl, -⟩ := Session.register_cases h
  have hmem := Session.mem_root_of_register h (show Reach.package ≠ .block by decide)
  exact ⟨Session.hasPackage_of_mem (hlater.root hmem) rfl, rfl⟩

/-- The code of the definition of a function in the package. -/
theorem code_of_named {isPure : Bool} {t : Token} {formals rest : List Term} {code : Code}
    (h : (named term isPure false t formals rest).Gives job s code u s')
    (hglobal : isGlobal rest = false) (hu : Unsplit job u) (hs : s.Proper) :
    s'.hasPackage = true ∧ ∃ value, code = .assign (.member s'.package t.text) value := by
  obtain ⟨b, _, s₁, _, hregister, hk, rfl⟩ := gives_bind.1 h
  obtain ⟨hb, rfl⟩ := gives_register.1 hregister
  obtain ⟨_, _, s₂, _, hlog, hk', rfl⟩ := gives_bind.1 hk
  obtain ⟨-, rfl, rfl⟩ := gives_log.1 hlog
  obtain ⟨value, _, _, _, hlayer, hk'', rfl⟩ := gives_bind.1 hk'
  simp only [hglobal, Bool.false_eq_true, if_false, Bool.false_and] at hb hk''
  obtain ⟨place, hplace, rfl⟩ := gives_map.1 hk''
  obtain ⟨rfl, rfl, rfl⟩ := gives_reference.1 hplace
  have hclosure : Passes job (inLayer (some isPure)
      (closure term formals (if isGlobal rest then rest.drop 1 else rest))) :=
    ((built_closure (p := .anywhere) _ _).passes passes_term (by decide)).inLayer _
  have hlog := Session.Later.withLog s₁ (s₁.log ++ [.defining b.surface b.emitted])
  have hs₂ := hlog.proper ((Session.Later.register hb).proper hs)
  obtain ⟨hlater, -⟩ := hclosure _ _ _ _ hlayer hu.right.right.left hs₂
  obtain ⟨hpackage, href⟩ := reference_of_register hb (hlog.trans hlater).leads
  exact ⟨hpackage, value, congrArg (Code.assign · value) href⟩

/-- The code of a call that declares a name in the package. -/
theorem code_of_declared {c : Call} {t : Token} {stmt : Stmt} (hdeclared : s.declared? c = some t)
    (h : (term c.term).Gives job s stmt u s') (hu : Unsplit job u) (hs : s.Proper) :
    s'.hasPackage = true ∧ ∃ value, stmt.code = .define (.member s'.package t.text) value ∨
      stmt.code = .assign (.member s'.package t.text) value := by
  unfold Session.declared? at hdeclared
  split at hdeclared
  · rename_i isPure t' formals span first rest hform hargs
    split at hdeclared
    · cases hdeclared
    · rename_i hglobal
      cases hdeclared
      obtain ⟨v, hdefine, rfl⟩ := gives_form hform rfl h
      obtain ⟨-, hnamed⟩ := gives_unlessPure.1 hdefine
      simp only [hargs] at hnamed
      obtain ⟨hpackage, value, hcode⟩ :=
        code_of_named hnamed (Bool.eq_false_iff.2 hglobal) hu.call hs
      exact ⟨hpackage, value, .inr hcode⟩
  · rename_i isPure t' value hform hargs
    cases hdeclared
    obtain ⟨v, hdefine, rfl⟩ := gives_form hform rfl h
    obtain ⟨-, hvalue⟩ := gives_unlessPure.1 hdefine
    simp only [hargs] at hvalue
    split at hvalue
    · obtain ⟨code, _, s₁, _, -, hk, -⟩ := gives_bind.1 hvalue
      obtain ⟨b, _, s₂, _, hregister, hk', -⟩ := gives_bind.1 hk
      obtain ⟨hb, -⟩ := gives_register.1 hregister
      obtain ⟨place, hplace, hcode⟩ := gives_map.1 hk'
      obtain ⟨rfl, -, rfl⟩ := gives_reference.1 hplace
      obtain ⟨hpackage, href⟩ := reference_of_register hb (.refl _)
      exact ⟨hpackage, code, .inl (hcode.trans (congrArg (Code.define · code) href))⟩
    · exact (not_gives_refuse hvalue).elim
  · rename_i isPure t' formals span rest hform hargs
    split at hdeclared
    · cases hdeclared
    · rename_i hglobal
      cases hdeclared
      obtain ⟨v, hfunction, rfl⟩ := gives_form hform rfl h
      obtain ⟨-, hnamed⟩ := gives_unlessPure.1 hfunction
      simp only [hargs] at hnamed
      obtain ⟨hpackage, value, hcode⟩ :=
        code_of_named hnamed (Bool.eq_false_iff.2 hglobal) hu.call hs
      exact ⟨hpackage, value, .inr hcode⟩
  · cases hdeclared

/-- What a step on the way to a session does with names of the package goes through the table the
package has in the end. -/
theorem through_of_precedes {step : Step} (h : step.Precedes job s') (hu : Unsplit job [step]) :
    step.Through job s'.package := by
  cases step with
  | layer s _ => exact readsThrough h.2 h.1.leads
  | call c s inner =>
    obtain ⟨hlater, hs, stmt, s₁, hgives, hend⟩ := h
    have hlater₁ := (passes_term c.term _ _ _ _ hgives hu hs).1
    refine ⟨readsThrough hs hlater.leads, stmt, s₁, (gives_iff.1 hgives).1,
      readsThrough (hlater₁.proper hs) hend.leads, fun t htarget ht => ?_, fun p htarget hp => ?_,
      fun t ht => ?_⟩
    · obtain ⟨b, hfind, href, hpackage₁⟩ :=
        Session.reference_of_inPackage hs hlater₁.leads ht
      obtain ⟨-, -, -, hpackage⟩ := Session.reference_of_inPackage hs hlater.leads ht
      rw [hpackage, ← hpackage₁, ← href]
      exact code_of_call htarget hfind hgives
    · obtain ⟨b, hfind, href, -⟩ := Session.reference_of_inPackage hs (.refl s) hp
      obtain ⟨-, -, -, hpackage⟩ := Session.reference_of_inPackage hs hlater.leads hp
      rw [hpackage, ← href]
      exact code_of_reached htarget hfind hgives
    · obtain ⟨hpackage, hcode⟩ := code_of_declared ht hgives hu hs
      rw [hend.leads.package hpackage]
      exact hcode

/-- Unless a call gives a package with names another table, the package of an accepted source has
one table, which the chunk makes at its start and returns or names at its end. All members of tables
in the statements are names of the package in this table, or names of the environment, and whatever
a call reads, calls or declares in the package goes through the table. -/
theorem package_reached_through_one_table {source sourceName text : String} {options : Options}
    (h : (compile source sourceName options).1 = .ok text) {p : Program}
    (hp : parse source = .ok p)
    (hunsplit : Unsplit ⟨options, sourceName, source⟩
      ((statements p).steps ⟨options, sourceName, source⟩
        (Session.start.publish ⟨options, sourceName, source⟩))) :
    ∃ stmts s', (statements p).exec ⟨options, sourceName, source⟩
        (Session.start.publish ⟨options, sourceName, source⟩) = (.ok stmts, s') ∧
      text = prelude options ++ "\n" ++ (if options.publish then "" else "local ") ++ s'.package ++
        " = \x7b\x7d;\n" ++ renderStatements stmts ++
        (if options.publish then "\n-- End module " ++ s'.package
          else "\nreturn " ++ s'.package ++ ";\n") ∧
      (∀ stmt ∈ stmts, stmt.code.Every (Code.Accounted s'.scope.root s'.package)) ∧
      Step.Everywhere (Step.Through ⟨options, sourceName, source⟩ s'.package)
        ((statements p).steps ⟨options, sourceName, source⟩
          (Session.start.publish ⟨options, sourceName, source⟩)) := by
  obtain ⟨stmts, s', hexec, rfl⟩ := (compile_eq_ok_iff hp).1 h
  have hgives := gives_iff.2 ⟨hexec, rfl⟩
  have hstart := Session.proper_start ⟨options, sourceName, source⟩
  refine ⟨stmts, s', hexec, rfl, fun stmt hstmt => ?_, fun step hstep => ?_⟩
  · have hlowers := lowers_statements hereditary_true (fun _ _ => trivial) hgives
    have hcodes := (hlowers.yields trivial hunsplit hstart).2 ⟨List.Subset.refl _, fun _ => rfl⟩
      (List.forall_mem_nil _)
    exact hcodes stmt.code (List.mem_map_of_mem hstmt)
  · have hprecedes := (passes_statements p _ _ _ _ hgives hunsplit hstart).2 step hstep
    exact through_of_precedes hprecedes fun hpublish step' hstep' =>
      hunsplit hpublish step' (hstep'.trans hstep)

/-- A published module that is named inside a block, before anything is declared. -/
def namedFirst : Job :=
  ⟨{ Options.library with publish := true }, "app.crn",
    "(do (module m)) (def x 1) (defn f [a] a) (f x)"⟩

theorem package_reached_through_one_table_named :
    ∃ text p, (compile namedFirst.code namedFirst.sourceName namedFirst.options).1 = .ok text ∧
      parse namedFirst.code = .ok p ∧
      Unsplit namedFirst ((statements p).steps namedFirst (Session.start.publish namedFirst)) ∧
      ∃ stmts s', (statements p).exec namedFirst (Session.start.publish namedFirst) =
          (.ok stmts, s') ∧ s'.package = "_G[\"m\"]" ∧
        (∀ stmt ∈ stmts, stmt.code.Every (Code.Accounted s'.scope.root s'.package)) ∧
        Step.Everywhere (Step.Through namedFirst s'.package)
          ((statements p).steps namedFirst (Session.start.publish namedFirst)) := by
  have hcheck : (match parse namedFirst.code with
      | .ok p =>
        match (statements p).exec namedFirst (Session.start.publish namedFirst) with
        | (.ok _, s') => s'.package == "_G[\"m\"]" &&
          (Step.flatten ((statements p).steps namedFirst (Session.start.publish namedFirst))).all
            fun step => !step.splits
        | _ => false
      | _ => false) = true := by
    decide +kernel
  split at hcheck
  · rename_i p hp
    split at hcheck
    · rename_i stmts s' hexec
      simp only [Bool.and_eq_true, List.all_eq_true, beq_iff_eq, Bool.not_eq_true'] at hcheck
      have hunsplit : Unsplit namedFirst
          ((statements p).steps namedFirst (Session.start.publish namedFirst)) :=
        fun _ => Step.everywhere_of_flatten hcheck.2
      have htext := (compile_eq_ok_iff hp).2 ⟨_, _, hexec, rfl⟩
      obtain ⟨stmts', s'', hexec', -, haccounted, hthrough⟩ :=
        package_reached_through_one_table htext hp hunsplit
      cases hexec.symm.trans hexec'
      exact ⟨_, p, htext, hp, hunsplit, stmts, s', hexec, hcheck.1, haccounted, hthrough⟩
    · cases hcheck
  · cases hcheck

/-- A published module that is named after a value is defined. -/
def namedLate : Job :=
  ⟨{ Options.library with publish := true }, "app.crn", "(def x 1) (module m)"⟩

/-- The value is written to another table than the one the chunk makes and names. -/
theorem package_split_by_late_name :
    (compile namedLate.code namedLate.sourceName namedLate.options).1.toOption =
      some ("local charon = require 'charon-runtime';\n_G[\"m\"] = \x7b\x7d;\n" ++
        "_G[\"app\"][\"x\"] = 1;\n-- Module m\n;\n-- End module _G[\"m\"]") := by
  decide +kernel

end Gen

end LispLua
