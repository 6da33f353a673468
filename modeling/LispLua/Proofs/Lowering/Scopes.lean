import LispLua.Proofs.Lowering.Locals
import LispLua.Proofs.Lowering.Sound
import LispLua.Proofs.Lowering.Visible

/-!
# The scopes of local names

A layer of the session stands for a function or a loop of Lua, so what is visible in a layer is
declared in the code around. Blocks, branches and protected bodies are functions of Lua too, yet
they have no layer: what is declared right inside one stays visible behind it, where Lua does not
know it. So a local name is in order if what is declared inside a call without a layer is used only
there.
-/

namespace LispLua

open Lua

/-! ### What calls use and declare -/

namespace Term

mutual

/-- The names that a term uses outside of the calls in it, as they are emitted if they are local. A
table with a key too many ends with `unit`. -/
def plain : Term → List String
  | .list items _ => plainAll items
  | .table items _ _ => mangle "unit" :: plainAll items
  | .path p => [mangle p.root.text]
  | .name t => [mangle t.text]
  | _ => []

/-- The names that some terms use outside of the calls in them. -/
def plainAll : List Term → List String
  | [] => []
  | t :: ts => t.plain ++ plainAll ts

end

mutual

/-- The number of calls in a term that are not inside other calls. -/
def width : Term → Nat
  | .list items _ | .table items _ _ => widthAll items
  | .call _ _ _ => 1
  | _ => 0

/-- The number of such calls in some terms. -/
def widthAll : List Term → Nat
  | [] => 0
  | t :: ts => t.width + widthAll ts

end

/-- The left sides of pairs. -/
def lefts : List Term → List Term
  | left :: _ :: rest => left :: lefts rest
  | _ => []

/-- The arguments of an import clause. -/
def clauseArgs : Term → List Term
  | .list (.symbol _ :: ts) _ | .call (.symbol _) ts _ => ts
  | _ => []

/-- The local names that an import with some arguments declares. -/
def imported : List Term → List String
  | [left, _, _] => left.emitted
  | _ => []

/-- The bounds in the head of a loop that counts. -/
def bounds : Term → List Term
  | .list [_, .call _ bounds _] _ => bounds
  | _ => []

end Term

namespace Form

/-- The name of a hidden function, which the function can use itself. -/
def own (c : Call) : Form → List String
  | function _ hidden =>
    if hidden && !Gen.isGlobal (c.args.drop 2) then (c.args.take 1).flatMap Term.emitted else []
  | _ => []

/-- The local names that a form declares for what stands behind it: those of hidden functions and of
imports. -/
def names (c : Call) : Form → List String
  | importModule => Term.imported c.args
  | nameModule => (c.args.drop 1).flatMap fun clause => Term.imported clause.clauseArgs
  | form => form.own c

/-- The names that a form uses outside of the calls in it. -/
def plain (c : Call) : Form → List String
  | define _ | function _ _ => Term.plainAll (c.args.drop 1)
  | importModule => Term.plainAll (c.args.drop 2)
  | nameModule =>
    (c.args.drop 1).flatMap fun clause => Term.plainAll (clause.clauseArgs.drop 2)
  | loop => Term.plainAll ((c.args.take 1).flatMap Term.bounds ++ c.args)
  | declare => []
  | _ => Term.plainAll c.args

end Form

namespace Session

/-- The local names that a call declares for what stands behind it. -/
def opened (s : Session) (c : Call) : List String :=
  (s.form? c).elim [] (Form.names c)

/-- The name of a hidden function that a call defines. -/
def own (s : Session) (c : Call) : List String :=
  (s.form? c).elim [] (Form.own c)

/-- The names that a call uses outside of the calls in it. -/
def plain (s : Session) (c : Call) : List String :=
  (s.form? c).elim (Term.plainAll (c.target :: c.args)) (Form.plain c)

end Session

namespace Step

/-- The local names that a step declares for the steps behind it. -/
def opened : Step → List String
  | .call c s _ => s.opened c
  | .layer _ _ => []

mutual

/-- The local names that are visible behind a step because of it. -/
def names : Step → List String
  | .call c s steps => s.opened c ++ namesAll steps
  | .layer _ _ => []

/-- The local names that are visible behind some steps because of them. -/
def namesAll : List Step → List String
  | [] => []
  | step :: steps => step.names ++ namesAll steps

end

/-- The local names that are declared inside a step and visible behind it. -/
def buried : Step → List String
  | .call _ _ steps => namesAll steps
  | .layer _ _ => []

mutual

/-- The local names that are declared inside the calls of a step. -/
def sunk : Step → List String
  | .call _ _ steps => namesAll steps
  | .layer _ steps => sunkAll steps

/-- The local names that are declared inside the calls of some steps. -/
def sunkAll : List Step → List String
  | [] => []
  | step :: steps => step.sunk ++ sunkAll steps

end

mutual

/-- The names that a step uses, as they are emitted if they are local. -/
def uses : Step → List String
  | .call c s steps => unbound (s.own c) (s.plain c ++ usesAll steps)
  | .layer _ steps => usesAll steps

/-- The names that some steps use, apart from those they declare for each other. -/
def usesAll : List Step → List String
  | [] => []
  | step :: steps => step.uses ++ unbound step.opened (usesAll steps)

end

/-- The local names that steps declare for each other, also within a layer. -/
def exposed : Step → List String
  | .call c s _ => s.opened c
  | .layer _ steps => steps.flatMap opened

/-- What is declared inside a step is not used by the steps behind it. -/
def Apart (name : String) : List Step → Prop
  | [] => True
  | step :: steps => (name ∈ step.buried → name ∉ usesAll steps) ∧ Apart name steps

instance Apart.decidable (name : String) : (steps : List Step) → Decidable (Apart name steps)
  | [] => .isTrue trivial
  | _ :: steps =>
    have := decidable name steps
    inferInstanceAs (Decidable (_ ∧ _))

end Step

/-- Where a name may be declared among the terms of a form. Those of a block are in one function of
Lua, the last term of a conditional is alone in its branch, and so is the body of `try` in its own
function, unless a handler uses the name. A binding without a name drops its value and what that
declares. -/
def Form.Admits (name : String) (c : Call) (steps : List Step) : Form → Prop
  | conditional => name ∉ (steps.take (Term.widthAll (c.args.take 2))).flatMap Step.opened
  | attempt =>
    let n := Term.widthAll (c.args.filter fun t => !t.isCatch)
    name ∈ (steps.take n).flatMap Step.opened → name ∉ Step.usesAll (steps.drop n)
  | matching | operator _ | nameModule => name ∉ steps.flatMap Step.opened
  | bindings => ∀ left ∈ Term.lefts ((c.args.take 1).flatMap Term.items),
      left.binders = [] → name ∉ steps.flatMap Step.exposed
  | declare => ∀ t ∈ c.args, ∀ token ∈ t.asName?, token.text ≠ name
  | _ => True

instance Form.Admits.decidable (name : String) (c : Call) (steps : List Step) (form : Form) :
    Decidable (form.Admits name c steps) := by
  cases form <;> unfold Form.Admits <;> infer_instance

/-- A local name is in order inside a step. -/
def Step.Settles (name : String) : Step → Prop
  | .call c s steps => Apart name steps ∧ (name ∈ s.plain c → name ∉ sunkAll steps) ∧
      ∀ form ∈ s.form? c, form.Admits name c steps
  | .layer _ steps => Apart name steps

instance Step.Settles.decidable (name : String) (step : Step) :
    Decidable (step.Settles name) := by
  cases step <;> unfold Step.Settles <;> infer_instance

/-- A local name is in order: where it is declared inside a call and not in a layer of its own
there, what stands behind the call does not use it, and it is not the name of something defined
elsewhere. -/
def Orderly (name : String) (steps : List Step) : Prop :=
  Step.Apart name steps ∧ Step.Everywhere (Step.Settles name) steps

namespace Step

variable {name : String} {u v : List Step}

theorem mem_namesAll :
    name ∈ namesAll u ↔ name ∈ u.flatMap opened ∨ name ∈ u.flatMap buried := by
  induction u with
  | nil => simp [namesAll]
  | cons step u ih =>
    rw [namesAll, List.mem_append, ih, List.flatMap_cons, List.flatMap_cons, List.mem_append,
      List.mem_append, or_or_or_comm]
    cases step <;> simp [names, opened, buried]

theorem usesAll_singleton (step : Step) : usesAll [step] = step.uses := by
  simp [usesAll, unbound]

theorem usesAll_append_left (u v : List Step) : usesAll u ⊆ usesAll (u ++ v) := by
  induction u with
  | nil => exact List.nil_subset _
  | cons step u ih =>
    intro name hname
    simp only [usesAll, List.cons_append, List.mem_append, mem_unbound] at hname ⊢
    exact hname.imp_right fun h => ⟨ih h.1, h.2⟩

/-- Steps see what is declared in front of them, and nothing else is taken away. -/
theorem mem_usesAll_append_right (hu : name ∉ u.flatMap opened) (h : name ∈ usesAll v) :
    name ∈ usesAll (u ++ v) := by
  induction u with
  | nil => exact h
  | cons step u ih =>
    rw [List.flatMap_cons, List.mem_append, not_or] at hu
    rw [List.cons_append, usesAll, List.mem_append, mem_unbound]
    exact .inr ⟨ih hu.2, hu.1⟩

theorem mem_sunkAll_of_buried (h : name ∈ u.flatMap buried) : name ∈ sunkAll u := by
  induction u with
  | nil => exact h
  | cons step u ih =>
    rw [List.flatMap_cons, List.mem_append] at h
    rw [sunkAll, List.mem_append]
    refine h.imp (fun hstep => ?_) ih
    cases step with
    | call => exact hstep
    | layer => cases hstep

theorem sunkAll_append (u v : List Step) : sunkAll (u ++ v) = sunkAll u ++ sunkAll v := by
  induction u with
  | nil => rfl
  | cons step u ih => rw [List.cons_append, sunkAll, sunkAll, ih, List.append_assoc]

namespace Apart

theorem left (h : Apart name (u ++ v)) : Apart name u := by
  induction u with
  | nil => trivial
  | cons step u ih =>
    obtain ⟨hstep, hrest⟩ := h
    exact ⟨fun hburied huses => hstep hburied (usesAll_append_left u v huses), ih hrest⟩

theorem right (h : Apart name (u ++ v)) : Apart name v := by
  induction u with
  | nil => exact h
  | cons step u ih => exact ih h.2

/-- What is declared inside some steps, and not for each other, is not used behind them. -/
theorem not_uses (h : Apart name (u ++ v)) (hu : name ∉ u.flatMap opened)
    (hburied : name ∈ u.flatMap buried) : name ∉ usesAll v := by
  induction u with
  | nil => cases hburied
  | cons step u ih =>
    rw [List.flatMap_cons, List.mem_append, not_or] at hu
    rw [List.flatMap_cons, List.mem_append] at hburied
    rcases hburied with hstep | hburied
    · exact fun huses => h.1 hstep (mem_usesAll_append_right hu.2 huses)
    · exact ih h.2 hu.2 hburied

end Apart

end Step

namespace Term

variable {t : Term} {ts : List Term}

theorem plain_subset_plainAll (h : t ∈ ts) : t.plain ⊆ plainAll ts := by
  induction ts with
  | nil => cases h
  | cons t' ts ih =>
    rw [plainAll]
    rcases List.mem_cons.1 h with rfl | h
    · exact List.subset_append_left _ _
    · exact List.subset_append_of_subset_right _ (ih h)

theorem plainAll_subset {ts' : List Term} (h : ts' ⊆ ts) : plainAll ts' ⊆ plainAll ts := by
  induction ts' with
  | nil => exact List.nil_subset _
  | cons t ts' ih =>
    obtain ⟨ht, hts'⟩ := List.cons_subset.1 h
    rw [plainAll, List.append_subset]
    exact ⟨plain_subset_plainAll ht, ih hts'⟩

theorem plain_subset_of_mem_items {items : List Term} {span : Span} (h : t ∈ items)
    (hts : .list items span ∈ ts) : t.plain ⊆ plainAll ts := by
  refine List.Subset.trans (plain_subset_plainAll h) ?_
  rw [← plain]
  exact plain_subset_plainAll hts

theorem plainAll_map_term (p : Program) : plainAll (p.map Call.term) = [] := by
  induction p with
  | nil => rfl
  | cons c p ih => exact ih

theorem plainAll_filter_isCatch (ts : List Term) : plainAll (ts.filter isCatch) = [] := by
  induction ts with
  | nil => rfl
  | cons t ts ih =>
    cases hcatch : t.isCatch with
    | true =>
      rw [List.filter_cons_of_pos hcatch, plainAll, ih]
      cases t with
      | call => rfl
      | _ => cases hcatch
    | false => rwa [List.filter_cons_of_neg (by simp [hcatch])]

/-- What comes out of a thread is the value that goes in or a call. -/
theorem plain_subset_of_foldlM {slot : Slot} {stages : List Term} {value t : Term}
    (h : stages.foldlM (fun value stage => Term.feed slot value stage) value = .ok t) :
    t.plain ⊆ value.plain := by
  induction stages generalizing value with
  | nil =>
    cases h
    exact List.Subset.refl _
  | cons stage stages ih =>
    rw [List.foldlM_cons] at h
    cases stage with
    | call target args span => exact List.Subset.trans (ih h) (List.nil_subset _)
    | _ => cases h

theorem plainAll_eq_nil_of_mapM {slot : Slot} {stages ts : List Term} {value : Term}
    (h : stages.mapM (Term.feed slot value) = .ok ts) : plainAll ts = [] := by
  induction stages generalizing ts with
  | nil =>
    cases h
    rfl
  | cons stage stages ih =>
    rw [List.mapM_cons] at h
    cases stage with
    | call target args span =>
      cases hrest : stages.mapM (Term.feed slot value) with
      | error f =>
        rw [hrest] at h
        cases h
      | ok rest =>
        rw [hrest] at h
        cases h
        rw [plainAll, ih hrest]
        rfl
    | _ => cases h

theorem plain_subset_of_foldl {span : Span} {rest : List Term} {first : Term} :
    (rest.foldl (Term.exclusive span) first).plain ⊆ first.plain := by
  induction rest generalizing first with
  | nil => exact List.Subset.refl _
  | cons t rest ih => exact List.Subset.trans ih (List.nil_subset _)

end Term

/-- Outside of calls sugar stands for nothing but its own arguments. -/
theorem Form.Expands.plain_subset {form : Form} {c : Call} {t : Term} (h : form.Expands c t) :
    t.plain ⊆ Term.plainAll c.args := by
  have hthread : ∀ {slot : Slot}, Term.thread slot c.args c.span = .ok t →
      t.plain ⊆ Term.plainAll c.args := by
    intro slot h
    cases hargs : c.args with
    | nil =>
      rw [hargs] at h
      cases h
    | cons value stages =>
      rw [hargs] at h
      exact List.subset_append_of_subset_left _ (Term.plain_subset_of_foldlM h)
  have hfan : ∀ {slot : Slot}, Term.fan slot c.args c.span = .ok t →
      t.plain ⊆ Term.plainAll c.args := by
    intro slot h
    cases hargs : c.args with
    | nil =>
      rw [hargs] at h
      cases h
    | cons value stages =>
      rw [hargs] at h
      simp only [Term.fan] at h
      cases hitems : stages.mapM (Term.feed slot value) with
      | error f =>
        rw [hitems] at h
        cases h
      | ok items =>
        rw [hitems] at h
        cases h
        rw [Term.plain, Term.plainAll_eq_nil_of_mapM hitems]
        exact List.nil_subset _
  cases form with
  | threadFirst | threadLast => exact hthread h
  | fanFirst | fanLast => exact hfan h
  | parity =>
    rw [Form.Expands] at h
    cases hargs : c.args with
    | nil =>
      rw [hargs] at h
      cases h
    | cons first rest =>
      rw [hargs] at h
      cases h
      exact List.subset_append_of_subset_left _ Term.plain_subset_of_foldl
  | _ => cases h

theorem Form.Expands.names_eq_nil {form : Form} {c : Call} {t : Term} (h : form.Expands c t) :
    form.names c = [] := by
  cases form with
  | threadFirst | threadLast | fanFirst | fanLast | parity => rfl
  | _ => cases h

theorem Form.Expands.own_eq_nil {form : Form} {c : Call} {t : Term} (h : form.Expands c t) :
    form.own c = [] := by
  cases form with
  | threadFirst | threadLast | fanFirst | fanLast | parity => rfl
  | _ => cases h

theorem Form.Expands.plain_eq {form : Form} {c : Call} {t : Term} (h : form.Expands c t) :
    form.plain c = Term.plainAll c.args := by
  cases form with
  | threadFirst | threadLast | fanFirst | fanLast | parity => rfl
  | _ => cases h

theorem Form.own_function {c : Call} {t : Token} {formals rest : List Term} {span : Span}
    (hargs : c.args = .name t :: .list formals span :: rest) (isPure hidden : Bool) :
    (function isPure hidden).own c =
      if hidden && !Gen.isGlobal rest then [mangle t.text] else [] := by
  rw [own, hargs]
  rfl

theorem Form.names_function {c : Call} {t : Token} {formals rest : List Term} {span : Span}
    (hargs : c.args = .name t :: .list formals span :: rest) (isPure hidden : Bool) :
    (function isPure hidden).names c =
      if hidden && !Gen.isGlobal rest then [mangle t.text] else [] :=
  own_function hargs isPure hidden

/-! ### What the rules make of it -/

variable {P : Term → Prop} {job : Job} {name : String} {s s' : Session} {u v : List Step}
  {cs : List Code}

/-- How many steps a row of terms takes. -/
def Fragment.width? : Fragment → Option Nat
  | .term t | .key _ t => some t.width
  | .values ts | .args ts | .entries _ ts | .body ts => some (Term.widthAll ts)
  | _ => none

/-- The rules: the steps of a row of terms are its calls. -/
theorem Lowers.length_eq {f : Fragment} (h : Lowers P job f s cs u s') :
    ∀ n ∈ f.width?, u.length = n := by
  induction h with
  | indexed | self | reached | through | special =>
    rintro _ ⟨⟩
    rfl
  | list _ _ ih | table _ _ ih =>
    rintro _ ⟨⟩
    exact ih _ rfl
  | path | nameForm | name | symbol | number | string | valuesNil | argsNil | entriesNil | bodyNil
  | keyQuoted =>
    rintro _ ⟨⟩
    rfl
  | keyTerm _ ih =>
    rintro _ ⟨⟩
    exact ih _ rfl
  | entriesLast _ _ _ ih | bodyLast _ _ _ ih =>
    rintro _ ⟨⟩
    exact ih _ rfl
  | argsForm _ _ _ _ ih =>
    rintro _ ⟨⟩
    simp [ih _ rfl, Term.widthAll, Term.width]
  | valuesCons _ _ ih ih' | argsCons _ _ ih ih' | bodyCons _ _ _ ih ih' =>
    rintro _ ⟨⟩
    rw [List.length_append, ih _ rfl, ih' _ rfl]
    rfl
  | entriesCons _ _ _ ih ih' ih'' =>
    rintro _ ⟨⟩
    rw [List.length_append, List.length_append, ih _ rfl, ih' _ rfl, ih'' _ rfl]
    rfl
  | _ =>
    rintro _ ⟨⟩

/-- The local names that a fragment declares. -/
def Fragment.Opens (u : List Step) (cs : List Code) : Fragment → Prop
  | .term _ | .values _ | .args _ | .key _ _ | .entries _ _ | .body _ =>
    u.flatMap Step.opened ⊆ Code.declaredAll cs
  | .pairs ts => (∀ left ∈ Term.lefts ts, left.binders ≠ []) →
      u.flatMap Step.opened ⊆ Code.declaredAll cs
  | .imports ts => Term.imported ts ⊆ Code.declaredAll cs
  | .clauses ts =>
    (ts.flatMap fun clause => Term.imported clause.clauseArgs) ⊆ Code.declaredAll cs
  | .named _ hidden t _ rest =>
    (hidden && !Gen.isGlobal rest) = true → mangle t.text ∈ Code.declaredAll cs
  | .form special c => special.names c ⊆ Code.declaredAll cs
  | .tests _ _ _ | .arms _ _ | .closure _ _ => True

/-- Code in front of a row that declares what its own steps do. -/
theorem Step.opened_subset_cons {c : Code} (hu : u.flatMap Step.opened ⊆ Code.declaredAll [c])
    (hv : v.flatMap Step.opened ⊆ Code.declaredAll cs) :
    (u ++ v).flatMap Step.opened ⊆ Code.declaredAll (c :: cs) := by
  rw [Code.declaredAll_singleton] at hu
  rw [List.flatMap_append, Code.declaredAll, List.append_subset]
  exact ⟨List.subset_append_of_subset_left _ hu, List.subset_append_of_subset_right _ hv⟩

/-- A pattern with some name in it hands on what its value declares. -/
theorem Session.Destructs.declared_subset {value : Code} {bs : List Code}
    (h : s.Destructs value bs s') (hbs : bs ≠ []) : value.declared ⊆ Code.declaredAll bs := by
  cases h with
  | nil => exact absurd rfl hbs
  | cons t hpart _ =>
    rw [Code.declaredAll, Code.declared, Code.declared_eq_of_part hpart, List.append_assoc]
    exact List.subset_append_left _ _

/-- A hidden function is emitted under a name of its own. -/
theorem Session.emitted_of_register {t : Token} {kind : Kind} {reach : Reach}
    {hidden everywhere : Bool} {b : Binding}
    (h : s.register t kind reach everywhere = .ok (b, s'))
    (hopen : (hidden && !everywhere) = true) : b.emitted = mangle t.text := by
  obtain ⟨rfl, -⟩ := register_cases h
  cases everywhere with
  | true => simp at hopen
  | false => rfl

/-- The rules: what a call declares for the terms behind it is declared in its code. -/
theorem Lowers.opens {f : Fragment} (h : Lowers P job f s cs u s') : f.Opens u cs := by
  induction h with
  | path | nameForm | name | symbol | number | string | valuesNil | argsNil | keyQuoted | entriesNil
  | bodyNil | clausesNil => exact List.nil_subset _
  | testsNil | testsAny | testsCons | armsNil | armsAny | armsList | armsTerm | closureEmpty
  | closure => trivial
  | pairsNil => exact fun _ => List.nil_subset _
  | list _ _ ih =>
    rw [Fragment.Opens, Code.declaredAll_singleton, Code.declared]
    exact ih
  | @table _ escaped _ _ _ _ _ _ _ ih =>
    rw [Fragment.Opens, Code.declaredAll_singleton]
    cases escaped with
    | true =>
      exact ih
    | false =>
      exact ih
  | indexed _ hform | self _ hform | reached _ hform | through _ hform =>
    simp [Fragment.Opens, Step.opened, Session.opened, hform]
  | special _ hform _ ih =>
    rw [Fragment.Opens, List.flatMap_singleton, Step.opened, Session.opened, hform]
    exact ih
  | valuesCons _ _ ih ih' | argsCons _ _ ih ih' => exact Step.opened_subset_cons ih ih'
  | bodyCons _ _ _ ih ih' => exact Step.opened_subset_cons (c := .run _ _) ih ih'
  | argsForm _ _ _ _ ih => exact List.subset_append_of_subset_right _ ih
  | keyTerm _ ih => exact ih
  | entriesLast _ _ _ ih =>
    refine List.Subset.trans ih ?_
    rw [Code.declaredAll_singleton, Code.declaredAll_singleton, Code.declared]
    exact List.subset_append_left _ _
  | entriesCons _ _ _ ih ih' ih'' =>
    rw [Fragment.Opens, ← List.append_assoc]
    refine Step.opened_subset_cons (List.Subset.trans (Step.opened_subset_cons ih ih') ?_) ih''
    simp [Code.declaredAll, Code.declared]
  | @bodyLast _ _ definition _ _ _ _ _ _ _ ih =>
    cases definition with
    | true => exact List.Subset.trans ih (by simp [Code.declaredAll, Code.declared])
    | false => exact ih
  | @pairsCons _ _ _ _ _ bs _ _ _ _ _ _ _ hdestructs hlength _ ih ih' =>
    intro hlefts
    obtain ⟨hleft, hlefts⟩ := List.forall_mem_cons.1 hlefts
    have hbs : bs ≠ [] := by
      intro hnil
      rw [hnil] at hlength
      exact hleft (List.length_eq_zero_iff.1 hlength.symm)
    rw [Fragment.Opens, Code.declaredAll_singleton] at ih
    rw [List.flatMap_append, Code.declaredAll_eq_flatMap, List.flatMap_append,
      ← Code.declaredAll_eq_flatMap, ← Code.declaredAll_eq_flatMap, List.append_subset]
    exact ⟨List.subset_append_of_subset_left _
        (List.Subset.trans ih (hdestructs.declared_subset hbs)),
      List.subset_append_of_subset_right _ (ih' hlefts)⟩
  | importWhole | importNamed => exact List.nil_subset _
  | importAs =>
    rw [Fragment.Opens, Code.declaredAll_singleton, Code.declared]
    exact List.subset_append_right _ _
  | importMembers _ _ htokens =>
    obtain ⟨tokens, rfl, rfl⟩ := htokens
    rw [Fragment.Opens, Code.declaredAll_singleton, Code.declared, Term.imported, Term.emitted,
      Term.binders, Term.bindersAll_map_name, List.map_map]
    exact List.Subset.refl _
  | clausesCons hclause _ _ ih ih' =>
    rw [Fragment.Opens, Code.declaredAll_singleton] at ih
    rw [Fragment.Opens, List.flatMap_cons, Code.declaredAll, List.append_subset]
    refine ⟨List.subset_append_of_subset_left _ ?_, List.subset_append_of_subset_right _ ih'⟩
    rcases hclause with rfl | rfl
    · exact ih
    · exact ih
  | named hregister =>
    intro hopen
    rw [if_pos hopen, Code.declaredAll_singleton, Code.declared,
      Session.emitted_of_register hregister hopen]
    exact List.mem_cons_self
  | function hargs _ _ ih =>
    rw [Fragment.Opens, Form.names_function hargs]
    split
    · exact List.cons_subset.2 ⟨ih ‹_›, List.nil_subset _⟩
    · exact List.nil_subset _
  | importModule _ ih => exact ih
  | nameModule hargs _ ih =>
    rw [Fragment.Opens, Form.names, hargs, Code.declaredAll_singleton, Code.declared]
    exact ih
  | sugar hexpands =>
    rw [Fragment.Opens, hexpands.names_eq_nil]
    exact List.nil_subset _
  | _ => exact List.nil_subset _

namespace Session

/-- If a name is visible as a local one, then as the one it is written as and not where it is
used. -/
def Spares (name : String) (used : List String) (s : Session) : Prop :=
  s.Shows fun surface emitted => emitted = name → mangle surface = name ∧ name ∉ used

namespace Spares

variable {used : List String}

theorem mono {less : List String} (h : s.Spares name used) (hless : name ∈ less → name ∈ used) :
    s.Spares name less :=
  Shows.mono h fun _ _ hshows hname => (hshows hname).imp_right fun hnot hmem => hnot (hless hmem)

theorem withLocal {t : Token} (h : s.Spares name used)
    (ht : mangle t.text = name → name ∉ used) : (s.withLocal t).Spares name used :=
  Shows.withLocal h fun hname => ⟨hname, ht hname⟩

theorem binds {names : List String} (h : s.Spares name used) (hbinds : s.Binds names s')
    (hnames : name ∈ names → name ∉ used) : s'.Spares name used :=
  Shows.binds h hbinds fun _ hmem hname => ⟨hname, hnames (hname ▸ hmem)⟩

theorem destructs {value : Code} {bs : List Code} (h : s.Spares name used)
    (hdestructs : s.Destructs value bs s') (hbs : name ∈ Code.declaredAll bs → name ∉ used) :
    s'.Spares name used := by
  induction hdestructs with
  | nil => exact h
  | cons t _ _ ih =>
    simp only [Code.declaredAll, Code.declared, List.mem_append, List.mem_singleton] at hbs
    exact ih (h.withLocal fun hname => hbs (.inl (.inr hname.symm))) fun hmem => hbs (.inr hmem)

/-- A function is visible as a local name only if it is hidden. -/
theorem register {t : Token} {kind : Kind} {hidden everywhere : Bool} {b : Binding}
    (h : s.Spares name used)
    (hregister : s.register t kind
      (if everywhere then .everywhere else if hidden then .block else .package) everywhere =
        .ok (b, s'))
    (hnames : name ∈ (if hidden && !everywhere then [mangle t.text] else []) → name ∉ used) :
    s'.Spares name used := by
  refine Shows.register h hregister fun hblock hname => ?_
  have hopen := Bool.ne_false_iff.1 (mt reach_ne_block (not_not.2 hblock))
  rw [emitted_of_register hregister hopen] at hname
  refine ⟨hname, hnames ?_⟩
  rw [if_pos hopen, hname]
  exact List.mem_singleton_self _

/-- A name that is used does not refer to one that is spared. -/
theorem not_mem_free {surface : String} {m : Meaning} (h : s.Spares name used)
    (hfind : s.find? surface = some m) (hused : mangle surface ∈ used) (package : String) :
    name ∉ (m.reference package).free := by
  refine Shows.reference (C := (name ∉ ·.free)) h hfind (fun text htext => ?_) (fun _ _ => ?_)
    (fun _ => Code.not_mem_free_of_startsPlain) package
  · refine Code.not_mem_free_word fun heq => ?_
    obtain ⟨hname, hnot⟩ := htext heq
    exact hnot (hname ▸ hused)
  · simp [Code.free]

end Spares

end Session

/-- The local names that are visible behind a fragment because of it. -/
def Fragment.names (u : List Step) (cs : List Code) : Fragment → List String
  | .form special c => special.names c ++ Step.namesAll u
  | .imports ts => Term.imported ts ++ Step.namesAll u
  | .clauses ts =>
    (ts.flatMap fun clause => Term.imported clause.clauseArgs) ++ Step.namesAll u
  | .named _ hidden t _ rest =>
    if hidden && !Gen.isGlobal rest then [mangle t.text] else []
  | .pairs _ => Code.declaredAll cs ++ Step.namesAll u
  | _ => Step.namesAll u

/-- A name can be followed across a fragment: the session behind it is in the layer in front of it,
and the fragment does not list the name as one that is defined elsewhere. -/
def Fragment.Passes (name : String) : Fragment → Prop
  | .closure _ _ => False
  | .form .declare c => ∀ t ∈ c.args, ∀ token ∈ t.asName?, token.text ≠ name
  | _ => True

theorem Step.Settles.passes {c : Call} {form : Form} (h : (Step.call c s u).Settles name)
    (hform : s.form? c = some form) : (Fragment.form form c).Passes name := by
  obtain ⟨-, -, hadmits⟩ := h
  cases form with
  | declare => exact hadmits _ hform
  | _ => trivial

namespace Step

theorem namesAll_call (c : Call) (s : Session) (u : List Step) :
    namesAll [.call c s u] = s.opened c ++ namesAll u := by
  rw [namesAll, namesAll, names, List.append_nil]

theorem namesAll_append (u v : List Step) : namesAll (u ++ v) = namesAll u ++ namesAll v := by
  induction u with
  | nil => rfl
  | cons step u ih => rw [List.cons_append, namesAll, namesAll, ih, List.append_assoc]

theorem namesAll_append_imp {p : Prop} : (name ∈ namesAll (u ++ v) → p) ↔
    (name ∈ namesAll u → p) ∧ (name ∈ namesAll v → p) := by
  rw [namesAll_append, List.mem_append, or_imp]

end Step

/-- The rules: a name stays spared if it is not used where a fragment makes it visible. -/
theorem Lowers.spares {f : Fragment} (h : Lowers P job f s cs u s') {used : List String}
    (hs : s.Spares name used) (hnames : name ∈ f.names u cs → name ∉ used)
    (hpasses : f.Passes name) (hu : Step.Everywhere (Step.Settles name) u) :
    s'.Spares name used := by
  induction h with
  | path | nameForm | name | symbol | number | string | valuesNil | argsNil | keyQuoted | entriesNil
  | bodyNil | pairsNil | testsNil | armsNil | importNamed | clausesNil | arguments => exact hs
  | closureEmpty | closure => cases hpasses
  | list _ _ ih | table _ _ ih | argsForm _ _ _ _ ih | keyTerm _ ih
  | entriesLast _ _ _ ih | bodyLast _ _ _ ih | testsAny _ ih | importWhole _ ih
  | importModule _ ih | block _ ih | negation _ _ ih | operator _ _ ih =>
    exact ih hs hnames trivial hu
  | indexed _ _ _ ih | self _ _ _ ih | reached _ _ _ _ _ _ _ ih | through _ _ _ _ _ _ ih =>
    refine ih hs (fun hmem => hnames ?_) trivial hu.call
    change name ∈ Step.namesAll _
    rw [Step.namesAll_call]
    exact List.mem_append_right _ hmem
  | special _ hform _ ih =>
    refine ih hs (fun hmem => hnames ?_) (hu.head.passes hform) hu.call
    change name ∈ Step.namesAll _
    rwa [Step.namesAll_call, Session.opened, hform]
  | valuesCons _ _ ih ih' | argsCons _ _ ih ih' | bodyCons _ _ _ ih ih' | testsCons _ _ ih ih'
  | matching _ _ _ _ ih ih' | attempt _ _ ih ih' =>
    obtain ⟨hleft, hright⟩ := Step.namesAll_append_imp.1 hnames
    exact ih' (ih hs hleft trivial hu.left) hright trivial hu.right
  | entriesCons _ _ _ ih ih' ih'' | armsList _ _ _ ih ih' ih'' | armsTerm _ _ _ _ ih ih' ih''
  | conditional _ _ _ _ ih ih' ih'' | matchingElse _ _ _ _ _ ih ih' ih'' =>
    obtain ⟨hleft, hrest⟩ := Step.namesAll_append_imp.1 hnames
    obtain ⟨hmid, hright⟩ := Step.namesAll_append_imp.1 hrest
    have hs₂ := ih' (ih hs hleft trivial hu.left) hmid trivial hu.right.left
    exact ih'' hs₂ hright trivial hu.right.right
  | pairsCons _ hdestructs _ _ ih ih' =>
    simp only [Fragment.names, Code.declaredAll_eq_flatMap, List.flatMap_append,
      Step.namesAll_append, List.mem_append] at hnames
    simp only [← Code.declaredAll_eq_flatMap] at hnames
    have hs₁ := ih hs (fun hmem => hnames (.inr (.inl hmem))) trivial hu.left
    have hs₂ := hs₁.destructs hdestructs fun hmem => hnames (.inl (.inl hmem))
    refine ih' hs₂ (fun hmem => hnames ?_) trivial hu.right
    exact (List.mem_append.1 hmem).imp .inr .inr
  | armsAny _ ih => exact ih (Session.Shows.of_scope_eq hs rfl) hnames trivial hu
  | nameModule hargs _ ih =>
    refine ih (Session.Shows.of_scope_eq hs rfl) (fun hmem => hnames ?_) trivial hu
    rw [Fragment.names, Form.names, hargs]
    exact hmem
  | importAs _ ih =>
    simp only [Fragment.names, List.mem_append] at hnames
    have hs' := ih hs (fun hmem => hnames (.inr hmem)) trivial hu
    refine Session.Spares.withLocal hs' fun hname => hnames (.inl ?_)
    exact hname ▸ List.mem_singleton_self _
  | importMembers _ hbinds htokens ih =>
    obtain ⟨tokens, rfl, rfl⟩ := htokens
    simp only [Fragment.names, List.mem_append] at hnames
    have hs' := ih hs (fun hmem => hnames (.inr hmem)) trivial hu
    refine Session.Spares.binds hs' hbinds fun hmem => hnames (.inl ?_)
    rw [List.map_map] at hmem
    rw [Term.imported, Term.emitted, Term.binders, Term.bindersAll_map_name]
    exact hmem
  | clausesCons hclause _ _ ih ih' =>
    simp only [Fragment.names, List.flatMap_cons, Step.namesAll_append, List.mem_append] at hnames
    have hs₁ := ih hs (fun hmem => hnames ?_) trivial hu.left
    · exact ih' hs₁ (fun hmem => hnames ((List.mem_append.1 hmem).imp .inr .inr)) trivial hu.right
    · refine (List.mem_append.1 hmem).imp (fun himported => .inl ?_) .inl
      rcases hclause with rfl | rfl
      · exact himported
      · exact himported
  | @named s₂ s₁ _ rest _ _ s₃ _ _ _ b _ _ hidden hregister hlog hclosure ih =>
    have hs₁ : s₁.Spares name used := Session.Spares.register hs hregister hnames
    have hs₂ : s₂.Spares name used := Session.Shows.of_scope_eq hs₁ (by rw [hlog])
    exact Session.Shows.leave hs₂ (hclosure.kept trivial)
  | defineFunction _ _ _ ih => exact ih hs (by simp [Fragment.names]) trivial hu
  | defineValue _ _ _ hregister ih =>
    exact Session.Shows.register (ih hs hnames trivial hu) hregister (by simp)
  | function hargs _ _ ih =>
    refine ih hs (fun hmem => hnames (List.mem_append_left _ ?_)) trivial hu
    rwa [Form.names_function hargs]
  | declare _ htokens _ heq =>
    subst heq
    refine Session.Shows.externs hs _ _ fun t ht hname => ?_
    exact absurd hname (hpasses _ (htokens t ht) t rfl)
  | bindings hargs hpairs hbody =>
    exact Session.Shows.of_sealed hs (Lowers.sealed (.bindings hargs hpairs hbody) rfl)
  | loopCount hargs hbounds hbody =>
    exact Session.Shows.of_sealed hs (Lowers.sealed (.loopCount hargs hbounds hbody) rfl)
  | loopEach hargs hsource hbody =>
    exact Session.Shows.of_sealed hs (Lowers.sealed (.loopEach hargs hsource hbody) rfl)
  | loopPairs hargs hsource hbody =>
    exact Session.Shows.of_sealed hs (Lowers.sealed (.loopPairs hargs hsource hbody) rfl)
  | lambda hargs hclosure =>
    exact Session.Shows.of_sealed hs (Lowers.sealed (.lambda hargs hclosure) rfl)
  | handler hargs hbody =>
    exact Session.Shows.of_sealed hs (Lowers.sealed (.handler hargs hbody) rfl)
  | sugar hexpands _ ih =>
    refine ih hs (fun hmem => hnames ?_) trivial hu
    exact List.mem_append_right _ hmem

end LispLua
