import LispLua.Proofs.Lexical.Choice
import LispLua.Proofs.Lexical.Emission
import LispLua.Proofs.Lowering.Definition
import LispLua.Proofs.Operators.Meaning

/-!
# Matches

A match compares a value with the keys of its cases in order and takes the first case that fits, or
else its last resort. It is emitted as one choice of Lua: the arms are written with ` else` between
them, so that `elseif` comes about by writing. Here the emitted text is read back by the scanner of
`Lua.Choice.read`, which finds the words of the choice itself, and not by how it was put together.

A definition has no value. Where a match compares or returns one it is emitted all the same, and Lua
refuses the text.
-/

namespace LispLua

open Lua

/-! ### Cases -/

/-- The cases in a row of keys and values. -/
def casesOf : List Term → List (Term × Term)
  | key :: value :: rest => (key, value) :: casesOf rest
  | _ => []

/-- Whether a case is a last resort. -/
def isFallback (c : Term × Term) : Bool :=
  c.1.isName "_"

/-- The last of the last resorts counts. -/
theorem Gen.fallback?_eq : ∀ ts : List Term,
    fallback? ts = ((casesOf ts).filter isFallback).getLast?.map Prod.snd
  | [] => rfl
  | [_] => rfl
  | key :: value :: rest => by
    have hkey : isFallback (key, value) = key.isName "_" := rfl
    rw [fallback?, fallback?_eq rest, casesOf, List.filter_cons, hkey]
    cases key.isName "_" with
    | false =>
      rw [if_neg Bool.false_ne_true, if_neg Bool.false_ne_true]
      cases ((casesOf rest).filter isFallback).getLast? <;> rfl
    | true =>
      rw [if_pos rfl, if_pos rfl, List.getLast?_cons]
      cases ((casesOf rest).filter isFallback).getLast? <;> rfl

namespace Gen

/-- The text of a block that returns a value. -/
def returnText (value : Code) : String :=
  "return " ++ value.render ++ ";"

/-- A test and the value to return if it holds, as they are written. -/
def clauseText (clause : Code × Code) : String × String :=
  (clause.1.render, returnText clause.2)

/-- The choice that clauses and a last resort are written as. -/
def choiceText (clauses : List (Code × Code)) (otherwise : Option Code) : Choice :=
  ⟨clauses.map clauseText, otherwise.map Code.render⟩

/-- A clause as an arm of a choice. -/
def clauseArm (clause : Code × Code) : Code :=
  .arm clause.1 clause.2

theorem renderAll_arms (clauses : List (Code × Code)) :
    renderAll (clauses.map clauseArm) =
      (clauses.map clauseText).map fun c => "if " ++ c.1 ++ " then " ++ c.2 := by
  rw [renderAll_eq_map, List.map_map, List.map_map]
  refine List.map_congr_left fun clause _ => ?_
  show "if " ++ clause.1.render ++ " then return " ++ clause.2.render ++ ";" = _
  apply String.toList_inj.1
  simp [clauseText, returnText]

/-- The code of a match is written as a choice. -/
theorem render_choice (clauses : List (Code × Code)) (otherwise : Option (List Code)) :
    (choice (clauses.map clauseArm) otherwise).render =
      (choiceText clauses (otherwise.map .lines)).write := by
  cases clauses with
  | nil => cases otherwise <;> rfl
  | cons clause rest =>
    have hwrite : (choiceText (clause :: rest) (otherwise.map .lines)).write =
        "if " ++ Choice.writeClauses ((otherwise.map .lines).map Code.render)
          ((clause :: rest).map clauseText) := rfl
    have hne : (clause :: rest).map clauseText ≠ [] := List.cons_ne_nil _ _
    rw [hwrite, ← Choice.intercalate_clauses _ _ hne, ← renderAll_arms]
    cases otherwise with
    | none => rfl
    | some cs =>
      show String.intercalate " else" _ ++ " else " ++ _ ++ " end" = _ ++ (" else " ++ _ ++ " end")
      rw [String.append_assoc, String.append_assoc, String.append_assoc]

/-! ### How cases are lowered -/

/-- Things in a row, each from the session that the one before it leaves. -/
inductive InRow {α β : Type} (R : α → Session → β → Session → Prop) :
    List α → Session → List β → Session → Prop
  | nil (s : Session) : InRow R [] s [] s
  | cons {a : α} {as : List α} {b : β} {bs : List β} {s s₁ s' : Session} : R a s b s₁ →
      InRow R as s₁ bs s' → InRow R (a :: as) s (b :: bs) s'

section

variable (job : Job)

/-- A term is lowered to code with a value. -/
def LowersValue (t : Term) (s : Session) (code : Code) (s' : Session) : Prop :=
  (value t).exec job s = (.ok code, s') ∧ code.isDefinition = false

variable (subject : Code)

/-- An item of a list pattern, with its index, is lowered to the equality of the item of the subject
there. -/
def LowersItem (item : Term × Nat) (s : Session) (test : Code) (s' : Session) : Prop :=
  ∃ code, LowersValue job item.1 s code s' ∧
    test = .binary " == " (.item (indexable subject) item.2) code

/-- What the key of a case is lowered to. A list is tested item by item but for `_`, behind the test
that the subject is a table; any other key is compared with the subject. -/
inductive LowersTest : Term → Session → Code → Session → Prop
  | list {items : List Term} {span : Span} {tests : List Code} {s s' : Session} :
      InRow (LowersItem job subject)
        (items.zipIdx.filter fun item => !item.1.isName "_") s tests s' →
      LowersTest (.list items span) s (.every (.isTable subject :: tests)) s'
  | other {key : Term} {code : Code} {s s' : Session} : (∀ items span, key ≠ .list items span) →
      LowersValue job key s code s' → LowersTest key s (.binary " == " subject code) s'

/-- What is made of a case: a test and a value unless it is a last resort, and what is told. -/
structure CaseCode where
  clause : Option (Code × Code)
  events : List Event

/-- What a case is lowered to. A last resort is only remembered here. -/
inductive LowersCase : Term × Term → Session → CaseCode → Session → Prop
  | fallback {c : Term × Term} {s : Session} (events : List Event) : isFallback c = true →
      LowersCase c s ⟨none, events⟩ { s with log := s.log ++ events }
  | tested {key right : Term} {test branch : Code} {s s₁ s' : Session} :
      isFallback (key, right) = false → LowersValue job right s branch s₁ →
      LowersTest job subject key s₁ test s' →
      LowersCase (key, right) s ⟨some (test, branch), []⟩ s'

/-- What the last resort of a match is lowered to, if it has one: a body that returns a value. -/
inductive LowersFallback : Option Term → Session → Option (List Code) → Session → Prop
  | none (s : Session) : LowersFallback .none s .none s
  | some {t : Term} {cs : List Code} {s s' : Session} : (body term [t]).exec job s = (.ok cs, s') →
      (∀ c ∈ cs, c.Valued) → LowersFallback (.some t) s (.some cs) s'

/-- What a match is lowered to: first the value, then the cases in order, then the one of its last
resorts that stands last. -/
inductive LowersMatch (t : Term) (ts : List Term) (s : Session) :
    List CaseCode → Option (List Code) → Session → Prop
  | mk {subject : Code} {s₁ s₂ s' : Session} {codes : List CaseCode}
      {otherwise : Option (List Code)} : LowersValue job t s subject s₁ →
      InRow (LowersCase job subject) (casesOf ts) s₁ codes s₂ →
      LowersFallback job (((casesOf ts).filter isFallback).getLast?.map Prod.snd) s₂ otherwise s' →
      LowersMatch t ts s codes otherwise s'

/-- The tests of some cases, each with its value. -/
def clausesOf (codes : List CaseCode) : List (Code × Code) :=
  codes.filterMap CaseCode.clause

end

/-! ### Definitions in a match -/

/-- The terms that a key compares with. -/
def comparedTerms : Term → List Term
  | .list items _ => items
  | key => [key]

/-- The terms that the cases of a match compare with or return, without last resorts. -/
def casePlaces : List Term → List Term
  | key :: right :: rest =>
    if key.isName "_" then casePlaces rest else right :: (comparedTerms key ++ casePlaces rest)
  | _ => []

/-- A match neither compares nor returns a definition, though its last resort may be written as
one. -/
def MatchesValues (c : Call) (steps : List Step) : Prop :=
  ¬ Misplaced (c.args.take 1 ++ casePlaces (c.args.drop 1)) (fallback? (c.args.drop 1)).toList steps

variable {job : Job} {subject : Code} {s s' : Session} {u v : List Step} {places lasts : List Term}

theorem lowersValue {t : Term} {code : Code} (h : (value t).Gives job s code u s')
    (hplaced : ¬ Misplaced places lasts v) (ht : t ∈ places)
    (hu : Step.Everywhere (Step.Occurs · v) u) : LowersValue job t s code s' := by
  have hlowers := lowers_eval (lowers_term hereditary_true) trivial h
  exact ⟨(gives_iff.1 h).1, hlowers.isDefinition_branch hplaced ht hu⟩

theorem inRow_itemTests {ts : List Term} {index : Nat} {tests : List Code}
    (h : (itemTests term subject ts index).Gives job s tests u s')
    (hplaced : ¬ Misplaced places lasts v) (hts : ts ⊆ places)
    (hu : Step.Everywhere (Step.Occurs · v) u) :
    InRow (LowersItem job subject)
      ((ts.zipIdx index).filter fun item => !item.1.isName "_") s tests s' := by
  induction ts generalizing index s tests u with
  | nil =>
    obtain ⟨rfl, -, rfl⟩ := gives_pure.1 h
    exact .nil s'
  | cons t ts ih =>
    obtain ⟨ht, hts⟩ := List.cons_subset.1 hts
    rw [List.zipIdx_cons, List.filter_cons]
    by_cases hany : t.isName "_" = true
    · rw [itemTests, if_pos hany] at h
      rw [if_neg (by simp [hany])]
      exact ih h hts hu
    · rw [itemTests, if_neg hany] at h
      rw [if_pos (by simp [hany])]
      obtain ⟨code, _, s₁, _, hcode, hrest, rfl⟩ := gives_bind.1 h
      obtain ⟨tests', htests, rfl⟩ := gives_map.1 hrest
      exact .cons ⟨code, lowersValue hcode hplaced ht hu.left, rfl⟩ (ih htests hts hu.right)

theorem lowersTest_caseTest {key : Term} {test : Code}
    (h : (caseTest term subject key).Gives job s test u s')
    (hplaced : ¬ Misplaced places lasts v) (hkey : comparedTerms key ⊆ places)
    (hu : Step.Everywhere (Step.Occurs · v) u) : LowersTest job subject key s test s' := by
  cases key with
  | list items span =>
    obtain ⟨tests, htests, rfl⟩ := gives_map.1 h
    exact .list (inRow_itemTests htests hplaced hkey hu)
  | _ =>
    obtain ⟨code, hcode, rfl⟩ := gives_map.1 h
    exact .other (by simp) (lowersValue hcode hplaced (hkey (List.mem_singleton_self _)) hu)

/-- What is told about a last resort behind another one. -/
def repeatedFallback (job : Job) (c : Term × Term) : Event :=
  .warning "Repeated fallback case on when!" job.sourceName job.code c.1.span

theorem gives_warn_iff {message : String} {span : Span} {a : Unit} :
    (warn message span).Gives job s a u s' ↔ a = () ∧ u = [] ∧
      s' = { s with log := s.log ++ [.warning message job.sourceName job.code span] } :=
  (gives_bind_of_eq gives_read).trans gives_log

/-- The cases of a match are lowered in a row. A last resort is told unless it is the first. -/
theorem inRow_arms (hplaced : ¬ Misplaced places lasts v) : ∀ {ts : List Term} {seen : Bool}
    {as : List Code} {s : Session} {u : List Step}, casePlaces ts ⊆ places →
      (arms term subject ts seen).Gives job s as u s' → Step.Everywhere (Step.Occurs · v) u →
      ∃ codes, InRow (LowersCase job subject) (casesOf ts) s codes s' ∧
        as = (clausesOf codes).map clauseArm ∧
        codes.flatMap CaseCode.events =
          (((casesOf ts).filter isFallback).drop (if seen then 0 else 1)).map (repeatedFallback job)
  | [], seen, _, _, _, _, h, _ | [_], seen, _, _, _, _, h, _ => by
    obtain ⟨rfl, -, rfl⟩ := gives_pure.1 h
    exact ⟨[], .nil s', rfl, by simp [casesOf]⟩
  | key :: right :: rest, seen, as, s, _, hts, h, hu => by
    rw [casePlaces] at hts
    by_cases hany : key.isName "_" = true
    · -- the value of a last resort is not lowered here, so it is not one of the places
      have hcase : isFallback (key, right) = true := hany
      rw [arms, if_pos hany] at h
      rw [if_pos hany] at hts
      rw [casesOf, List.filter_cons, if_pos hcase]
      cases seen with
      | true =>
        obtain ⟨_, _, s₁, _, hwarn, hrest, rfl⟩ := gives_bind.1 h
        obtain ⟨-, -, rfl⟩ := gives_warn_iff.1 hwarn
        obtain ⟨codes, hrow, rfl, hevents⟩ := inRow_arms hplaced hts hrest hu.right
        refine ⟨⟨none, [repeatedFallback job (key, right)]⟩ :: codes,
          .cons (.fallback _ hcase) hrow, rfl, ?_⟩
        rw [List.flatMap_cons, hevents]
        rfl
      | false =>
        obtain ⟨codes, hrow, rfl, hevents⟩ := inRow_arms hplaced hts h hu
        refine ⟨⟨none, []⟩ :: codes, .cons (.fallback [] hcase) ?_, rfl, ?_⟩
        · simpa using hrow
        · rw [List.flatMap_cons, hevents]
          rfl
    · have hcase : isFallback (key, right) = false := by simpa [isFallback] using hany
      rw [arms, if_neg hany] at h
      rw [if_neg hany] at hts
      obtain ⟨hright, hts⟩ := List.cons_subset.1 hts
      obtain ⟨hkey, hrest⟩ := List.append_subset.1 hts
      -- the value comes before the test, though the test is written first
      obtain ⟨branch, _, s₁, _, hbranch, h', rfl⟩ := gives_bind.1 h
      obtain ⟨test, _, s₂, _, htest, h'', rfl⟩ := gives_bind.1 h'
      obtain ⟨as', has', rfl⟩ := gives_map.1 h''
      obtain ⟨codes, hrow, rfl, hevents⟩ := inRow_arms hplaced hrest has' hu.right.right
      refine ⟨⟨some (test, branch), []⟩ :: codes, ?_, rfl, ?_⟩
      · exact .cons (.tested hcase (lowersValue hbranch hplaced hright hu.left)
          (lowersTest_caseTest htest hplaced hkey hu.right.left)) hrow
      · rw [casesOf, List.filter_cons, hcase, List.flatMap_cons, hevents]
        rfl

/-- Only last resorts make no clause. -/
theorem isEmpty_clausesOf {cases : List (Term × Term)} {codes : List CaseCode}
    (h : InRow (LowersCase job subject) cases s codes s') :
    (clausesOf codes).isEmpty = cases.all isFallback := by
  induction h with
  | nil => rfl
  | cons hcase _ ih =>
    cases hcase with
    | fallback events hfallback => simpa [clausesOf, hfallback] using ih
    | tested hfallback _ _ => simp [clausesOf, hfallback]

/-- A body of one term returns a value, if the term is not a definition that the body cannot
tell. -/
theorem valued_body {t : Term} {cs : List Code} (h : (body term [t]).Gives job s cs u s')
    (hplaced : ¬ Misplaced places [t] v) (hu : Step.Everywhere (Step.Occurs · v) u) :
    ∀ c ∈ cs, c.Valued := by
  have hlowers := lowers_body (lowers_term hereditary_true) (fun _ _ => trivial) h
  generalize hf : Fragment.body [t] = f at hlowers
  cases hlowers with
  | @bodyLast _ _ definition _ _ _ _ hdefinition _ hlowers =>
    cases hf
    cases definition with
    | true => simp [Code.Valued, Code.returned?, giveUnit, Code.isDefinition]
    | false =>
      refine List.forall_mem_singleton.2 ?_
      rintro d ⟨rfl⟩
      refine hlowers.isDefinition_last (fun hmisplaced => hplaced ?_)
        (gives_isDefinition.1 hdefinition).1.symm
      exact hmisplaced.mono (List.nil_subset _) (List.Subset.refl _) hu
  | _ => cases hf

theorem lowersFallback_mapM {t : Option Term} {otherwise : Option (List Code)}
    (h : (t.mapM fun t => body term [t]).Gives job s otherwise u s')
    (hplaced : ¬ Misplaced places t.toList v) (hu : Step.Everywhere (Step.Occurs · v) u) :
    LowersFallback job t s otherwise s' := by
  cases t with
  | none =>
    obtain ⟨rfl, -, rfl⟩ := gives_pure.1 h
    exact .none s'
  | some t =>
    rw [Option.mapM_some] at h
    obtain ⟨cs, hcs, rfl⟩ := gives_map.1 h
    exact .some (gives_iff.1 hcs).1 (valued_body hcs hplaced hu)

theorem lowersMatch_matching {c : Call} {code : Code}
    (h : (matching term c).Gives job s code u s') (hvalues : MatchesValues c u) :
    ∃ t ts codes otherwise, c.args = t :: ts ∧ ts.length % 2 = 0 ∧
      LowersMatch job t ts s codes otherwise s' ∧
      code = .thunk job.options.variadic (choice ((clausesOf codes).map clauseArm) otherwise) ∧
      codes.flatMap CaseCode.events =
        (((casesOf ts).filter isFallback).drop 1).map (repeatedFallback job) := by
  obtain ⟨target, args, span⟩ := c
  cases args with
  | nil => exact (not_gives_refuse h).elim
  | cons t ts =>
    obtain ⟨heven, hk⟩ := gives_guard.1 h
    obtain ⟨subject, v₁, s₁, _, hsubject, hk', rfl⟩ := gives_bind.1 hk
    obtain ⟨as, v₂, s₂, _, harms, hk'', rfl⟩ := gives_bind.1 hk'
    obtain ⟨otherwise, v₃, s₃, v₄, hfallback, hthunk, rfl⟩ := gives_bind.1 hk''
    obtain ⟨rfl, -, rfl⟩ := gives_thunk.1 hthunk
    have hplaced : ¬ Misplaced (t :: casePlaces ts) (fallback? ts).toList _ := hvalues
    have hu := Step.everywhere_occurs (v₁ ++ (v₂ ++ (v₃ ++ v₄)))
    have hsubject := lowersValue hsubject hplaced (List.mem_cons_self ..) hu.left
    obtain ⟨codes, hrow, rfl, hevents⟩ :=
      inRow_arms hplaced (List.subset_cons_self _ _) harms hu.right.left
    have hlast := lowersFallback_mapM hfallback hplaced hu.right.right.left
    rw [fallback?_eq] at hlast
    exact ⟨t, ts, codes, otherwise, rfl, not_not.1 heven, .mk hsubject hrow hlast, rfl, hevents⟩

/-! ### The emitted text -/

theorem reads_returnText {value : Code} (h : Formed .value value) :
    Reads (returnText value).toList := by
  have hpieces : (returnText value).toList =
      [Lua.Piece.text "return ", .gap value.render, .text ";"].flatMap Lua.Piece.chars := by
    simp [returnText, Lua.Piece.chars]
  rw [hpieces]
  exact .of_walk rfl ⟨h.holds.1, trivial⟩

/-- The code of a match closes what it opens, if all of it is code of the right kind. -/
theorem closed_choiceText {variadic : Bool} {clauses : List (Code × Code)}
    {otherwise : Option (List Code)}
    (h : Formed .value (.thunk variadic (choice (clauses.map clauseArm) otherwise)))
    (hne : clauses ≠ []) : (choiceText clauses (otherwise.map .lines)).Closed := by
  have harms : (∀ c ∈ clauses.map clauseArm, Formed .arm c) →
      ∀ clause ∈ clauses.map clauseText, Reads clause.1.toList ∧ Reads clause.2.toList := by
    intro h
    refine List.forall_mem_map.2 fun clause hclause => ?_
    cases h _ (List.mem_map_of_mem hclause) with
    | arm htest hvalue => exact ⟨htest.holds.1, reads_returnText hvalue⟩
  obtain ⟨clause, rest, rfl⟩ := List.exists_cons_of_ne_nil hne
  cases h with
  | thunk h =>
    cases otherwise with
    | none =>
      cases h with
      | choose _ hclauses => exact ⟨harms hclauses, by simp [choiceText]⟩
    | some cs =>
      cases h with
      | chooseElse _ hclauses hlast =>
        refine ⟨harms hclauses, ?_⟩
        rintro block ⟨rfl⟩
        exact hlast.holds

/-- Code that takes the first of some clauses whose test holds: it is a function that is called at
once, and the text inside is read as a choice. -/
structure TakesFirst (variadic : Bool) (clauses : List (Code × Code))
    (otherwise : Option (List Code)) (code : Code) (inside : String) (choice : Choice) : Prop where
  text : code.render = "(function(" ++ ellipsis variadic ++ ") " ++ inside ++
    " end)(" ++ ellipsis variadic ++ ")"
  /-- One chain with one `end`, or the last resort alone. -/
  read : if clauses = [] then choice.clauses = [] ∧ inside = choice.otherwise.getD ""
    else Choice.read inside = some choice ∧ Choice.ends inside = 1
  tests : choice.clauses.map Prod.fst = clauses.map (·.1.render)
  /-- Whatever tests hold, the value behind the first of them is returned. -/
  first (holds : Nat → Bool) (i : Nat) (clause : Code × Code) : clauses[i]? = some clause →
    holds i = true → (∀ j < i, holds j = false) → choice.run holds = some (returnText clause.2)
  /-- If none holds, the last resort is executed. -/
  last (holds : Nat → Bool) : (∀ i < clauses.length, holds i = false) →
    choice.run holds = otherwise.map fun cs => (Code.lines cs).render

theorem takesFirst_choice {variadic : Bool} {clauses : List (Code × Code)}
    {otherwise : Option (List Code)}
    (h : Formed .value (.thunk variadic (choice (clauses.map clauseArm) otherwise))) :
    TakesFirst variadic clauses otherwise
      (.thunk variadic (choice (clauses.map clauseArm) otherwise))
      (choiceText clauses (otherwise.map .lines)).write
      (choiceText clauses (otherwise.map .lines)) where
  text := by
    rw [← render_choice]
    rfl
  read := by
    split
    · rename_i hnil
      rw [hnil]
      exact ⟨rfl, rfl⟩
    · rename_i hne
      have hclosed := closed_choiceText h hne
      have hclauses : (choiceText clauses (otherwise.map .lines)).clauses ≠ [] := by
        simpa [choiceText] using hne
      exact ⟨Choice.read_write hclosed hclauses, Choice.ends_write hclosed hclauses⟩
  tests := by simp [choiceText, clauseText]
  first holds i clause hclause hi hearlier := by
    have htext : (clauses.map clauseText)[i]? = some (clauseText clause) := by simp [hclause]
    exact Choice.run_of_first htext hi hearlier
  last holds hnone := by
    rw [Choice.run_of_none fun i hi => hnone i (by simpa [choiceText] using hi)]
    exact Option.map_map _ _ _

/-- A match that is lowered is a value with an even row of keys and values. Its code takes the first
case whose test holds, and else the last of the cases `_`, wherever that stands: if the names that
are emitted as they are written are names of Lua, and what is compared and returned has a value. The
choice it is written as has one `end`, and is none if all keys are `_`. Each case `_` behind the
first is told. -/
theorem match_takes_first_case {c : Call} {code : Code} (hform : s.form? c = some .matching)
    (hcode : (value c.term).exec job s = (.ok code, s')) (hs : s.Clean) (hc : c.term.Emittable)
    (hdeclares : Step.Everywhere (·.declaresNames = true) ((value c.term).steps job s))
    (hvalues : MatchesValues c ((value c.term).steps job s)) :
    ∃ t ts codes otherwise inside choice, c.args = t :: ts ∧ ts.length % 2 = 0 ∧
      LowersMatch job t ts s codes otherwise s' ∧
      TakesFirst job.options.variadic (clausesOf codes) otherwise code inside choice ∧
      (clausesOf codes = [] ↔ ∀ case ∈ casesOf ts, isFallback case = true) ∧
      codes.flatMap CaseCode.events =
        (((casesOf ts).filter isFallback).drop 1).map (repeatedFallback job) := by
  have hgives := gives_iff.2 ⟨hcode, rfl⟩
  have hlowers := lowers_eval (lowers_term hereditary_emittable) hc hgives
  have hformed := List.forall_mem_singleton.1 (hlowers.formed hs trivial hdeclares).2
  obtain ⟨stmt, hstmt, hcode'⟩ := gives_map.1 hgives
  obtain ⟨v, hmatching, hsteps⟩ := gives_form hform rfl hstmt
  rw [hsteps] at hvalues
  have hinner : MatchesValues c v := fun h => hvalues
    (h.mono (List.Subset.refl _) (List.Subset.refl _) (Step.everywhere_occurs [.call c s v]).call)
  subst hcode'
  obtain ⟨t, ts, codes, otherwise, hargs, heven, hmatch, heq, hevents⟩ :=
    lowersMatch_matching hmatching hinner
  rw [heq] at hformed ⊢
  refine ⟨t, ts, codes, otherwise, _, _, hargs, heven, hmatch, takesFirst_choice hformed, ?_,
    hevents⟩
  obtain ⟨-, hrow, -⟩ := hmatch
  rw [← List.isEmpty_iff, isEmpty_clausesOf hrow, List.all_eq_true]

/-- `(when 5 _ 1 [_ 4] 2 _ 3)`: a list is matched between two last resorts. -/
def betweenFallbacks : Call :=
  ⟨.name ⟨"when", .none⟩, [.number ⟨"5", .none⟩, .name ⟨"_", .none⟩, .number ⟨"1", .none⟩,
    .list [.name ⟨"_", .none⟩, .number ⟨"4", .none⟩] .none, .number ⟨"2", .none⟩,
    .name ⟨"_", .none⟩, .number ⟨"3", .none⟩], .none⟩

theorem match_takes_first_case_between :
    ∃ (code : Code) (s' : Session), Session.start.form? betweenFallbacks = some .matching ∧
      (value betweenFallbacks.term).exec default Session.start = (.ok code, s') ∧
      code.render = "(function() if type(5) == 'table' and (5)[1] == 4 then return 2; " ++
        "else return 3; end end)()" ∧
      Session.start.Clean ∧ betweenFallbacks.term.Emittable ∧
      Step.Everywhere (·.declaresNames = true)
        ((value betweenFallbacks.term).steps default Session.start) ∧
      MatchesValues betweenFallbacks ((value betweenFallbacks.term).steps default Session.start) ∧
      ∃ t ts codes otherwise inside choice,
        betweenFallbacks.args = t :: ts ∧ ts.length % 2 = 0 ∧
        LowersMatch default t ts Session.start codes otherwise s' ∧
        TakesFirst false (clausesOf codes) otherwise code inside choice ∧
        (clausesOf codes = [] ↔ ∀ case ∈ casesOf ts, isFallback case = true) ∧
        codes.flatMap CaseCode.events =
          (((casesOf ts).filter isFallback).drop 1).map (repeatedFallback default) := by
  have hcode : (value betweenFallbacks.term).exec default Session.start =
      (.ok (.thunk false (.chooseElse
        [.arm (.every [.isTable (.word "5"),
          .binary " == " (.item (.paren (.word "5")) 1) (.word "4")]) (.word "2")]
        (.lines [.give true (.word "3")]))),
      { Session.start with
        log := [repeatedFallback default (.name ⟨"_", .none⟩, .number ⟨"3", .none⟩)] }) :=
    (exec_value_form rfl rfl).trans rfl
  have hsteps : (value betweenFallbacks.term).steps default Session.start =
      [.call betweenFallbacks Session.start []] := rfl
  have hc : betweenFallbacks.term.Emittable := by
    have hany : (Term.name ⟨"_", .none⟩).Emittable := .name rfl
    have hnumber : ∀ text, isIndex text = true → (Term.number ⟨text, .none⟩).Emittable :=
      fun text h => .number (.index h)
    have hlist : (Term.list [.name ⟨"_", .none⟩, .number ⟨"4", .none⟩] .none).Emittable :=
      .list (by simp [hany, hnumber "4" rfl])
    refine .call (.name rfl) ?_
    simp [betweenFallbacks, hany, hlist, hnumber "5" rfl, hnumber "1" rfl, hnumber "2" rfl,
      hnumber "3" rfl]
  have hdeclares : Step.Everywhere (·.declaresNames = true)
      ((value betweenFallbacks.term).steps default Session.start) := by
    rw [hsteps]
    exact Step.everywhere_of_flatten (by decide)
  have hvalues : MatchesValues betweenFallbacks
      ((value betweenFallbacks.term).steps default Session.start) := by
    rw [hsteps]
    rintro ⟨c, _, _, hoccurs, -, hc⟩
    have hcall := List.mem_singleton.1 (Step.mem_flatten_of_occurs hoccurs)
    cases hcall
    simp [betweenFallbacks, Call.term, casePlaces, comparedTerms, fallback?, Term.isName] at hc
  exact ⟨_, _, rfl, hcode, rfl, .start, hc, hdeclares, hvalues,
    match_takes_first_case rfl hcode .start hc hdeclares hvalues⟩

/-- A match whose case is a definition. -/
def defining : Job :=
  ⟨.library, "test.crn", "(when 1 1 (def x 2))"⟩

/-- The definition is written behind `return`, where Lua refuses it. -/
theorem match_returns_definition :
    (compile defining.code defining.sourceName defining.options).1.toOption =
      some ("local charon = require 'charon-runtime';\nlocal __local_package = \x7b\x7d;\n" ++
        "(function() if 1 == 1 then return __local_package[\"x\"] = 2;; end end)();\n" ++
        "return __local_package;\n") := by
  decide +kernel

end Gen

end LispLua
