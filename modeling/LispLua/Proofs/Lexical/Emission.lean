import LispLua.Proofs.Lexical.Source
import LispLua.Proofs.Lowering.Sound

/-!
# The lexical shape of emitted statements

Whatever a program is lowered to is code of the right kind, so its text closes all strings,
comments, brackets and blocks that it opens. Two kinds of names are emitted as they are written:
those behind access operators and those that a `declare` lists; these have to be names of Lua.
-/

namespace LispLua

open Lua

/-- Whether a call does not declare names that are no names of Lua. -/
def Step.declaresNames : Step → Bool
  | .call c s _ =>
    s.form? c != some .declare || c.args.all fun t =>
      match t with
      | .name t => isIdentifier t.text
      | _ => true
  | .layer _ _ => true

/-! ### Kinds of fragments -/

/-- The kind of the code that a fragment is lowered to. -/
def Fragment.codeKind : Fragment → CodeKind
  | .entries _ _ => .entry
  | .arms _ _ => .arm
  | .body _ => .line
  | _ => .value

/-- The texts that get into the code of a fragment on their own can be emitted. -/
def Fragment.Ready : Fragment → Prop
  | .key _ t => t.Emittable
  | .entries _ ts | .imports ts | .clauses ts => ∀ t ∈ ts, t.Emittable
  | .tests subject _ _ | .arms subject _ => Formed .value subject
  | .named _ _ t _ _ => (Term.name t).Emittable
  | .form f c => (∀ t ∈ c.args, t.Emittable) ∧
      (f = .declare → ∀ t, .name t ∈ c.args → isIdentifier t.text = true)
  | _ => True

variable {job : Job} {s s' : Session} {u : List Step}

theorem ready_form {form : Form} {c : Call} (hc : c.term.Emittable)
    (hform : s.form? c = some form)
    (h : Step.Everywhere (·.declaresNames = true) [.call c s u]) :
    (Fragment.form form c).Ready := by
  refine ⟨hc.args_of_call, ?_⟩
  rintro rfl t ht
  have hnames := h.head
  simp only [Step.declaresNames, hform, bne_self_eq_false, Bool.false_or,
    List.all_eq_true] at hnames
  exact hnames _ ht

namespace Lua

theorem formed_accesses {segments : List Segment} {root code : Code}
    (h : Accesses segments root code)
    (hsegments : ∀ x ∈ segments, isIdentifier x.name.text = true) (hroot : Formed .value root) :
    Formed .value code := by
  induction h with
  | root => exact hroot
  | field hx _ ih => exact .field (hsegments _ hx) ih
  | method hx _ ih => exact .method (hsegments _ hx) ih

theorem formed_part {value part : Code} (h : Session.Part value part)
    (hvalue : Formed .value value) : Formed .value part := by
  induction h with
  | self => exact hvalue
  | paren => exact .paren hvalue
  | item index _ ih => exact .item ih

theorem formed_destructs {value : Code} {bs : List Code} (h : s.Destructs value bs s')
    (hvalue : Formed .value value) : ∀ b ∈ bs, Formed .value b := by
  induction h with
  | nil => simp
  | cons t hpart _ ih =>
    exact List.forall_mem_cons.2 ⟨.bind (isIdentifier_mangle t.text) (formed_part hpart hvalue), ih⟩

theorem formed_indexable {c : Code} (h : Formed .value c) : Formed .value (Gen.indexable c) := by
  unfold Gen.indexable
  split
  · exact h
  · exact .paren h

theorem formed_equal {c d : Code} (hc : Formed .value c) (hd : Formed .value d) :
    Formed .value (.binary " == " c d) :=
  .binary .equals rfl rfl hc hd

theorem formed_giveUnit : Formed .line Gen.giveUnit :=
  .give (.inl rfl) (.word (.reference (by decide) (by decide)))

theorem formed_choice {cs : List Code} {otherwise : Option (List Code)}
    (h : ∀ c ∈ cs, Formed .arm c)
    (hotherwise : ∀ ds, otherwise = some ds → ∀ d ∈ ds, Formed .line d) :
    Formed .block (Gen.choice cs otherwise) := by
  cases cs with
  | nil =>
    cases otherwise with
    | none => exact .lines (by simp)
    | some ds => exact .lines (hotherwise ds rfl)
  | cons c cs =>
    cases otherwise with
    | none => exact .choose (by simp) h
    | some ds => exact .chooseElse (by simp) h (.lines (hotherwise ds rfl))

/-! ### Operators -/

/-- A value that can stand behind a minus sign. -/
def IsOperand (c : Code) : Prop :=
  Formed .value c ∧ c.render.toList.head? ≠ some '-'

theorem isOperand_operand {c : Code} (h : Formed .value c) : IsOperand (Gen.operand c) := by
  unfold Gen.operand
  split
  · exact ⟨.paren h, by rw [Code.render_eq]; exact (by decide : some '(' ≠ some '-')⟩
  · exact ⟨h, ‹_›⟩

theorem isOperand_chain (op : Operator) {cs : List Code} (h : ∀ c ∈ cs, IsOperand c) :
    IsOperand (.chain op.text cs) :=
  ⟨.chain op (fun c hc => (h c hc).1) fun c hc => (h c hc).2,
    by rw [Code.render_eq]; exact (by decide : some '(' ≠ some '-')⟩

theorem isOperand_binary (op : Operator) (hop : op.isComparison = true) {c d : Code}
    (hc : IsOperand c) (hd : IsOperand d) : IsOperand (.binary op.text c d) := by
  have hformed : Formed .value (.binary op.text c d) := by
    cases op <;> first | exact .binary (.operator _) rfl rfl hc.1 hd.1 | cases hop
  refine ⟨hformed, ?_⟩
  have hstart := hc.1.holds.2
  have hhead := hc.2
  rw [Code.render_eq]
  show (c.render.toList ++ _).head? ≠ _
  generalize c.render.toList = ds at hstart hhead
  cases ds with
  | nil => cases hstart
  | cons d ds => exact hhead

theorem isOperand_power (target : Target) {c d : Code} (hc : IsOperand c) (hd : IsOperand d) :
    IsOperand (Gen.power target c d) := by
  unfold Gen.power
  split
  · exact ⟨.power hc.1 hd.1, by rw [Code.render_eq]; exact (by decide : some 'm' ≠ some '-')⟩
  · exact isOperand_chain .pow (by simp [hc, hd])

theorem isOperand_powers (target : Target) {first : Code} {rest : List Code}
    (hfirst : IsOperand first) (hrest : ∀ c ∈ rest, IsOperand c) :
    IsOperand (rest.foldl (Gen.power target) first) := by
  induction rest generalizing first with
  | nil => exact hfirst
  | cons c rest ih =>
    obtain ⟨hc, hrest⟩ := List.forall_mem_cons.1 hrest
    exact ih (isOperand_power target hfirst hc) hrest

theorem formed_combine (op : Operator) (target : Target) {cs : List Code}
    (h : ∀ c ∈ cs, IsOperand c) : Formed .value (Gen.combine op target cs) := by
  unfold Gen.combine
  split
  · rename_i hop
    refine (isOperand_chain .and fun c hc => ?_).1
    obtain ⟨ab, hab, rfl⟩ := List.mem_map.1 hc
    obtain ⟨ha, hb⟩ := Code.forall_mem_uniquePairs h ab hab
    exact isOperand_binary op hop ha hb
  · split
    · exact .negate (isOperand_chain .nand h).1
    · exact .negate (isOperand_chain .nor h).1
    · obtain ⟨hfirst, hrest⟩ := List.forall_mem_cons.1 h
      exact (isOperand_powers target hfirst hrest).1
    · exact (isOperand_chain op h).1

end Lua

/-! ### The rules -/

/-- The rules make code of the right kind, and what they declare can be referred to. -/
theorem Lowers.formed {f : Fragment} {cs : List Code}
    (h : Lowers Term.Emittable job f s cs u s') :
    s.Clean → f.Ready → Step.Everywhere (·.declaresNames = true) u →
      s'.Clean ∧ ∀ c ∈ cs, Formed f.codeKind c := by
  have hthunk : ∀ {v : Bool} {c : Code}, Formed .block c →
      ∀ d ∈ [Code.thunk v c], Formed .value d := by
    intro v c hc
    exact List.forall_mem_singleton.2 (.thunk hc)
  have hone : ∀ {k : CodeKind} {c : Code}, (∀ d ∈ [c], Formed k d) → Formed k c :=
    List.forall_mem_singleton.1
  induction h with
  | list _ _ ih =>
    intro hs _ hu
    obtain ⟨hs', hcs⟩ := ih hs trivial hu
    exact ⟨hs', List.forall_mem_singleton.2 (.list hcs)⟩
  | @table _ escaped _ _ _ _ _ ht _ ih =>
    intro hs _ hu
    obtain ⟨hs', hcs⟩ := ih hs (hereditary_emittable.cells ht) hu
    refine ⟨hs', List.forall_mem_singleton.2 ?_⟩
    cases escaped with
    | true => exact .record hcs
    | false => exact .table hcs
  | path ht hfind hform haccesses =>
    intro hs _ _
    cases ht with
    | path hsegments =>
      have hroot := hs.formed_reference hfind hform hs.package
      exact ⟨hs, List.forall_mem_singleton.2 (formed_accesses haccesses hsegments hroot)⟩
  | nameForm _ hfind _ hf =>
    intro hs _ _
    exact ⟨hs, List.forall_mem_singleton.2 (Session.Clean.formed_function hfind hf)⟩
  | name _ hfind hform =>
    intro hs _ _
    exact ⟨hs, List.forall_mem_singleton.2 (hs.formed_reference hfind hform hs.package)⟩
  | symbol ht =>
    intro hs _ _
    cases ht with
    | symbol h =>
      exact ⟨hs, List.forall_mem_singleton.2 (.symbol (stays_of_isSubsequent (.inl rfl) h))⟩
  | number ht =>
    intro hs _ _
    cases ht with
    | number h => exact ⟨hs, List.forall_mem_singleton.2 (.word h)⟩
  | string ht =>
    intro hs _ _
    cases ht with
    | string h => exact ⟨hs, List.forall_mem_singleton.2 (.word h)⟩
  | indexed _ _ _ ih =>
    intro hs _ hu
    exact ih hs trivial hu.call
  | self _ _ _ ih =>
    intro hs _ hu
    obtain ⟨hs', hcs⟩ := ih hs trivial hu.call
    have hself : Formed .value (.word "__self_ref__") := .word (.name (by decide))
    exact ⟨hs', List.forall_mem_singleton.2 (.call hself hcs)⟩
  | reached ht _ htarget hfind hform haccesses _ ih =>
    intro hs _ hu
    obtain ⟨hs', hcs⟩ := ih hs trivial hu.call
    have hpath := ht.target_of_call
    simp only [htarget] at hpath
    cases hpath with
    | path hsegments =>
      have hroot := hs.formed_reference hfind hform hs.package
      have hcallee := formed_accesses haccesses hsegments hroot
      exact ⟨hs', List.forall_mem_singleton.2 (.call hcallee hcs)⟩
  | through _ _ _ hfind hform _ ih =>
    intro hs _ hu
    obtain ⟨hs', hcs⟩ := ih hs trivial hu.call
    have hcallee := hs.formed_reference hfind hform hs'.package
    exact ⟨hs', List.forall_mem_singleton.2 (.call hcallee hcs)⟩
  | special ht hform _ ih =>
    intro hs _ hu
    exact ih hs (ready_form ht hform hu) hu.call
  | valuesNil | argsNil | bodyNil | entriesNil | testsNil | clausesNil | pairsNil | armsNil =>
    intro hs _ _
    exact ⟨hs, by simp⟩
  | valuesCons _ _ ih ih' | argsCons _ _ ih ih' =>
    intro hs _ hu
    obtain ⟨hs₁, hc⟩ := ih hs trivial hu.left
    obtain ⟨hs', hcs⟩ := ih' hs₁ trivial hu.right
    exact ⟨hs', List.forall_mem_cons.2 ⟨hone hc, hcs⟩⟩
  | argsForm hfind _ hf _ ih =>
    intro hs _ hu
    obtain ⟨hs', hcs⟩ := ih hs trivial hu
    exact ⟨hs', List.forall_mem_cons.2 ⟨Session.Clean.formed_function hfind hf, hcs⟩⟩
  | keyQuoted =>
    intro hs ht _
    cases ht with
    | symbol h =>
      exact ⟨hs, List.forall_mem_singleton.2 (.quoted (stays_of_isSubsequent (.inl rfl) h))⟩
  | keyTerm _ ih =>
    intro hs _ hu
    exact ih hs trivial hu
  | entriesLast _ hfind hform ih =>
    intro hs hts hu
    obtain ⟨hs', hc⟩ := ih hs (hts _ (by simp)) hu
    have hunit := hs'.formed_reference hfind hform hs'.package
    exact ⟨hs', List.forall_mem_singleton.2 (.entry (hone hc) hunit)⟩
  | entriesCons _ _ _ ih ih' ih'' =>
    intro hs hts hu
    obtain ⟨hk, hrest⟩ := List.forall_mem_cons.1 hts
    obtain ⟨-, hts⟩ := List.forall_mem_cons.1 hrest
    obtain ⟨hs₁, hc⟩ := ih hs hk hu.left
    obtain ⟨hs₂, hd⟩ := ih' hs₁ trivial hu.right.left
    obtain ⟨hs', hcs⟩ := ih'' hs₂ hts hu.right.right
    exact ⟨hs', List.forall_mem_cons.2 ⟨.entry (hone hc) (hone hd), hcs⟩⟩
  | @bodyLast _ _ definition _ _ _ _ _ hseparated _ ih =>
    intro hs _ hu
    obtain ⟨hs', hc⟩ := ih hs trivial hu
    refine ⟨hs', ?_⟩
    cases definition with
    | true =>
      exact List.forall_mem_cons.2
        ⟨.run hseparated (hone hc), List.forall_mem_singleton.2 formed_giveUnit⟩
    | false => exact List.forall_mem_singleton.2 (.give hseparated (hone hc))
  | bodyCons hseparated _ _ ih ih' =>
    intro hs _ hu
    obtain ⟨hs₁, hc⟩ := ih hs trivial hu.left
    obtain ⟨hs', hcs⟩ := ih' hs₁ trivial hu.right
    exact ⟨hs', List.forall_mem_cons.2 ⟨.run hseparated (hone hc), hcs⟩⟩
  | pairsCons _ hdestructs _ _ ih ih' =>
    intro hs _ hu
    obtain ⟨hs₁, hc⟩ := ih hs trivial hu.left
    obtain ⟨hs', hcs⟩ := ih' (hs₁.destructs hdestructs) trivial hu.right
    have hbs := formed_destructs hdestructs (hone hc)
    exact ⟨hs', List.forall_mem_append.2 ⟨hbs, hcs⟩⟩
  | testsAny _ ih =>
    intro hs hsubject hu
    exact ih hs hsubject hu
  | testsCons _ _ ih ih' =>
    intro hs hsubject hu
    obtain ⟨hs₁, hc⟩ := ih hs trivial hu.left
    obtain ⟨hs', hcs⟩ := ih' hs₁ hsubject hu.right
    have hitem := formed_indexable hsubject
    exact ⟨hs', List.forall_mem_cons.2 ⟨formed_equal (.item hitem) (hone hc), hcs⟩⟩
  | armsAny _ ih =>
    intro hs hsubject hu
    exact ih (hs.withLog _) hsubject hu
  | armsList _ _ _ ih ih' ih'' =>
    intro hs hsubject hu
    obtain ⟨hs₁, hvalue⟩ := ih hs trivial hu.left
    obtain ⟨hs₂, htests⟩ := ih' hs₁ hsubject hu.right.left
    obtain ⟨hs', hcs⟩ := ih'' hs₂ hsubject hu.right.right
    have hevery : Formed .value (.every _) :=
      .every (by simp) (List.forall_mem_cons.2 ⟨.isTable hsubject, htests⟩)
    exact ⟨hs', List.forall_mem_cons.2 ⟨.arm hevery (hone hvalue), hcs⟩⟩
  | armsTerm _ _ _ _ ih ih' ih'' =>
    intro hs hsubject hu
    obtain ⟨hs₁, hvalue⟩ := ih hs trivial hu.left
    obtain ⟨hs₂, hc⟩ := ih' hs₁ trivial hu.right.left
    obtain ⟨hs', hcs⟩ := ih'' hs₂ hsubject hu.right.right
    have htest := formed_equal hsubject (hone hc)
    exact ⟨hs', List.forall_mem_cons.2 ⟨.arm htest (hone hvalue), hcs⟩⟩
  | importWhole _ ih =>
    intro hs _ hu
    obtain ⟨hs', hc⟩ := ih hs trivial hu
    exact ⟨hs', List.forall_mem_singleton.2 (.load (hone hc))⟩
  | importNamed =>
    intro hs hts _
    have hname := (List.forall_mem_singleton.1 hts).quotable
    exact ⟨hs, List.forall_mem_singleton.2 (.load (.quoted hname))⟩
  | importAs _ ih =>
    intro hs _ hu
    obtain ⟨hs', hc⟩ := ih hs trivial hu
    refine ⟨hs'.withLocal _, List.forall_mem_singleton.2 ?_⟩
    exact .loadAs (isIdentifier_mangle _) (hone hc)
  | importMembers _ hbinds htokens ih =>
    intro hs hts hu
    obtain ⟨tokens, rfl, rfl⟩ := htokens
    obtain ⟨hs₁, hc⟩ := ih hs trivial hu
    have hitems := hereditary_emittable.items (List.forall_mem_cons.1 hts).1
    refine ⟨hs₁.binds hbinds, List.forall_mem_singleton.2 (.loadMembers ?_ (hone hc))⟩
    refine List.forall_mem_map.2 fun t ht => ⟨isIdentifier_mangle t.text, ?_⟩
    exact (hitems _ (List.mem_map_of_mem ht)).quotable
  | clausesCons hclause _ _ ih ih' =>
    intro hs hts hu
    obtain ⟨ht, hrest⟩ := List.forall_mem_cons.1 hts
    obtain ⟨hs₁, hc⟩ := ih hs (ht.of_clause hclause) hu.left
    obtain ⟨hs', hcs⟩ := ih' hs₁ hrest hu.right
    exact ⟨hs', List.forall_mem_cons.2 ⟨hone hc, hcs⟩⟩
  | closureEmpty hbinds _ =>
    intro hs _ _
    refine ⟨hs.binds hbinds, List.forall_mem_singleton.2 (.closure hbinds.isIdentifier ?_)⟩
    exact .lines (List.forall_mem_singleton.2 formed_giveUnit)
  | closure hbinds _ _ ih =>
    intro hs _ hu
    obtain ⟨hs', hcs⟩ := ih (hs.binds hbinds) trivial hu
    exact ⟨hs', List.forall_mem_singleton.2 (.closure hbinds.isIdentifier (.lines hcs))⟩
  | @named _ _ _ rest _ _ _ _ _ kind _ _ _ hidden hregister hlog _ ih =>
    intro hs ht hu
    obtain ⟨rfl, -⟩ := Session.register_cases hregister
    have hb := Binding.clean_function ht kind hidden (Gen.isGlobal rest)
    have hs₁ := hs.register hregister hb
    subst hlog
    obtain ⟨hs₃, hc⟩ := ih ((hs₁.withLog _).enter _) trivial hu.layer
    refine ⟨hs₃.leave, List.forall_mem_singleton.2 ?_⟩
    split
    · rename_i hlocal
      simp only [Bool.and_eq_true, Bool.not_eq_true'] at hlocal
      refine .declareThen ?_ (hone hc)
      simp only [Binding.declare, hlocal.2, Bool.false_eq_true, if_false, isIdentifier_mangle]
    · exact .assign (hb.formed_reference hs₃.package) (hone hc)
  | defineFunction hargs _ _ ih =>
    intro hs hready hu
    exact ih hs (hready.1 _ (by simp [hargs])) hu
  | function hargs _ _ ih =>
    intro hs hready hu
    exact ih hs (hready.1 _ (by simp [hargs])) hu
  | defineValue hargs _ _ hregister ih =>
    intro hs hready hu
    obtain ⟨hs₁, hc⟩ := ih hs trivial hu
    have hterms := hready.1
    rw [hargs] at hterms
    obtain ⟨hname, -⟩ := List.forall_mem_cons.1 hterms
    obtain ⟨rfl, -⟩ := Session.register_cases hregister
    have hb : (Binding.declare _ .value .package false).Clean := hname.quotable
    have hs' := hs₁.register hregister hb
    refine ⟨hs', List.forall_mem_singleton.2 ?_⟩
    exact .define (hb.formed_reference hs'.package) (hone hc)
  | declare _ htokens hgiven heq =>
    intro hs hready _
    subst heq
    have hknown : ∀ specifier ∈ Gen.knownSpecifiers, specifier.toList.all isSubsequent = true := by
      decide
    refine ⟨hs.externs _ _ fun t ht => ?_, List.forall_mem_singleton.2 (.externNote ?_)⟩
    · exact ⟨hready.1 _ (htokens t ht), hready.2 rfl t (htokens t ht)⟩
    · refine List.forall_mem_append.2 ⟨List.forall_mem_map.2 fun t ht => ?_, fun specifier h => ?_⟩
      · cases hready.1 _ (htokens t ht) with
        | name h => exact stays_of_isSubsequent (.inr (.inr rfl)) h
      · exact stays_of_isSubsequent (.inr (.inr rfl)) (hknown specifier (hgiven specifier h))
  | importModule _ ih =>
    intro hs hready hu
    exact ih hs hready.1 hu
  | nameModule hargs _ ih =>
    intro hs hready hu
    have hterms := hready.1
    rw [hargs] at hterms
    obtain ⟨hname, hclauses⟩ := List.forall_mem_cons.1 hterms
    obtain ⟨hs', hcs⟩ := ih (hs.nameModule _ hname.quotable) hclauses hu
    cases hname with
    | name h =>
      refine ⟨hs', List.forall_mem_singleton.2 (.moduleNote ?_ hcs)⟩
      exact stays_of_isSubsequent (.inr (.inl rfl)) h
  | bindings _ _ _ ih ih' =>
    intro hs _ hu
    obtain ⟨hs₁, hbs⟩ := ih (hs.enter _) trivial hu.layer.left
    obtain ⟨hs₂, hcs⟩ := ih' hs₁ trivial hu.layer.right
    exact ⟨hs₂.leave, hthunk (.scope hbs (.lines hcs))⟩
  | conditional _ _ _ _ ih ih' ih'' =>
    intro hs _ hu
    obtain ⟨hs₁, htest⟩ := ih hs trivial hu.left
    obtain ⟨hs₂, hyes⟩ := ih' hs₁ trivial hu.right.left
    obtain ⟨hs', hno⟩ := ih'' hs₂ trivial hu.right.right
    exact ⟨hs', hthunk (.branch (hone htest) (hone hyes) (.lines hno))⟩
  | matching _ _ _ _ ih ih' =>
    intro hs _ hu
    obtain ⟨hs₁, hsubject⟩ := ih hs trivial hu.left
    obtain ⟨hs', hcs⟩ := ih' hs₁ (hone hsubject) hu.right
    exact ⟨hs', hthunk (formed_choice hcs (by simp))⟩
  | matchingElse _ _ _ _ _ ih ih' ih'' =>
    intro hs _ hu
    obtain ⟨hs₁, hsubject⟩ := ih hs trivial hu.left
    obtain ⟨hs₂, hcs⟩ := ih' hs₁ (hone hsubject) hu.right.left
    obtain ⟨hs', hds⟩ := ih'' hs₂ trivial hu.right.right
    refine ⟨hs', hthunk (formed_choice hcs fun ds heq => ?_)⟩
    cases heq
    exact hds
  | block _ ih =>
    intro hs _ hu
    obtain ⟨hs', hcs⟩ := ih hs trivial hu
    exact ⟨hs', hthunk (.lines hcs)⟩
  | loopCount _ _ _ ih ih' =>
    intro hs _ hu
    obtain ⟨hs₁, hbs⟩ := ih (hs.enter _) trivial hu.layer.left
    obtain ⟨hs₂, hcs⟩ := ih' (hs₁.withLocal _) trivial hu.layer.right
    exact ⟨hs₂.leave, hthunk (.count (isIdentifier_mangle _) hbs hcs)⟩
  | loopEach _ _ _ ih ih' =>
    intro hs _ hu
    obtain ⟨hs₁, hc⟩ := ih (hs.enter _) trivial hu.layer.left
    obtain ⟨hs₂, hcs⟩ := ih' (hs₁.withLocal _) trivial hu.layer.right
    exact ⟨hs₂.leave, hthunk (.each rfl (isIdentifier_mangle _) (hone hc) hcs)⟩
  | loopPairs _ _ _ ih ih' =>
    intro hs _ hu
    obtain ⟨hs₁, hc⟩ := ih (hs.enter _) trivial hu.layer.left
    obtain ⟨hs₂, hcs⟩ := ih' ((hs₁.withLocal _).withLocal _) trivial hu.layer.right
    refine ⟨hs₂.leave, hthunk ?_⟩
    exact .each (isIdentifier_mangle _) (isIdentifier_mangle _) (hone hc) hcs
  | lambda _ _ ih =>
    intro hs _ hu
    obtain ⟨hs₁, hcs⟩ := ih (hs.enter _) trivial hu.layer
    exact ⟨hs₁.leave, hcs⟩
  | attempt _ _ ih ih' =>
    intro hs _ hu
    obtain ⟨hs₁, hcs⟩ := ih hs trivial hu.left
    obtain ⟨hs', hds⟩ := ih' hs₁ trivial hu.right
    exact ⟨hs', hthunk (.protect (.lines hcs) (.lines hds))⟩
  | handler _ _ ih =>
    intro hs _ hu
    obtain ⟨hs₁, hcs⟩ := ih ((hs.enter _).withLocal _) trivial hu.layer
    refine ⟨hs₁.leave, List.forall_mem_singleton.2 ?_⟩
    exact .handler (isIdentifier_mangle _) (.lines hcs)
  | arguments =>
    intro hs _ _
    exact ⟨hs, List.forall_mem_singleton.2 .arguments⟩
  | sugar _ _ ih =>
    intro hs _ hu
    exact ih hs trivial hu
  | negation _ _ ih =>
    intro hs _ hu
    obtain ⟨hs', hc⟩ := ih hs trivial hu
    exact ⟨hs', List.forall_mem_singleton.2 (.negate (hone hc))⟩
  | operator _ _ ih =>
    intro hs _ hu
    obtain ⟨hs', hcs⟩ := ih hs trivial hu
    refine ⟨hs', List.forall_mem_singleton.2 (formed_combine _ _ fun c hc => ?_)⟩
    obtain ⟨d, hd, rfl⟩ := List.mem_map.1 hc
    exact isOperand_operand (hcs d hd)

/-! ### Programs -/

namespace Lua

theorem isNested_of_reads {text : String} (h : Reads text.toList) : isNested text = true := by
  obtain ⟨word, openers, hscan, hclose⟩ := h
  simp [isNested, hscan, Scan.rest, hclose]

/-- Statements on lines of their own close what they open. -/
theorem reads_renderStatements {stmts : List Stmt} (h : ∀ stmt ∈ stmts, Formed .value stmt.code) :
    Reads (renderStatements stmts).toList := by
  rw [renderStatements, String.toList_intercalate, List.map_map]
  refine .intercalate rfl rfl (List.forall_mem_map.2 fun stmt hstmt => ?_) fun _ _ _ => rfl
  exact reads_terminate stmt.separated (h stmt hstmt).holds.1

end Lua

namespace Gen

/-- In the text of the statements of a program all strings and comments are closed and all brackets
and blocks are nested, and no text of the program leaves the literal or the comment it stands in: if
the names behind access operators, and the names listed by each `declare` that is lowered, are names
of Lua. -/
theorem emitted_statements_are_nested {source : String} {job : Job} {p : Program}
    {stmts : List Stmt} {s' : Session} (hp : parse source = .ok p)
    (h : (statements p).exec job .start = (.ok stmts, s'))
    (hsegments : ∀ c ∈ p, ∀ x ∈ c.term.segments, isIdentifier x.name.text = true)
    (hdeclares : Step.Everywhere (·.declaresNames = true) ((statements p).steps job .start)) :
    isNested (renderStatements stmts) = true ∧ ∀ stmt ∈ stmts, stmt.code.Every Code.Contained := by
  have hlowers := lowers_statements hereditary_emittable (emittable_of_parse hp hsegments)
    (gives_iff.2 ⟨h, rfl⟩)
  obtain ⟨-, hcodes⟩ := hlowers.formed .start trivial hdeclares
  have hformed : ∀ stmt ∈ stmts, Formed .value stmt.code := List.forall_mem_map.1 hcodes
  exact ⟨isNested_of_reads (reads_renderStatements hformed),
    fun stmt hstmt => (hformed stmt hstmt).every_contained⟩

/-- Texts that would do harm outside their quotes, in strings, symbols, keys and comments. -/
def quoting : Job :=
  ⟨{ Options.script with publish := true }, "test.crn",
    "(module app.core [:import k :from \"a\\\"b\"])\n(declare :global os print)\n" ++
      "(def note \"]]-- \\\" ) end\n\")\n" ++
      "(defn f [x & xs] (when x [1 _] :end _ (- -1 os::clock)))\n" ++
      "(for [i (range 1 3)] (print (f i) \x7b:a-b (os:clock) 2 (* 2 3)\x7d))"⟩

theorem emitted_statements_are_nested_quotes :
    ∃ p stmts s', parse quoting.code = .ok p ∧
      (statements p).exec quoting .start = (.ok stmts, s') ∧
      (∀ c ∈ p, ∀ x ∈ c.term.segments, isIdentifier x.name.text = true) ∧
      Step.Everywhere (·.declaresNames = true) ((statements p).steps quoting .start) ∧
      isNested (renderStatements stmts) = true ∧
      ∀ stmt ∈ stmts, stmt.code.Every Code.Contained := by
  have hcheck : (match parse quoting.code with
      | .ok p =>
        match (statements p).exec quoting .start with
        | (.ok _, _) =>
          (p.all fun c => c.term.segments.all fun x => isIdentifier x.name.text) &&
            (Step.flatten ((statements p).steps quoting .start)).all Step.declaresNames
        | _ => false
      | _ => false) = true := by
    decide +kernel
  split at hcheck
  · rename_i p hp
    split at hcheck
    · rename_i stmts s' hexec
      simp only [Bool.and_eq_true, List.all_eq_true] at hcheck
      obtain ⟨hsegments, hsteps⟩ := hcheck
      have hdeclares := Step.everywhere_of_flatten hsteps
      have hresult := emitted_statements_are_nested hp hexec hsegments hdeclares
      exact ⟨p, stmts, s', hp, hexec, hsegments, hdeclares, hresult⟩
    · cases hcheck
  · cases hcheck

end Gen

end LispLua
