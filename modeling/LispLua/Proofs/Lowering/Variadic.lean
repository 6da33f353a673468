import LispLua.Proofs.Lexical.Emission

/-!
# The arguments of functions

A function of Lua can use `...` only if its own parameters end with it. Blocks are functions too; if
they are to pass the arguments of the chunk on, they take `...` and use that of the function around
them. A function of the program takes `...` only if it has `& rest`, and a handler of errors never
does. So the emitted functions are in order as long as nothing that uses `...` stands right inside
one that does not take it.
-/

namespace LispLua

open Lua

/-! ### Texts with `...` -/

namespace Lua

/-- Whether a character is read as code, not as a part of a string or a comment. -/
def Mode.isCode : Mode → Bool
  | code _ | bracketed | minus => true
  | _ => false

/-- Whether `...` stands in the code of a text. It may also stand in a text that cannot be read. -/
def dotsFrom : Scan → List Char → Bool
  | _, [] => false
  | s, c :: cs =>
    s.mode.isCode && "...".toList.isPrefixOf (c :: cs) || (s.step c).all (dotsFrom · cs)

/-- Whether a text has `...` in it, outside of strings and comments. -/
def holdsDots (text : String) : Bool :=
  dotsFrom .start text.toList

example : holdsDots "a+..." = true ∧ holdsDots "\"a...\"" = false ∧ holdsDots "a.b" = false := by
  decide +kernel

theorem dotsFrom_cons (s : Scan) (c : Char) (cs : List Char) :
    dotsFrom s (c :: cs) = (s.mode.isCode && "...".toList.isPrefixOf (c :: cs) ||
      (s.step c).all (dotsFrom · cs)) := rfl

/-- A text that can be read and has no two points side by side. -/
theorem dotsFrom_of_scan {s s' : Scan} {cs : List Char} (h : scan s cs = some s')
    (hdots : ¬ ['.', '.'] <:+: cs) : dotsFrom s cs = false := by
  induction cs generalizing s with
  | nil => rfl
  | cons c cs ih =>
    obtain ⟨hstart, hrest⟩ := not_or.1 (mt List.infix_cons_iff.2 hdots)
    obtain ⟨s₁, hstep, hscan⟩ := Option.bind_eq_some_iff.1 h
    have hdots : "...".toList.isPrefixOf (c :: cs) = false := by
      refine Bool.eq_false_iff.2 fun hdots => hstart ?_
      rw [ List.isPrefixOf_iff_prefix] at hdots
      exact List.IsPrefix.trans ⟨['.'], rfl⟩ hdots
    rw [dotsFrom_cons, hdots, Bool.and_false, Bool.false_or, hstep, Option.all_some, ih hscan hrest]

theorem holdsDots_of_neat {text : String} (h : Neat text.toList)
    (hdots : ¬ ['.', '.'] <:+: text.toList) : holdsDots text = false := by
  obtain ⟨⟨_, _, hscan, -⟩, -⟩ := h
  exact dotsFrom_of_scan hscan hdots

/-- What stays in a string or a comment has no `...` in code. -/
theorem dotsFrom_append_of_stays {mode : Mode} {cs : List Char} (h : Stays mode cs)
    (hmode : mode.isCode = false) (openers : List Opener) (ds : List Char) :
    dotsFrom ⟨mode, openers⟩ (cs ++ ds) = dotsFrom ⟨mode, openers⟩ ds := by
  induction cs with
  | nil => rfl
  | cons c cs ih =>
    obtain ⟨hc, hcs⟩ := List.forall_mem_cons.1 h
    have hstep : Scan.step ⟨mode, openers⟩ c = some ⟨mode, openers⟩ := by
      have hscan := Stays.scan (List.forall_mem_singleton.2 hc) openers
      rw [scan_cons] at hscan
      simpa [scan_nil] using hscan
    rw [List.cons_append, dotsFrom_cons, hmode, Bool.false_and, Bool.false_or, hstep,
      Option.all_some, ih hcs]

theorem dotsFrom_quoted {cs : List Char} (h : IsQuoted cs)
    (hline : ∀ c ∈ cs, isLineEnd c = false) (openers : List Opener) :
    dotsFrom ⟨.string '"' false, openers⟩ cs = false := by
  induction h with
  | close => rfl
  | @plain c cs hquote hslash _ ih =>
    obtain ⟨hc, hcs⟩ := List.forall_mem_cons.1 hline
    have hstep : Scan.step ⟨.string '"' false, openers⟩ c = some ⟨.string '"' false, openers⟩ := by
      simp [Scan.step, Mode.aside, hc, hquote, hslash]
    rw [dotsFrom_cons, hstep, Option.all_some, ih hcs]
    rfl
  | @escape c cs _ ih =>
    obtain ⟨-, hrest⟩ := List.forall_mem_cons.1 hline
    obtain ⟨hc, hcs⟩ := List.forall_mem_cons.1 hrest
    have hslash : Scan.step ⟨.string '"' false, openers⟩ '\\' =
        some ⟨.string '"' true, openers⟩ := rfl
    have hstep : Scan.step ⟨.string '"' true, openers⟩ c = some ⟨.string '"' false, openers⟩ := by
      simp [Scan.step, Mode.aside, hc]
    rw [dotsFrom_cons, hslash, Option.all_some, dotsFrom_cons, hstep, Option.all_some, ih hcs]
    rfl

theorem not_infix_of_notMem {cs : List Char} (h : '.' ∉ cs) : ¬ ['.', '.'] <:+: cs :=
  fun hpair => h (hpair.subset (by simp))

/-- Between two points of a row stands one of its members. -/
theorem not_infix_append {cs ds : List Char} (hcs : '.' ∉ cs) (hds : ds.head? ≠ some '.')
    (h : ¬ ['.', '.'] <:+: ds) : ¬ ['.', '.'] <:+: cs ++ '.' :: ds := by
  induction cs with
  | nil =>
    intro hpair
    rcases List.infix_cons_iff.1 hpair with hstart | hrest
    · obtain ⟨rest, hrest⟩ := (List.cons_prefix_cons.1 hstart).2
      exact hds (by simp [← hrest])
    · exact h hrest
  | cons c cs ih =>
    obtain ⟨hc, hcs⟩ := not_or.1 (mt List.mem_cons.2 hcs)
    intro hpair
    rcases List.infix_cons_iff.1 hpair with hstart | hrest
    · exact hc (List.cons_prefix_cons.1 hstart).1
    · exact ih hcs hrest

theorem notMem_of_isPlainWord {cs : List Char} (h : IsPlainWord cs) : '.' ∉ cs := by
  intro hmem
  have hchar := h.1 '.' hmem
  cases hchar

theorem not_infix_intercalate {words : List (List Char)}
    (h : ∀ cs ∈ words, IsPlainWord cs ∧ cs ≠ []) :
    ¬ ['.', '.'] <:+: ['.'].intercalate words := by
  induction words with
  | nil => simp
  | cons cs words ih =>
    obtain ⟨⟨hcs, -⟩, hwords⟩ := List.forall_mem_cons.1 h
    cases words with
    | nil => simpa using not_infix_of_notMem (notMem_of_isPlainWord hcs)
    | cons ds words =>
      obtain ⟨⟨hds, hne⟩, -⟩ := List.forall_mem_cons.1 hwords
      rw [List.intercalate_cons_cons, List.append_assoc]
      refine not_infix_append (notMem_of_isPlainWord hcs) ?_ (ih hwords)
      obtain ⟨d, ds, rfl⟩ := List.exists_cons_of_ne_nil hne
      have hd : d ≠ '.' := fun h => notMem_of_isPlainWord hds (by simp [h])
      cases words <;> simpa using hd

theorem not_infix_of_isNumeral {cs : List Char} (h : IsNumeral cs) : ¬ ['.', '.'] <:+: cs := by
  have hunsigned : ∀ {ds : List Char}, IsUnsigned ds → ¬ ['.', '.'] <:+: ds := by
    intro ds hds
    cases hds with
    | whole hds => exact not_infix_of_notMem (notMem_of_isPlainWord (isPlainWord_of_isDigits hds))
    | @decimal ds es hds hes =>
      have hwords := @not_infix_intercalate [ds, es]
        (by simp [isPlainWord_of_isDigits hds, isPlainWord_of_isDigits hes, hds.1, hes.1])
      simpa using hwords
  cases h with
  | plain hcs => exact hunsigned hcs
  | negative hcs =>
    intro hpair
    rcases List.infix_cons_iff.1 hpair with ⟨rest, hrest⟩ | hrest
    · cases hrest
    · exact hunsigned hcs hrest

theorem isName_ne_nil {cs : List Char} (h : isName cs = true) : cs ≠ [] := by
  rintro rfl
  cases h

theorem holdsDots_of_isAtom {text : String} (h : IsAtom text) : holdsDots text = false := by
  have hneat := h.neat
  cases h with
  | name hname =>
    have hdots := notMem_of_isPlainWord (isPlainWord_of_isName hname)
    exact holdsDots_of_neat hneat (not_infix_of_notMem hdots)
  | reference href _ =>
    refine holdsDots_of_neat hneat ?_
    have hsplit : ['.'].intercalate (text.toList.splitOn '.') = text.toList :=
      List.intercalate_splitOn '.'
    rw [← hsplit]
    refine not_infix_intercalate fun cs hcs => ?_
    have hname := List.all_eq_true.1 href cs hcs
    exact ⟨isPlainWord_of_isName hname, isName_ne_nil hname⟩
  | numeral hnumeral => exact holdsDots_of_neat hneat (not_infix_of_isNumeral hnumeral)
  | index hindex =>
    obtain ⟨ds, hds, htext⟩ := exists_digits_of_isIndex hindex
    have hdots := notMem_of_isPlainWord (isPlainWord_of_isDigits hds)
    refine holdsDots_of_neat hneat (not_infix_of_notMem fun hmem => hdots ?_)
    simp only [List.mem_cons, List.not_mem_nil, or_false] at htext
    rcases htext with htext | htext | htext
    · simpa [htext] using hmem
    · simpa [htext] using hmem
    · rwa [htext] at hmem
  | literal hliteral hline =>
    unfold holdsDots
    generalize text.toList = cs at hliteral hline
    cases hliteral with
    | mk hcs =>
      obtain ⟨-, hline⟩ := List.forall_mem_cons.1 hline
      exact dotsFrom_quoted hcs hline []

theorem holdsDots_of_isIdentifier {text : String} (h : isIdentifier text = true) :
    holdsDots text = false :=
  holdsDots_of_isAtom (.name h)

theorem holdsDots_of_isTable {text : String} (h : IsTable text) : holdsDots text = false := by
  cases h with
  | name h => exact holdsDots_of_isIdentifier h
  | @published text h =>
    have htext : (publishedPackage text).toList =
        "_G[\"".toList ++ (text.toList ++ "\"]".toList) := by
      simp [publishedPackage, Code.render_eq, Code.pieces, Piece.chars]
    have hstart : ∀ cs, dotsFrom .start ("_G[\"".toList ++ cs) =
      dotsFrom ⟨.string '"' false, [.bracket]⟩ cs := fun _ => rfl
    rw [holdsDots, htext, hstart, dotsFrom_append_of_stays h rfl]
    rfl

theorem holdsDots_of_isOperator {text : String} (h : IsOperator text) : holdsDots text = false := by
  cases h with
  | equals => rfl
  | operator op => cases op <;> rfl

end Lua

/-! ### Where code uses `...` -/

namespace Lua.Code

/-- The parts of a code outside of the functions it opens. -/
def outerParts : Code → List Code
  | thunk _ _ | handler _ _ | closure _ _ _ => []
  | protect _ _ c => [c]
  | c => c.parts

mutual

/-- The codes inside a code, at any depth, that are outside of its functions. -/
def outer : Code → List Code
  | word _ | quoted _ | member _ _ | symbol _ | arguments | externNote _ _ | thunk _ _
  | handler _ _ | closure _ _ _ => []
  | field c _ | method c _ | item c _ | paren c | negate c | isTable c | run _ c | give _ c
  | bind _ c | declareThen _ c | load c | loadAs _ c | loadMembers _ c | protect _ _ c =>
    c :: c.outer
  | entry c d | binary _ c d | power c d | arm c d | assign c d | define c d =>
    c :: c.outer ++ d :: d.outer
  | branch c d e => c :: c.outer ++ (d :: d.outer ++ e :: e.outer)
  | list cs | table cs | record cs | chain _ cs | every cs | lines cs | choose cs
  | moduleNote _ cs => ownAll cs
  | call c cs | each _ _ c cs => c :: c.outer ++ ownAll cs
  | scope cs c | chooseElse cs c => ownAll cs ++ c :: c.outer
  | count _ cs ds => ownAll cs ++ ownAll ds

/-- Some codes, and the codes inside them that are outside of their functions. -/
def ownAll : List Code → List Code
  | [] => []
  | c :: cs => c :: c.outer ++ ownAll cs

end

/-- The codes that belong to the function a code stands in: itself and those inside it, except in
functions. -/
def own (c : Code) : List Code :=
  c :: c.outer

theorem ownAll_eq (cs : List Code) : ownAll cs = cs.flatMap own := by
  induction cs with
  | nil => rfl
  | cons c cs ih => rw [ownAll, ih, List.flatMap_cons, own, List.cons_append]

theorem outer_eq (c : Code) : c.outer = c.outerParts.flatMap own := by
  cases c <;> simp [outer, outerParts, parts, ownAll_eq, own]

theorem outerParts_subset (c : Code) : c.outerParts ⊆ c.parts := by
  cases c with
  | thunk | handler | closure => exact List.nil_subset _
  | protect _ _ _ => exact List.subset_cons_self _ _
  | _ => exact List.Subset.refl _

theorem own_subset_nodes (c : Code) : c.own ⊆ c.nodes := by
  induction c using induction_parts with
  | parts c ih =>
    rw [own, nodes, outer_eq, inner_eq]
    refine List.cons_subset_cons c fun d hd => ?_
    obtain ⟨part, hpart, hd⟩ := List.mem_flatMap.1 hd
    have hpart := c.outerParts_subset hpart
    exact List.mem_flatMap.2 ⟨part, hpart, ih part hpart hd⟩

/-- The texts of a code that stand bare in the function around it, not in quotes, in a comment or
among the parameters of a function inside. -/
def bareTexts : Code → List String
  | word text | member text _ | field _ text | method _ text | bind text _ | declareThen text _
  | loadAs text _ | count text _ _ | chain text _ | binary text _ _ => [text]
  | each key value _ _ => [key, value]
  | loadMembers members _ => members.map (·.1)
  | _ => []

/-- Whether a code hands `...` on, to a list or to a block. -/
def handsOn : Code → Bool
  | arguments => true
  | thunk variadic _ | protect variadic _ _ => variadic
  | _ => false

/-- Whether code uses the `...` of the function it stands in. Functions inside it have their own. -/
def spreads (c : Code) : Bool :=
  c.own.any fun d => d.handsOn || d.bareTexts.any holdsDots

/-- Texts that stay where they are put have no `...` in them. -/
theorem holdsDots_of_contained {c : Code} (h : c.Contained) :
    ∀ text ∈ c.bareTexts, holdsDots text = false := by
  cases c with
  | word => exact List.forall_mem_singleton.2 (holdsDots_of_isAtom h)
  | member => exact List.forall_mem_singleton.2 (holdsDots_of_isTable h.1)
  | field | method | bind | declareThen | loadAs | count =>
    exact List.forall_mem_singleton.2 (holdsDots_of_isIdentifier h)
  | chain | binary => exact List.forall_mem_singleton.2 (holdsDots_of_isOperator h)
  | each =>
    exact List.forall_mem_cons.2 ⟨holdsDots_of_isIdentifier h.1,
      List.forall_mem_singleton.2 (holdsDots_of_isIdentifier h.2)⟩
  | loadMembers members =>
    exact List.forall_mem_map.2 fun n hn => holdsDots_of_isIdentifier (h n hn).1
  | _ => exact List.forall_mem_nil _

/-- So code with such texts uses `...` only where it hands it on. -/
theorem any_handsOn_of_spreads {c : Code} (h : c.Every Contained) (hc : c.spreads = true) :
    c.own.any handsOn = true := by
  obtain ⟨d, hd, huses⟩ := List.any_eq_true.1 hc
  refine List.any_eq_true.2 ⟨d, hd, ?_⟩
  rcases Bool.or_eq_true_iff.1 huses with hands | hdots
  · exact hands
  · obtain ⟨text, htext, hdots⟩ := List.any_eq_true.1 hdots
    rw [holdsDots_of_contained (h d (c.own_subset_nodes hd)) text htext] at hdots
    cases hdots

/-- The function that code opens: whether it takes `...`, and its body. -/
def function? : Code → Option (Bool × Code)
  | thunk variadic c | protect variadic c _ => some (variadic, c)
  | handler _ c => some (false, c)
  | closure _ rest c => some (rest.isSome, c)
  | _ => none

/-- A function whose body hands `...` on takes it. -/
def Legal (c : Code) : Prop :=
  ∀ takes body, c.function? = some (takes, body) → body.own.any handsOn = true → takes = true

/-- Code that hands `...` on just where its parts do. -/
def IsInert : Code → Prop
  | arguments | thunk _ _ | protect _ _ _ | handler _ _ | closure _ _ _ => False
  | _ => True

theorem body_mem_nodes {c body : Code} {takes : Bool} (h : c.function? = some (takes, body)) :
    body ∈ c.nodes := by
  cases c with
  | thunk | protect | handler | closure =>
    cases h
    exact List.mem_cons_of_mem _ (List.mem_cons_self ..)
  | _ => cases h

theorem IsGlue.isInert {c : Code} (h : c.IsGlue) : c.IsInert := by
  cases c with
  | arguments | thunk | protect | handler | closure => exact h
  | _ => trivial

theorem IsInert.legal {c : Code} (h : c.IsInert) : c.Legal := by
  intro takes body hfunction
  cases c with
  | thunk | protect | handler | closure => cases h
  | _ => cases hfunction

theorem IsInert.exists_part {c : Code} (h : c.IsInert) (hc : c.own.any handsOn = true) :
    ∃ d ∈ c.parts, d.own.any handsOn = true := by
  obtain ⟨e, he, hands⟩ := List.any_eq_true.1 hc
  have houter : c.handsOn = false ∧ c.outerParts = c.parts := by
    cases c with
    | arguments | thunk | protect | handler | closure => cases h
    | _ => exact ⟨rfl, rfl⟩
  rw [own, outer_eq, houter.2] at he
  rcases List.mem_cons.1 he with rfl | he
  · rw [houter.1] at hands
    cases hands
  · obtain ⟨d, hd, he⟩ := List.mem_flatMap.1 he
    exact ⟨d, hd, List.any_eq_true.2 ⟨e, he, hands⟩⟩

end Lua.Code

/-! ### Where a generation uses `...` -/

namespace Form

/-- Whether a form is lowered to code that uses `...`: the blocks do, which pass it on to their
function, and so does the list of the arguments. -/
def spreads : Form → Bool
  | bindings | conditional | matching | block | loop | attempt | arguments => true
  | _ => false

/-- The function that a form opens, told by whether it takes `...`. -/
def opens? (c : Call) : Form → Option Bool
  | lambda =>
    match c.args with
    | .list formals _ :: _ => some (formals.any (Term.isName "&"))
    | _ => none
  | function _ _ =>
    match c.args with
    | .name _ :: .list formals _ :: _ => some (formals.any (Term.isName "&"))
    | _ => none
  | define _ =>
    match c.args with
    | .name _ :: .list formals _ :: _ :: _ => some (formals.any (Term.isName "&"))
    | _ => none
  | handler => some false
  | _ => none

end Form

namespace Step

mutual

/-- Whether a step uses the `...` of the function around it. -/
def spreads : Step → Bool
  | .call c s steps =>
    match s.form? c with
    | some form => form.spreads || (form.opens? c).isNone && spreadsAny steps
    | none => spreadsAny steps
  | .layer _ steps => spreadsAny steps

/-- Whether some step does. -/
def spreadsAny : List Step → Bool
  | [] => false
  | step :: steps => step.spreads || spreadsAny steps

end

/-- Whether a call opens a function that does not take `...`, and uses it in the function. -/
def overreaches : Step → Bool
  | .call c s steps => (s.form? c).bind (Form.opens? c) == some false && spreadsAny steps
  | .layer _ _ => false

theorem spreadsAny_append (u v : List Step) :
    spreadsAny (u ++ v) = (spreadsAny u || spreadsAny v) := by
  induction u with
  | nil => rfl
  | cons step u ih => rw [List.cons_append, spreadsAny, spreadsAny, ih, Bool.or_assoc]

theorem spreadsAny_call_of_form {c : Call} {s : Session} {form : Form}
    (hform : s.form? c = some form) (u : List Step) :
    spreadsAny [.call c s u] = (form.spreads || (form.opens? c).isNone && spreadsAny u) := by
  rw [spreadsAny, spreadsAny, Bool.or_false, spreads, hform]

theorem spreadsAny_call_of_none {c : Call} {s : Session} (hform : s.form? c = none)
    (u : List Step) : spreadsAny [.call c s u] = spreadsAny u := by
  rw [spreadsAny, spreadsAny, Bool.or_false, spreads, hform]

theorem spreadsAny_layer (s : Session) (u : List Step) :
    spreadsAny [.layer s u] = spreadsAny u := by
  rw [spreadsAny, spreadsAny, Bool.or_false, spreads]

end Step

/-- No call opens a function that cannot use `...` as it should. -/
def Tame (steps : List Step) : Prop :=
  Step.Everywhere (·.overreaches = false) steps

/-! ### What the rules make of it -/

/-- Every function in the code that hands `...` on takes it, and around all functions the code hands
it on only if the steps use it. -/
structure Lua.Code.Covered (steps : List Step) (c : Code) : Prop where
  legal : c.Every Code.Legal
  spreads : c.own.any Code.handsOn = true → Step.spreadsAny steps = true

variable {job : Job} {s s' : Session} {u v : List Step}

namespace Lua.Code

variable {c : Code}

theorem Covered.left (h : c.Covered u) : c.Covered (u ++ v) := by
  refine ⟨h.legal, fun hc => ?_⟩
  rw [Step.spreadsAny_append, h.spreads hc, Bool.true_or]

theorem Covered.right (h : c.Covered v) : c.Covered (u ++ v) := by
  refine ⟨h.legal, fun hc => ?_⟩
  rw [Step.spreadsAny_append, h.spreads hc, Bool.or_true]

theorem IsInert.every_legal (hc : c.IsInert) (hparts : ∀ d ∈ c.parts, d.Every Legal) :
    c.Every Legal :=
  .intro hc.legal hparts

theorem IsInert.covered (hc : c.IsInert) (hparts : ∀ d ∈ c.parts, d.Covered u) : c.Covered u := by
  refine ⟨hc.every_legal fun d hd => (hparts d hd).legal, fun hands => ?_⟩
  obtain ⟨d, hd, hands⟩ := hc.exists_part hands
  exact (hparts d hd).spreads hands

theorem covered_leaf (hc : c.IsInert) (hparts : c.parts = []) : c.Covered u :=
  hc.covered (by simp [hparts])

theorem glued_covered (u : List Step) : Glued (Covered u) :=
  fun _ hc hparts => hc.isInert.covered hparts

theorem glued_legal : Glued (Every Legal) :=
  fun _ hc hparts => hc.isInert.every_legal hparts

end Lua.Code

theorem covered_binding (b : Binding) (package : String) : (b.reference package).Covered u := by
  unfold Binding.reference
  cases b.reach with
  | block | package | everywhere => exact Code.covered_leaf trivial rfl

theorem covered_reference (m : Meaning) (package : String) : (m.reference package).Covered u := by
  cases m with
  | standard => exact Code.covered_leaf trivial rfl
  | declared b => exact covered_binding b package

/-- What holds of the code of a fragment. A form or a function can use `...` in other ways than
through its steps, and a comparison counts only as a part of its form. -/
def Fragment.Covers (steps : List Step) (c : Code) : Fragment → Prop
  | .form special call => c.Every Code.Legal ∧ (c.own.any Code.handsOn = true →
      special.spreads = true ∨ special.opens? call = none ∧ Step.spreadsAny steps = true)
  | .closure _ _ | .named _ _ _ _ _ => c.Covered []
  | .tests _ _ _ | .arms _ _ => c.Every Code.Legal
  | _ => c.Covered steps

theorem Lua.Code.Covered.covers {c : Code} {form : Form} {call : Call} (h : c.Covered u)
    (hopens : form.opens? call = none) : (Fragment.form form call).Covers u c :=
  ⟨h.legal, fun hspreads => .inr ⟨hopens, h.spreads hspreads⟩⟩

theorem Lua.Code.Covered.covers_of_nil {c : Code} {form : Form} {call : Call} (h : c.Covered []) :
    (Fragment.form form call).Covers u c :=
  ⟨h.legal, fun hands => absurd (h.spreads hands) Bool.false_ne_true⟩

/-- What a fragment must not do on its own, besides its steps. -/
def Fragment.Tame (steps : List Step) : Fragment → Prop
  | .tests subject _ _ | .arms subject _ => subject.Every Code.Legal
  | .closure formals _ | .named _ _ _ formals _ =>
    formals.any (Term.isName "&") = false → Step.spreadsAny steps = false
  | .form special c => special.opens? c = some false → Step.spreadsAny steps = false
  | _ => True

theorem tame_form {form : Form} {c : Call} (hform : s.form? c = some form)
    (h : Tame [.call c s u]) : (Fragment.form form c).Tame u := by
  intro hopens
  simpa [Step.overreaches, hform, hopens] using h.head

theorem Form.Expands.opens?_eq_none {form : Form} {c : Call} {t : Term} (h : form.Expands c t) :
    form.opens? c = none := by
  cases form with
  | threadFirst | threadLast | fanFirst | fanLast | parity => rfl
  | _ => cases h

/-- A body gives unit at its end. -/
theorem covered_giveUnit : Gen.giveUnit.Covered u := by
  refine Code.IsInert.covered trivial (List.forall_mem_singleton.2 ?_)
  exact Code.covered_leaf trivial rfl

theorem covered_closure {names : List String} {rest : Option String} {formals : List Term}
    {cs : List Code} (hrest : rest.isSome = formals.any (Term.isName "&"))
    (htame : formals.any (Term.isName "&") = false → Step.spreadsAny u = false)
    (hcs : ∀ c ∈ cs, c.Covered u) :
    (Code.closure names rest (.lines cs)).Covered [] := by
  have hlines : (Code.lines cs).Covered u := Code.IsInert.covered trivial hcs
  refine ⟨.intro ?_ (List.forall_mem_singleton.2 hlines.legal), fun hands => by cases hands⟩
  intro takes body hfunction hspreads
  cases hfunction
  rw [hrest]
  cases htakes : formals.any (Term.isName "&") with
  | true => rfl
  | false =>
    have hused := hlines.spreads hspreads
    rw [htame htakes] at hused
    cases hused

/-- The rules: if no call overreaches, every function that uses `...` takes it. -/
theorem Lowers.covered {P : Term → Prop} {f : Fragment} {cs : List Code}
    (h : Lowers P job f s cs u s') (hvariadic : job.options.variadic = true) :
    f.Tame u → Tame u → ∀ c ∈ cs, f.Covers u c := by
  have hthunk : ∀ {c : Code} {form : Form} {call : Call} {steps : List Step},
      c.Every Code.Legal → form.spreads = true →
      ∀ d ∈ [Code.thunk job.options.variadic c], (Fragment.form form call).Covers steps d := by
    intro c form call steps hc hform
    have hparts := List.forall_mem_singleton.2 hc
    refine List.forall_mem_singleton.2 ⟨.intro ?_ hparts, fun _ => .inl hform⟩
    intro takes body hfunction _
    cases hfunction
    exact hvariadic
  -- A call through something else than a form uses `...` as its arguments do.
  have hcall : ∀ {c : Code} {call : Call} {s : Session} {steps : List Step},
      s.form? call = none → c.IsInert → (∀ d ∈ c.parts, d.Covered steps) →
      c.Covered [.call call s steps] := by
    intro c call s steps hform hc hparts
    have hcovered := hc.covered hparts
    refine ⟨hcovered.legal, fun hspreads => ?_⟩
    rw [Step.spreadsAny_call_of_none hform]
    exact hcovered.spreads hspreads
  induction h with
  | list _ _ ih =>
    intro _ hu
    have hcs := ih trivial hu
    exact List.forall_mem_singleton.2 (Code.IsInert.covered trivial hcs)
  | @table _ escaped _ _ _ _ _ _ _ ih =>
    intro _ hu
    have hcs := ih trivial hu
    refine List.forall_mem_singleton.2 ?_
    cases escaped with
    | true => exact Code.IsInert.covered trivial hcs
    | false => exact Code.IsInert.covered trivial hcs
  | path _ _ _ haccesses =>
    intro _ _
    refine List.forall_mem_singleton.2 ?_
    exact (Code.glued_covered _).joined.of_accesses haccesses (covered_reference _ _)
  | name _ _ _ =>
    intro _ _
    exact List.forall_mem_singleton.2 (covered_reference _ _)
  | nameForm _ _ _ _ | symbol _ | keyQuoted | number _ | string _ =>
    intro _ _
    exact List.forall_mem_singleton.2 (Code.covered_leaf trivial rfl)
  | indexed _ hform _ ih =>
    intro _ hu
    have hcs := ih trivial hu.call
    refine fun c hc => ⟨(hcs c hc).legal, fun hspreads => ?_⟩
    rw [Step.spreadsAny_call_of_none hform]
    exact (hcs c hc).spreads hspreads
  | self _ hform _ ih =>
    intro _ hu
    have hcs := ih trivial hu.call
    refine List.forall_mem_singleton.2 ?_
    exact hcall hform trivial (List.forall_mem_cons.2 ⟨Code.covered_leaf trivial rfl, hcs⟩)
  | reached _ hform _ _ _ haccesses _ ih =>
    intro _ hu
    have hcs := ih trivial hu.call
    refine List.forall_mem_singleton.2 ?_
    refine hcall hform trivial (List.forall_mem_cons.2 ⟨?_, hcs⟩)
    exact (Code.glued_covered _).joined.of_accesses haccesses (covered_reference _ _)
  | through _ hform _ _ _ _ ih =>
    intro _ hu
    have hcs := ih trivial hu.call
    refine List.forall_mem_singleton.2 ?_
    exact hcall hform trivial (List.forall_mem_cons.2 ⟨covered_reference _ _, hcs⟩)
  | special _ hform _ ih =>
    intro _ hu
    have hcs := ih (tame_form hform hu) hu.call
    refine fun c hc => ⟨(hcs c hc).1, fun hspreads => ?_⟩
    rw [Step.spreadsAny_call_of_form hform]
    rcases (hcs c hc).2 hspreads with hused | ⟨hopens, hused⟩
    · rw [hused, Bool.true_or]
    · rw [hopens, hused, Option.isNone_none, Bool.true_and, Bool.or_true]
  | valuesNil | argsNil | bodyNil | entriesNil | testsNil | clausesNil | pairsNil | armsNil =>
    intro _ _
    exact by simp
  | valuesCons _ _ ih ih' | argsCons _ _ ih ih' =>
    intro _ hu
    have hc := ih trivial hu.left
    have hcs := ih' trivial hu.right
    refine List.forall_mem_cons.2 ⟨(hc _ (by simp)).left, fun c hc => ?_⟩
    exact (hcs c hc).right
  | argsForm _ _ _ _ ih =>
    intro _ hu
    exact List.forall_mem_cons.2 ⟨Code.covered_leaf trivial rfl, ih trivial hu⟩
  | keyTerm _ ih =>
    intro _ hu
    exact ih trivial hu
  | entriesLast _ _ _ ih =>
    intro _ hu
    have hc := ih trivial hu
    refine List.forall_mem_singleton.2 (Code.IsInert.covered trivial ?_)
    exact List.forall_mem_cons.2
      ⟨hc _ (by simp), List.forall_mem_singleton.2 (covered_reference _ _)⟩
  | entriesCons _ _ _ ih ih' ih'' =>
    intro _ hu
    have hc := ih trivial hu.left
    have hd := ih' trivial hu.right.left
    have hcs := ih'' trivial hu.right.right
    refine List.forall_mem_cons.2 ⟨Code.IsInert.covered trivial ?_, fun c hc => ?_⟩
    · exact List.forall_mem_cons.2 ⟨(hc _ (by simp)).left,
        List.forall_mem_singleton.2 (hd _ (by simp)).left.right⟩
    · exact (hcs c hc).right.right
  | @bodyLast _ _ definition _ _ _ _ _ _ _ ih =>
    intro _ hu
    have hc := ih trivial hu
    cases definition with
    | true =>
      exact List.forall_mem_cons.2 ⟨Code.IsInert.covered trivial hc,
        List.forall_mem_singleton.2 covered_giveUnit⟩
    | false => exact List.forall_mem_singleton.2 (Code.IsInert.covered trivial hc)
  | bodyCons _ _ _ ih ih' =>
    intro _ hu
    have hc := ih trivial hu.left
    have hcs := ih' trivial hu.right
    refine List.forall_mem_cons.2 ⟨Code.IsInert.covered trivial ?_, fun c hc => ?_⟩
    · exact List.forall_mem_singleton.2 (hc _ (by simp)).left
    · exact (hcs c hc).right
  | pairsCons _ hdestructs _ _ ih ih' =>
    intro _ hu
    have hc := ih trivial hu.left
    have hcs := ih' trivial hu.right
    have hbs := (Code.glued_covered _).joined.of_destructs
      (fun hpart => Code.IsInert.covered trivial (List.forall_mem_singleton.2 hpart))
      hdestructs (hc _ (by simp))
    exact List.forall_mem_append.2
      ⟨fun b hb => (hbs b hb).left, fun c hc => (hcs c hc).right⟩
  | testsAny _ ih =>
    intro hsubject hu
    exact ih hsubject hu
  | testsCons _ _ ih ih' =>
    intro hsubject hu
    have hc := ih trivial hu.left
    have hcs := ih' hsubject hu.right
    refine List.forall_mem_cons.2 ⟨Code.IsInert.every_legal trivial ?_, hcs⟩
    refine List.forall_mem_cons.2 ⟨Code.IsInert.every_legal trivial ?_, ?_⟩
    · exact List.forall_mem_singleton.2 (Code.glued_legal.joined.indexable hsubject)
    · exact List.forall_mem_singleton.2 (hc _ (by simp)).legal
  | armsAny _ ih =>
    intro hsubject hu
    exact ih hsubject hu
  | armsList _ _ _ ih ih' ih'' =>
    intro hsubject hu
    have hvalue := ih trivial hu.left
    have htests := ih' hsubject hu.right.left
    have hcs := ih'' hsubject hu.right.right
    refine List.forall_mem_cons.2 ⟨Code.IsInert.every_legal trivial ?_, hcs⟩
    refine List.forall_mem_cons.2 ⟨Code.IsInert.every_legal trivial ?_, ?_⟩
    · refine List.forall_mem_cons.2 ⟨Code.IsInert.every_legal trivial ?_, htests⟩
      exact List.forall_mem_singleton.2 hsubject
    · exact List.forall_mem_singleton.2 (hvalue _ (by simp)).legal
  | armsTerm _ _ _ _ ih ih' ih'' =>
    intro hsubject hu
    have hvalue := ih trivial hu.left
    have hc := ih' trivial hu.right.left
    have hcs := ih'' hsubject hu.right.right
    refine List.forall_mem_cons.2 ⟨Code.IsInert.every_legal trivial ?_, hcs⟩
    refine List.forall_mem_cons.2 ⟨Code.IsInert.every_legal trivial ?_, ?_⟩
    · exact List.forall_mem_cons.2
        ⟨hsubject, List.forall_mem_singleton.2 (hc _ (by simp)).legal⟩
    · exact List.forall_mem_singleton.2 (hvalue _ (by simp)).legal
  | importWhole _ ih =>
    intro _ hu
    have hc := ih trivial hu
    exact List.forall_mem_singleton.2 (Code.IsInert.covered trivial hc)
  | importNamed =>
    intro _ _
    refine List.forall_mem_singleton.2 (Code.IsInert.covered trivial ?_)
    exact List.forall_mem_singleton.2 (Code.IsInert.covered trivial (by simp [Code.parts]))
  | importAs _ ih =>
    intro _ hu
    have hc := ih trivial hu
    exact List.forall_mem_singleton.2 (Code.IsInert.covered trivial hc)
  | importMembers _ _ _ ih =>
    intro _ hu
    have hc := ih trivial hu
    exact List.forall_mem_singleton.2 (Code.IsInert.covered trivial hc)
  | clausesCons _ _ _ ih ih' =>
    intro _ hu
    have hc := ih trivial hu.left
    have hcs := ih' trivial hu.right
    refine List.forall_mem_cons.2 ⟨(hc _ (by simp)).left, fun c hc => ?_⟩
    exact (hcs c hc).right
  | closureEmpty _ hrest =>
    intro htame _
    exact List.forall_mem_singleton.2
      (covered_closure hrest htame (List.forall_mem_singleton.2 covered_giveUnit))
  | closure _ hrest _ ih =>
    intro htame hu
    have hcs := ih trivial hu
    exact List.forall_mem_singleton.2 (covered_closure hrest htame hcs)
  | @named _ _ _ rest _ _ s₃ _ _ _ _ _ _ hidden _ _ _ ih =>
    intro htame hu
    simp only [Fragment.Tame, Step.spreadsAny_layer] at htame
    have hc := ih htame hu.layer
    refine List.forall_mem_singleton.2 ?_
    cases hopen : hidden && !Gen.isGlobal rest with
    | true =>
      exact Code.IsInert.covered trivial hc
    | false =>
      rw [if_neg (by simp)]
      exact Code.IsInert.covered trivial (List.forall_mem_cons.2 ⟨covered_binding _ _, hc⟩)
  | defineFunction hargs _ _ ih =>
    intro htame hu
    simp only [Fragment.Tame, Form.opens?, hargs, Option.some.injEq] at htame
    exact fun c hc => (ih htame hu c hc).covers_of_nil
  | function hargs _ _ ih =>
    intro htame hu
    simp only [Fragment.Tame, Form.opens?, hargs, Option.some.injEq] at htame
    exact fun c hc => (ih htame hu c hc).covers_of_nil
  | defineValue hargs _ _ _ ih =>
    intro _ hu
    have hc := ih trivial hu
    refine List.forall_mem_singleton.2 ?_
    refine Code.Covered.covers (Code.IsInert.covered trivial ?_) (by simp [Form.opens?, hargs])
    exact List.forall_mem_cons.2 ⟨covered_binding _ _, hc⟩
  | declare _ _ _ _ =>
    intro _ _
    exact List.forall_mem_singleton.2 (Code.Covered.covers (Code.covered_leaf trivial rfl) rfl)
  | importModule _ ih =>
    intro _ hu
    have hcs := ih trivial hu
    exact fun c hc => (hcs c hc).covers rfl
  | nameModule _ _ ih =>
    intro _ hu
    have hcs := ih trivial hu
    refine List.forall_mem_singleton.2 (Code.Covered.covers ?_ rfl)
    exact Code.IsInert.covered trivial hcs
  | bindings _ _ _ ih ih' =>
    intro _ hu
    have hbs := ih trivial hu.layer.left
    have hcs := ih' trivial hu.layer.right
    refine hthunk ?_ rfl
    refine Code.IsInert.every_legal trivial ?_
    refine List.forall_mem_append.2 ⟨fun b hb => (hbs b hb).legal, ?_⟩
    exact List.forall_mem_singleton.2
      (Code.IsInert.every_legal trivial fun c hc => (hcs c hc).legal)
  | conditional _ _ _ _ ih ih' ih'' =>
    intro _ hu
    have htest := ih trivial hu.left
    have hyes := ih' trivial hu.right.left
    have hno := ih'' trivial hu.right.right
    refine hthunk (Code.IsInert.every_legal trivial (List.forall_mem_cons.2
      ⟨(htest _ (by simp)).legal, List.forall_mem_cons.2 ⟨(hyes _ (by simp)).legal, ?_⟩⟩)) rfl
    exact List.forall_mem_singleton.2
      (Code.IsInert.every_legal trivial fun c hc => (hno c hc).legal)
  | matching _ _ _ _ ih ih' =>
    intro _ hu
    have hsubject := ih trivial hu.left
    have hcs := ih' (hsubject _ (by simp)).legal hu.right
    exact hthunk (Code.glued_legal.joined.choice hcs (by simp)) rfl
  | matchingElse _ _ _ _ _ ih ih' ih'' =>
    intro _ hu
    have hsubject := ih trivial hu.left
    have hcs := ih' (hsubject _ (by simp)).legal hu.right.left
    have hds := ih'' trivial hu.right.right
    refine hthunk (Code.glued_legal.joined.choice hcs fun ds heq d hd => ?_) rfl
    cases heq
    exact (hds d hd).legal
  | block _ ih =>
    intro _ hu
    have hcs := ih trivial hu
    exact hthunk (Code.IsInert.every_legal trivial fun c hc => (hcs c hc).legal) rfl
  | loopCount _ _ _ ih ih' =>
    intro _ hu
    have hbs := ih trivial hu.layer.left
    have hcs := ih' trivial hu.layer.right
    refine hthunk (Code.IsInert.every_legal trivial ?_) rfl
    exact List.forall_mem_append.2 ⟨fun b hb => (hbs b hb).legal, fun c hc => (hcs c hc).legal⟩
  | loopEach _ _ _ ih ih' =>
    intro _ hu
    have hc := ih trivial hu.layer.left
    have hcs := ih' trivial hu.layer.right
    refine hthunk (Code.IsInert.every_legal trivial ?_) rfl
    exact List.forall_mem_cons.2 ⟨(hc _ (by simp)).legal, fun c hc => (hcs c hc).legal⟩
  | loopPairs _ _ _ ih ih' =>
    intro _ hu
    have hc := ih trivial hu.layer.left
    have hcs := ih' trivial hu.layer.right
    refine hthunk (Code.IsInert.every_legal trivial ?_) rfl
    exact List.forall_mem_cons.2 ⟨(hc _ (by simp)).legal, fun c hc => (hcs c hc).legal⟩
  | lambda hargs _ ih =>
    intro htame hu
    simp only [Fragment.Tame, Form.opens?, hargs, Option.some.injEq, Step.spreadsAny_layer] at htame
    exact fun c hc => (ih htame hu.layer c hc).covers_of_nil
  | attempt _ _ ih ih' =>
    intro _ hu
    have hcs := ih trivial hu.left
    have hds := ih' trivial hu.right
    refine hthunk (.intro (fun takes body hfunction _ => ?_) ?_) rfl
    · cases hfunction
      exact hvariadic
    · refine List.forall_mem_cons.2 ⟨?_, List.forall_mem_singleton.2 ?_⟩
      · exact Code.IsInert.every_legal trivial fun c hc => (hcs c hc).legal
      · exact Code.IsInert.every_legal trivial fun d hd => (hds d hd).legal
  | handler _ _ ih =>
    intro htame hu
    have hcs := ih trivial hu.layer
    have hlines := Code.glued_covered _ (.lines _) trivial hcs
    refine List.forall_mem_singleton.2 ⟨.intro ?_ ?_, fun h => by cases h⟩
    · intro takes body hfunction hspreads
      cases hfunction
      have hused := hlines.spreads hspreads
      rw [← Step.spreadsAny_layer, htame rfl] at hused
      cases hused
    · exact List.forall_mem_singleton.2 hlines.legal
  | arguments =>
    intro _ _
    refine List.forall_mem_singleton.2 ⟨.intro ?_ (by simp [Code.parts]), fun _ => .inl rfl⟩
    intro takes body hfunction
    cases hfunction
  | sugar hexpands _ ih =>
    intro _ hu
    have hcs := ih trivial hu
    exact fun c hc => (hcs c hc).covers hexpands.opens?_eq_none
  | negation _ _ ih =>
    intro _ hu
    have hc := ih trivial hu
    refine List.forall_mem_singleton.2 (Code.Covered.covers ?_ rfl)
    exact Code.IsInert.covered trivial hc
  | operator _ _ ih =>
    intro _ hu
    have hcs := ih trivial hu
    refine List.forall_mem_singleton.2 (Code.Covered.covers ?_ rfl)
    refine (Code.glued_covered _).joined.combine _ _ fun c hc => ?_
    obtain ⟨d, hd, rfl⟩ := List.mem_map.1 hc
    exact (Code.glued_covered _).joined.operand (hcs d hd)

namespace Gen

/-- Where blocks pass `...` on, every function of an accepted source whose body uses `...` takes it,
if no call opens a function without `& rest` and uses `...` in it. Names that are emitted as they
are written must not bring a `...` of their own: the names behind access operators and those that a
`declare` lists are names of Lua, and that of a published source can stand in quotes. -/
theorem function_takes_arguments_it_spreads {source sourceName text : String} {options : Options}
    (h : (compile source sourceName options).1 = .ok text) (hvariadic : options.variadic = true)
    {p : Program} (hp : parse source = .ok p)
    (htame : Tame ((statements p).steps ⟨options, sourceName, source⟩
      (Session.start.publish ⟨options, sourceName, source⟩)))
    (hsegments : ∀ c ∈ p, ∀ x ∈ c.term.segments, isIdentifier x.name.text = true)
    (hdeclares : Step.Everywhere (·.declaresNames = true)
      ((statements p).steps ⟨options, sourceName, source⟩
        (Session.start.publish ⟨options, sourceName, source⟩)))
    (hmodule : options.publish = true → Quotable (stem sourceName)) :
    ∃ stmts s', (statements p).exec ⟨options, sourceName, source⟩
        (Session.start.publish ⟨options, sourceName, source⟩) = (.ok stmts, s') ∧
      text = (Chunk.mk options s'.package stmts).render ∧
      ∀ stmt ∈ stmts, ∀ c ∈ stmt.code.nodes, ∀ takes body,
        c.function? = some (takes, body) → body.spreads = true → takes = true := by
  obtain ⟨stmts, s', hexec, rfl⟩ := (compile_eq_ok_iff hp).1 h
  refine ⟨stmts, s', hexec, rfl, fun stmt hstmt c hc takes body hfunction hspreads => ?_⟩
  have hlowers := lowers_statements hereditary_emittable (emittable_of_parse hp hsegments)
    (gives_iff.2 ⟨hexec, rfl⟩)
  have hcovered := hlowers.covered hvariadic trivial htame _ (List.mem_map_of_mem hstmt)
  have hstart : (Session.start.publish ⟨options, sourceName, source⟩).Clean :=
    Session.Clean.start.publish hmodule
  obtain ⟨-, hformed⟩ := hlowers.formed hstart trivial hdeclares
  have hcontained := (hformed _ (List.mem_map_of_mem hstmt)).every_contained
  have hbody := (hcontained.of_mem hc).of_mem (Code.body_mem_nodes hfunction)
  exact hcovered.legal c hc takes body hfunction (Code.any_handsOn_of_spreads hbody hspreads)

/-- A function with `& rest` and blocks in it, one without and with none, and a block outside. -/
def spreading : Job :=
  ⟨.script, "test.crn", "(defn f [& xs] (let [y 1] (do y (...)))) (def g (fn [x] x)) (do (f 1))"⟩

theorem function_takes_arguments_it_spreads_blocks :
    ∃ text p, (compile spreading.code spreading.sourceName spreading.options).1 = .ok text ∧
      parse spreading.code = .ok p ∧
      Tame ((statements p).steps spreading (Session.start.publish spreading)) ∧
      ∃ stmts s',
        (statements p).exec spreading (Session.start.publish spreading) = (.ok stmts, s') ∧
        ∀ stmt ∈ stmts, ∀ c ∈ stmt.code.nodes, ∀ takes body,
          c.function? = some (takes, body) → body.spreads = true → takes = true := by
  have hcheck : (match parse spreading.code with
      | .ok p =>
        match (statements p).exec spreading (Session.start.publish spreading) with
        | (.ok _, _) =>
          (p.all fun c => c.term.segments.all fun x => isIdentifier x.name.text) &&
            (Step.flatten ((statements p).steps spreading (Session.start.publish spreading))).all
              fun step => !step.overreaches && step.declaresNames
        | _ => false
      | _ => false) = true := by
    decide +kernel
  split at hcheck
  · rename_i p hp
    split at hcheck
    · rename_i hexec
      simp only [List.all_eq_true, Bool.and_eq_true, Bool.not_eq_true'] at hcheck
      obtain ⟨hsegments, hsteps⟩ := hcheck
      have htext := (compile_eq_ok_iff hp).2 ⟨_, _, hexec, rfl⟩
      have htame : Tame ((statements p).steps spreading (Session.start.publish spreading)) :=
        Step.everywhere_of_flatten fun step hstep => (hsteps step hstep).1
      have hdeclares := Step.everywhere_of_flatten fun step hstep => (hsteps step hstep).2
      have hmodule : spreading.options.publish = true → Quotable (stem spreading.sourceName) :=
        fun hpublish => by cases hpublish
      obtain ⟨stmts, s', hstmts, -, hlegal⟩ :=
        function_takes_arguments_it_spreads htext rfl hp htame hsegments hdeclares hmodule
      exact ⟨_, p, htext, hp, htame, stmts, s', hstmts, hlegal⟩
    · cases hcheck
  · cases hcheck

/-- A block in a function without `& rest`. -/
def cramped : Job :=
  ⟨.script, "test.crn", "(defn f [x] (do x))"⟩

/-- The program is accepted, and the block uses a `...` that the function does not take. -/
theorem block_spreads_missing_arguments :
    (parse cramped.code).toOption.bind (fun p =>
      ((statements p).exec cramped (Session.start.publish cramped)).1.toOption.map fun stmts =>
        stmts.any fun stmt => stmt.code.nodes.any fun c =>
          c.function?.any fun f => f.2.spreads && !f.1) = some true := by
  decide +kernel

end Gen

end LispLua
