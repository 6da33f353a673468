import LispLua.Proofs.Lexical.Words
import LispLua.Proofs.Lowering.Parts

/-!
# The kinds of generated code

Which code can stand where: values, the entries of tables, the arms of a match, the lines of a body,
and the blocks that functions are made of. The text of code of a kind closes what it opens, and
the texts in it that are not code stay in the quotes or the comment around them.
-/

namespace LispLua.Lua

/-- A text that stands in double quotes as it is. -/
def Quotable (text : String) : Prop :=
  Stays (.string '"' false) text.toList

/-- The expression of a table that members are taken from. -/
inductive IsTable : String → Prop
  | name : isIdentifier text = true → IsTable text
  | published : Quotable text → IsTable (publishedPackage text)

/-- The text of an operator between values. -/
inductive IsOperator : String → Prop
  | equals : IsOperator " == "
  | operator (op : Operator) : IsOperator op.text

/-- The texts of a node of code stay where they are put: names are names of Lua, literals are
closed, operators are operators of Lua, and what stands in quotes or in a comment does not leave
it. -/
def Code.Contained : Code → Prop
  | word text => IsAtom text
  | quoted text | symbol text => Quotable text
  | member owner key => IsTable owner ∧ Quotable key
  | field _ name | method _ name | bind name _ | handler name _ | declareThen name _
  | loadAs name _ | count name _ _ => isIdentifier name = true
  | each key value _ _ => isIdentifier key = true ∧ isIdentifier value = true
  | closure names rest _ => ∀ name ∈ names ++ rest.toList, isIdentifier name = true
  | chain operator _ | binary operator _ _ => IsOperator operator
  | loadMembers names _ => ∀ n ∈ names, isIdentifier n.1 = true ∧ Quotable n.2
  | moduleNote name _ => Stays .line name.toList
  | externNote names specifiers => ∀ text ∈ names ++ specifiers, Stays (.long false) text.toList
  | _ => True

/-- What a place in code is for. -/
inductive CodeKind where
  | value
  | entry
  | arm
  | line
  | block

/-- Code that can stand in a place. Definitions and comments can stand where values can. -/
inductive Formed : CodeKind → Code → Prop
  -- values
  | word : IsAtom text → Formed .value (.word text)
  | quoted : Quotable text → Formed .value (.quoted text)
  | member : IsTable owner → Quotable key → Formed .value (.member owner key)
  | symbol : Quotable name → Formed .value (.symbol name)
  | field : isIdentifier name = true → Formed .value c → Formed .value (.field c name)
  | method : isIdentifier name = true → Formed .value c → Formed .value (.method c name)
  | item : Formed .value c → Formed .value (.item c index)
  | paren : Formed .value c → Formed .value (.paren c)
  | call : Formed .value c → (∀ d ∈ cs, Formed .value d) → Formed .value (.call c cs)
  | list : (∀ c ∈ cs, Formed .value c) → Formed .value (.list cs)
  | arguments : Formed .value .arguments
  | table : (∀ c ∈ cs, Formed .entry c) → Formed .value (.table cs)
  | record : (∀ c ∈ cs, Formed .entry c) → Formed .value (.record cs)
  | chain (op : Operator) : (∀ c ∈ cs, Formed .value c) →
      (∀ c ∈ cs, c.render.toList.head? ≠ some '-') → Formed .value (.chain op.text cs)
  | binary : IsOperator operator → startsApart operator.toList = true → Shuts operator.toList →
      Formed .value c → Formed .value d → Formed .value (.binary operator c d)
  | negate : Formed .value c → Formed .value (.negate c)
  | power : Formed .value c → Formed .value d → Formed .value (.power c d)
  | isTable : Formed .value c → Formed .value (.isTable c)
  | every : cs ≠ [] → (∀ c ∈ cs, Formed .value c) → Formed .value (.every cs)
  | thunk : Formed .block c → Formed .value (.thunk variadic c)
  | closure {rest : Option String} :
      (∀ name ∈ names ++ rest.toList, isIdentifier name = true) → Formed .block c →
      Formed .value (.closure names rest c)
  | handler : isIdentifier name = true → Formed .block c → Formed .value (.handler name c)
  | bind : isIdentifier name = true → Formed .value c → Formed .value (.bind name c)
  | assign : Formed .value c → Formed .value d → Formed .value (.assign c d)
  | define : Formed .value c → Formed .value d → Formed .value (.define c d)
  | declareThen : isIdentifier name = true → Formed .value c → Formed .value (.declareThen name c)
  | load : Formed .value c → Formed .value (.load c)
  | loadAs : isIdentifier name = true → Formed .value c → Formed .value (.loadAs name c)
  | loadMembers : (∀ n ∈ members, isIdentifier n.1 = true ∧ Quotable n.2) → Formed .value c →
      Formed .value (.loadMembers members c)
  | moduleNote : Stays .line name.toList → (∀ c ∈ cs, Formed .value c) →
      Formed .value (.moduleNote name cs)
  | externNote : (∀ text ∈ names ++ specifiers, Stays (.long false) text.toList) →
      Formed .value (.externNote names specifiers)
  -- parts of values and of blocks
  | entry : Formed .value c → Formed .value d → Formed .entry (.entry c d)
  | arm : Formed .value c → Formed .value d → Formed .arm (.arm c d)
  | run : separated = true ∨ c.IsNote → Formed .value c → Formed .line (.run separated c)
  | give : separated = true ∨ c.IsNote → Formed .value c → Formed .line (.give separated c)
  -- blocks
  | lines : (∀ c ∈ cs, Formed .line c) → Formed .block (.lines cs)
  | scope : (∀ c ∈ cs, Formed .value c) → Formed .block d → Formed .block (.scope cs d)
  | branch : Formed .value c → Formed .value d → Formed .block e → Formed .block (.branch c d e)
  | choose : cs ≠ [] → (∀ c ∈ cs, Formed .arm c) → Formed .block (.choose cs)
  | chooseElse : cs ≠ [] → (∀ c ∈ cs, Formed .arm c) → Formed .block d →
      Formed .block (.chooseElse cs d)
  | count : isIdentifier name = true → (∀ c ∈ cs, Formed .value c) → (∀ d ∈ ds, Formed .value d) →
      Formed .block (.count name cs ds)
  | each : isIdentifier key = true → isIdentifier name = true → Formed .value c →
      (∀ d ∈ cs, Formed .value d) → Formed .block (.each key name c cs)
  | protect : Formed .block c → Formed .block d → Formed .block (.protect variadic c d)

/-- In code of a kind all texts stay where they are put. -/
theorem Formed.every_contained {kind : CodeKind} {c : Code} (h : Formed kind c) :
    c.Every Code.Contained := by
  induction h with
  | word h => exact .intro h (by simp [Code.parts])
  | quoted h => exact .intro h (by simp [Code.parts])
  | symbol h => exact .intro h (by simp [Code.parts])
  | externNote h => exact .intro h (by simp [Code.parts])
  | member howner hkey => exact .intro ⟨howner, hkey⟩ (by simp [Code.parts])
  | arguments => exact .intro trivial (by simp [Code.parts])
  | field h _ ih => exact .intro h (List.forall_mem_singleton.2 ih)
  | method h _ ih => exact .intro h (List.forall_mem_singleton.2 ih)
  | closure h _ ih => exact .intro h (List.forall_mem_singleton.2 ih)
  | handler h _ ih => exact .intro h (List.forall_mem_singleton.2 ih)
  | bind h _ ih => exact .intro h (List.forall_mem_singleton.2 ih)
  | declareThen h _ ih => exact .intro h (List.forall_mem_singleton.2 ih)
  | loadAs h _ ih => exact .intro h (List.forall_mem_singleton.2 ih)
  | loadMembers h _ ih => exact .intro h (List.forall_mem_singleton.2 ih)
  | item _ ih | paren _ ih | negate _ ih | isTable _ ih | thunk _ ih | load _ ih | run _ _ ih
  | give _ _ ih => exact .intro trivial (List.forall_mem_singleton.2 ih)
  | power _ _ ih ih' | assign _ _ ih ih' | define _ _ ih ih'
  | entry _ _ ih ih' | arm _ _ ih ih' | protect _ _ ih ih' =>
    exact .intro trivial (List.forall_mem_cons.2 ⟨ih, List.forall_mem_singleton.2 ih'⟩)
  | binary h _ _ _ _ ih ih' =>
    exact .intro h (List.forall_mem_cons.2 ⟨ih, List.forall_mem_singleton.2 ih'⟩)
  | branch _ _ _ ih ih' ih'' =>
    exact .intro trivial
      (List.forall_mem_cons.2 ⟨ih, List.forall_mem_cons.2 ⟨ih', List.forall_mem_singleton.2 ih''⟩⟩)
  | list _ ih | table _ ih | record _ ih | every _ _ ih | lines _ ih | choose _ _ ih =>
    exact .intro trivial ih
  | chain op _ _ ih => exact .intro (.operator op) ih
  | moduleNote h _ ih => exact .intro h ih
  | call _ _ ih ih' => exact .intro trivial (List.forall_mem_cons.2 ⟨ih, ih'⟩)
  | scope _ _ ih ih' | chooseElse _ _ _ ih ih' =>
    exact .intro trivial (List.forall_mem_append.2 ⟨ih, List.forall_mem_singleton.2 ih'⟩)
  | count h _ _ ih ih' => exact .intro h (List.forall_mem_append.2 ⟨ih, ih'⟩)
  | each hkey hname _ _ ih ih' =>
    exact .intro ⟨hkey, hname⟩ (List.forall_mem_cons.2 ⟨ih, ih'⟩)

/-! ### The texts of the kinds -/

/-- The text of code with gaps for the texts inside it. -/
def Code.pieces : Code → List Piece
  | word text => [.gap text]
  | quoted text => [.text "\"", .within (.string '"' false) text, .text "\""]
  | member owner key => [.gap owner, .text "[\"", .within (.string '"' false) key, .text "\"]"]
  | field owner name => [.gap owner.render, .text ".", .word name]
  | method owner name => [.gap owner.render, .text ":", .word name]
  | item owner index => [.gap owner.render, .text "[", .key (toString index), .text "]"]
  | symbol name => [.text "charon.symbol\"", .within (.string '"' false) name, .text "\""]
  | paren inner => [.text "(", .gap inner.render, .text ")"]
  | call callee args =>
    [.gap callee.render, .text "(", .gap (String.intercalate "," (renderAll args)), .text ")"]
  | list items =>
    [.text "charon.list\x7b ", .gap (String.intercalate "," (renderAll items)), .text " \x7d"]
  | arguments => [.text "charon.list\x7b...\x7d"]
  | entry key value => [.text "[", .key key.render, .text "] = ", .gap value.render]
  | table entries =>
    [.text "charon.table\x7b ", .gap (String.intercalate "," (renderAll entries)), .text " \x7d"]
  | record entries =>
    [.text "\x7b ", .gap (String.intercalate "," (renderAll entries)), .text " \x7d"]
  | chain operator operands =>
    [.text "(", .gap (String.intercalate operator (renderAll operands)), .text ")"]
  | binary operator left right => [.gap left.render, .text operator, .gap right.render]
  | negate inner => [.text "(not ", .gap inner.render, .text ")"]
  | power base exponent =>
    [.text "math.pow(", .gap base.render, .text ", ", .gap exponent.render, .text ")"]
  | isTable value => [.text "type(", .gap value.render, .text ") == 'table'"]
  | every tests => [.gap (String.intercalate " and " (renderAll tests))]
  | thunk variadic body =>
    [.text "(function(", .gap (ellipsis variadic), .text ") ", .gap body.render, .text " end)(",
      .gap (ellipsis variadic), .text ")"]
  | lines pieces => [.whole (String.join (renderAll pieces))]
  | run separated code => [.whole (terminate separated code.render)]
  | give separated code => [.text "return ", .whole (terminate separated code.render)]
  | bind name value => [.text "local ", .word name, .text " = ", .gap value.render]
  | scope bindings body =>
    [.gap (String.intercalate ";" (renderAll bindings)), .text "; ", .gap body.render]
  | branch test yes no =>
    [.text "if ", .gap test.render, .text " then return ", .gap yes.render, .text "; else ",
      .gap no.render, .text " end"]
  | arm test value =>
    [.text "if ", .gap test.render, .text " then return ", .gap value.render, .text ";"]
  | choose arms => [.gap (String.intercalate " else" (renderAll arms)), .text " end"]
  | chooseElse arms otherwise =>
    [.gap (String.intercalate " else" (renderAll arms)), .text " else ", .gap otherwise.render,
      .text " end"]
  | count name bounds body =>
    [.text "for ", .word name, .text "=", .bounds (String.intercalate ", " (renderAll bounds)),
      .gap (String.intercalate ";" (renderAll body)), .text " end"]
  | each key value source body =>
    [.text "for ", .word key, .text ", ", .word value, .text " in pairs(", .gap source.render,
      .text ") do ", .gap (String.intercalate ";" (renderAll body)), .text " end"]
  | protect variadic body rescue =>
    [.text "local _ok, _err = pcall(function(", .gap (ellipsis variadic), .text ") ",
      .gap body.render, .text " end", .text (if variadic then ", ..." else ""),
      .text "); if _ok then return _err; else ", .gap rescue.render, .text " end"]
  | handler name body =>
    [.text "(function(", .word name, .text ") ", .gap body.render, .text " end)(_err)"]
  | closure parameters rest body =>
    [.text "(function() local __self_ref__; __self_ref__ = function(",
      .gap (parameterList parameters rest), .text ")"] ++
      (match rest with
        | some name => [.text " local ", .word name, .text " = charon.list\x7b...\x7d;"]
        | none => []) ++
      [.text " ", .gap body.render, .text " end; return __self_ref__; end)()"]
  | assign place value => [.gap place.render, .text " = ", .gap value.render]
  | define place value => [.gap place.render, .text " = ", .gap value.render, .text ";"]
  | declareThen name value =>
    [.text "local ", .word name, .text "; ", .word name, .text " = ", .gap value.render]
  | load source => [.text "require(", .gap source.render, .text ");"]
  | loadAs name source =>
    [.text "local ", .word name, .text " = require(", .gap source.render, .text ");"]
  | loadMembers names source =>
    [.whole (memberDeclarations names), .text "do local __package = require(", .gap source.render,
      .text "); ", .whole (memberAssignments names), .text " end"]
  | moduleNote name loads =>
    [.text "-- Module ", .within .line name, .text "\n",
      .gap (String.intercalate "\n" (renderAll loads))]
  | externNote names specifiers =>
    [.text "--[[ Extern symbol ", .within (.long false) (String.intercalate "," names),
      .text " \x7b", .within (.long false) (String.intercalate "," specifiers), .text "\x7d ]]"]

theorem Code.render_eq (c : Code) : c.render.toList = c.pieces.flatMap Piece.chars := by
  rw [Code.render.eq_def]
  cases c with
  | closure _ rest _ =>
    cases rest <;>
      simp only [Code.pieces, Piece.chars, String.toList_append, String.toList_empty,
        List.flatMap_append, List.flatMap_cons, List.flatMap_nil, List.append_assoc,
        List.append_nil]
  | _ =>
    simp only [Code.pieces, Piece.chars, String.toList_append, List.flatMap_cons,
      List.flatMap_nil, List.append_assoc, List.append_nil]

theorem Code.reads {c : Code} (h : (walk false .start c.pieces).bind (·.2.ending) = some [])
    (hps : Filled c.pieces) : Reads c.render.toList :=
  c.render_eq ▸ .of_walk h hps

theorem Code.shuts {c : Code} (h : walk false .start c.pieces = some (false, .start))
    (hps : Filled c.pieces) : Shuts c.render.toList :=
  c.render_eq ▸ .of_walk h hps

theorem Code.neat {c : Code} {p : Piece} {ps : List Piece} (hc : c.pieces = p :: ps)
    (hp : startsClear p.chars = true)
    (h : (walk false .start (p :: ps)).bind (·.2.ending) = some [])
    (hps : Filled (p :: ps)) : Neat c.render.toList := by
  rw [c.render_eq, hc]
  exact .of_walk hp h hps

/-- What is known of the text of a kind. An arm is left open for what stands behind it. -/
def CodeKind.Holds : CodeKind → List Char → Prop
  | value, cs => Neat cs
  | entry, cs | block, cs => Reads cs
  | line, cs => Shuts cs
  | arm, cs => ∃ ds, cs = "if ".toList ++ ds ∧ Continues ds

theorem IsTable.neat {text : String} (h : IsTable text) : Neat text.toList := by
  cases h with
  | name h => exact neat_of_isName h
  | @published text h =>
    have hglobal : Neat "_G".toList := neat_of_isName rfl
    exact Code.neat (c := .member "_G" text) rfl rfl rfl ⟨hglobal.1, h, trivial⟩

/-! ### Rows -/

theorem reads_row (sep : String) {cs : List Code} (hapart : startsApart sep.toList = true)
    (hsep : Shuts sep.toList) (h : ∀ c ∈ cs, Reads c.render.toList) :
    Reads (String.intercalate sep (renderAll cs)).toList := by
  rw [String.toList_intercalate, renderAll_eq_map, List.map_map]
  refine .intercalate hapart hsep (List.forall_mem_map.2 h) fun _ _ _ => rfl

theorem neat_row (sep : String) {cs : List Code} (hapart : startsApart sep.toList = true)
    (hsep : Shuts sep.toList) (hne : cs ≠ []) (h : ∀ c ∈ cs, Neat c.render.toList) :
    Neat (String.intercalate sep (renderAll cs)).toList := by
  rw [String.toList_intercalate, renderAll_eq_map, List.map_map]
  exact .intercalate hapart hsep (by simpa using hne) (List.forall_mem_map.2 h)

/-- Operands between operators. Behind a minus sign another one would start a comment. -/
theorem reads_operands (op : Operator) {cs : List Code} (h : ∀ c ∈ cs, Neat c.render.toList)
    (hminus : ∀ c ∈ cs, c.render.toList.head? ≠ some '-') :
    Reads (String.intercalate op.text (renderAll cs)).toList := by
  have hreads : ∀ c ∈ cs, Reads c.render.toList := fun c hc => (h c hc).1
  cases op with
  | sub =>
    rw [String.toList_intercalate, renderAll_eq_map, List.map_map]
    have hsep : scan .start "-".toList = some ⟨.minus, []⟩ := rfl
    refine .intercalate rfl hsep (List.forall_mem_map.2 hreads) ?_
    refine List.forall_mem_map.2 fun c hc rest => ?_
    have hstart := (h c hc).2
    have hhead := hminus c hc
    show scan ⟨.minus, []⟩ (c.render.toList ++ rest) = scan .start (c.render.toList ++ rest)
    generalize c.render.toList = ds at hstart hhead
    cases ds with
    | nil => cases hstart
    | cons d ds => exact scan_minus (List.cons_ne_nil d (ds ++ rest)) hhead []
  | _ => exact reads_row _ rfl rfl hreads

theorem reads_ellipsis (variadic : Bool) : Reads (ellipsis variadic).toList := by
  cases variadic with
  | true => exact Shuts.reads rfl
  | false => exact reads_nil

theorem reads_parameterList {names : List String} {rest : Option String}
    (h : ∀ name ∈ names ++ rest.toList, isIdentifier name = true) :
    Reads (parameterList names rest).toList := by
  rw [parameterList, String.toList_intercalate]
  refine .intercalate rfl rfl (List.forall_mem_map.2 fun name hname => ?_) fun _ _ _ => rfl
  rcases List.mem_append.1 hname with hname | hname
  · have hword := isPlainWord_of_isIdentifier (h name (List.mem_append.2 (.inl hname)))
    exact hword.reads
  · cases rest with
    | none => cases hname
    | some _ =>
      obtain rfl := List.mem_singleton.1 hname
      exact Shuts.reads rfl

theorem stays_row {texts : List String} (h : ∀ text ∈ texts, Stays (.long false) text.toList) :
    Stays (.long false) (String.intercalate "," texts).toList := by
  rw [String.toList_intercalate]
  exact .intercalate (by simp [Stays, Mode.aside]) (List.forall_mem_map.2 h)

theorem shuts_join {texts : List String} (h : ∀ text ∈ texts, Shuts text.toList) :
    Shuts (String.join texts).toList := by
  rw [String.toList_join]
  induction texts with
  | nil => rfl
  | cons t texts ih =>
    obtain ⟨ht, htexts⟩ := List.forall_mem_cons.1 h
    exact ht.append (ih htexts)

theorem shuts_memberDeclarations {members : List (String × String)}
    (h : ∀ n ∈ members, isIdentifier n.1 = true ∧ Quotable n.2) :
    Shuts (memberDeclarations members).toList := by
  refine shuts_join (List.forall_mem_map.2 fun n hn => ?_)
  have hword := isPlainWord_of_isIdentifier (h n hn).1
  have hshuts : Shuts ([.text "local ", .word n.1, .text ";\n"].flatMap Piece.chars) :=
    .of_walk rfl ⟨hword, trivial⟩
  simpa only [Piece.chars, String.toList_append, List.flatMap_cons, List.flatMap_nil,
    List.append_assoc, List.append_nil] using hshuts

theorem shuts_memberAssignments {members : List (String × String)}
    (h : ∀ n ∈ members, isIdentifier n.1 = true ∧ Quotable n.2) :
    Shuts (memberAssignments members).toList := by
  refine shuts_join (List.forall_mem_map.2 fun n hn => ?_)
  have hword := isPlainWord_of_isIdentifier (h n hn).1
  have hshuts : Shuts ([.word n.1, .text " = __package[\"", .within (.string '"' false) n.2,
      .text "\"];"].flatMap Piece.chars) :=
    .of_walk rfl ⟨hword, (h n hn).2, trivial⟩
  simpa only [Piece.chars, String.toList_append, List.flatMap_cons, List.flatMap_nil,
    List.append_assoc, List.append_nil] using hshuts

theorem reads_terminate {text : String} (separated : Bool) (h : Reads text.toList) :
    Reads (terminate separated text).toList := by
  rw [terminate]
  split
  · have hshuts : Shuts (text.toList ++ ";".toList) := h.append_shuts rfl rfl
    rw [String.toList_append]
    exact hshuts.reads
  · exact h

/-- A statement is ended by its semicolon, and a comment ends itself. -/
theorem shuts_terminate {separated : Bool} {c : Code} (h : separated = true ∨ c.IsNote)
    (hc : Reads c.render.toList) : Shuts (terminate separated c.render).toList := by
  have hlast : ∀ d, c.render.toList.getLast? = some d → isWordChar d = false →
      Shuts c.render.toList := by
    intro d hd hword
    obtain ⟨ds, hds⟩ := List.getLast?_eq_some_iff.1 hd
    rw [hds] at hc ⊢
    exact hc.shuts hword
  rw [terminate]
  split
  · rw [String.toList_append]
    exact hc.append_shuts rfl rfl
  · rename_i hsemicolon
    rcases h with rfl | hnote
    · exact hlast ';' (by simpa using hsemicolon) rfl
    · obtain ⟨names, specifiers⟩ := hnote
      refine hlast ']' ?_ rfl
      rw [Code.render_eq]
      simp [Code.pieces, Piece.chars, List.getLast?_cons, List.getLast?_append]

/-- Arms are joined to one choice, which is left open. -/
theorem arms_row {cs : List Code} (hne : cs ≠ [])
    (h : ∀ c ∈ cs, CodeKind.arm.Holds c.render.toList) :
    ∃ ds, Continues ds ∧
      (String.intercalate " else" (renderAll cs)).toList = "if ".toList ++ ds := by
  rw [String.toList_intercalate, renderAll_eq_map, List.map_map]
  induction cs with
  | nil => cases hne rfl
  | cons c cs ih =>
    obtain ⟨⟨ds, hds, hcontinues⟩, hcs⟩ := List.forall_mem_cons.1 h
    cases cs with
    | nil => exact ⟨ds, hcontinues, by simpa using hds⟩
    | cons c' cs =>
      obtain ⟨es, hcontinues', hes⟩ := ih (by simp) hcs
      have hjoint : Continues " elseif ".toList := rfl
      refine ⟨ds ++ " elseif ".toList ++ es, (hcontinues.append hjoint).append hcontinues', ?_⟩
      rw [List.map_cons, List.map_cons, List.intercalate_cons_cons, ← List.map_cons, hes]
      simp [hds]

/-- The text of code of a kind closes what it opens. -/
theorem Formed.holds {kind : CodeKind} {c : Code} (h : Formed kind c) :
    kind.Holds c.render.toList := by
  induction h with
  | word h => exact h.neat
  | quoted h => exact Code.neat rfl rfl rfl ⟨h, trivial⟩
  | member howner hkey => exact Code.neat rfl howner.neat.2 rfl ⟨howner.neat.1, hkey, trivial⟩
  | symbol h => exact Code.neat rfl rfl rfl ⟨h, trivial⟩
  | field h _ ih | method h _ ih =>
    exact Code.neat rfl ih.2 rfl ⟨ih.1, isPlainWord_of_isIdentifier h, trivial⟩
  | item _ ih => exact Code.neat rfl ih.2 rfl ⟨ih.1, neat_toString _, trivial⟩
  | paren _ ih => exact Code.neat rfl rfl rfl ⟨ih.1, trivial⟩
  | call _ _ ih ih' =>
    have hrow := reads_row "," rfl rfl fun d hd => (ih' d hd).1
    exact Code.neat rfl ih.2 rfl ⟨ih.1, hrow, trivial⟩
  | list _ ih =>
    have hrow := reads_row "," rfl rfl fun d hd => (ih d hd).1
    exact Code.neat rfl rfl rfl ⟨hrow, trivial⟩
  | arguments => exact Code.neat rfl rfl rfl trivial
  | table _ ih | record _ ih =>
    have hrow := reads_row "," rfl rfl ih
    exact Code.neat rfl rfl rfl ⟨hrow, trivial⟩
  | chain op _ hminus ih =>
    have hrow := reads_operands op ih hminus
    exact Code.neat rfl rfl rfl ⟨hrow, trivial⟩
  | @binary operator c d _ hapart hshuts _ _ ih ih' =>
    have hwalk : walk false .start [.gap c.render, .text operator, .gap d.render] =
        some (true, .start) := by
      show (if true && !startsApart operator.toList then none
        else (scan .start operator.toList).bind (walk false · [.gap d.render])) = _
      rw [hapart, show scan .start operator.toList = some .start from hshuts]
      rfl
    exact Code.neat rfl ih.2 (by rw [hwalk]; rfl) ⟨ih.1, ih'.1, trivial⟩
  | negate _ ih | isTable _ ih | load _ ih => exact Code.neat rfl rfl rfl ⟨ih.1, trivial⟩
  | power _ _ ih ih' => exact Code.neat rfl rfl rfl ⟨ih.1, ih'.1, trivial⟩
  | every hne _ ih => exact neat_row " and " rfl rfl hne ih
  | @thunk _ variadic _ ih =>
    exact Code.neat rfl rfl rfl ⟨reads_ellipsis variadic, ih, reads_ellipsis variadic, trivial⟩
  | @closure _ _ rest h _ ih =>
    have hparameters := reads_parameterList h
    cases rest with
    | none => exact Code.neat rfl rfl rfl ⟨hparameters, ih, trivial⟩
    | some name =>
      have hname := isPlainWord_of_isIdentifier (h name (by simp))
      exact Code.neat rfl rfl rfl ⟨hparameters, hname, ih, trivial⟩
  | handler h _ ih => exact Code.neat rfl rfl rfl ⟨isPlainWord_of_isIdentifier h, ih, trivial⟩
  | bind h _ ih | loadAs h _ ih =>
    exact Code.neat rfl rfl rfl ⟨isPlainWord_of_isIdentifier h, ih.1, trivial⟩
  | declareThen h _ ih =>
    have hname := isPlainWord_of_isIdentifier h
    exact Code.neat rfl rfl rfl ⟨hname, hname, ih.1, trivial⟩
  | assign _ _ ih ih' | define _ _ ih ih' =>
    exact Code.neat rfl ih.2 rfl ⟨ih.1, ih'.1, trivial⟩
  | @loadMembers members c h _ ih =>
    have hdeclarations := shuts_memberDeclarations h
    have hassignments := shuts_memberAssignments h
    refine ⟨Code.reads rfl ⟨hdeclarations, ih.1, hassignments, trivial⟩, ?_⟩
    rw [Code.render_eq]
    cases members with
    | nil => rfl
    | cons n members =>
      refine startsClear_append (?_ : startsClear (memberDeclarations _).toList = true) _
      simp only [memberDeclarations, String.toList_join, List.map_cons, List.flatMap_cons,
        String.toList_append, List.append_assoc]
      rfl
  | moduleNote h _ ih =>
    have hrow := reads_row "\n" rfl rfl fun d hd => (ih d hd).1
    exact Code.neat rfl rfl rfl ⟨h, hrow, trivial⟩
  | externNote h =>
    obtain ⟨hnames, hspecifiers⟩ := List.forall_mem_append.1 h
    exact Code.neat rfl rfl rfl ⟨stays_row hnames, stays_row hspecifiers, trivial⟩
  | entry _ _ ih ih' => exact Code.reads rfl ⟨ih, ih'.1, trivial⟩
  | @arm c d _ _ ih ih' =>
    have htail : walk false ⟨.code [], [.choice]⟩ (Code.pieces (.arm c d)).tail =
        some (false, ⟨.code [], [.choice]⟩) := rfl
    exact ⟨_, Code.render_eq (.arm c d), .of_walk htail ⟨ih.1, ih'.1, trivial⟩⟩
  | run h _ ih | give h _ ih => exact Code.shuts rfl ⟨shuts_terminate h ih.1, trivial⟩
  | @lines cs _ ih =>
    have hjoin : Shuts (String.join (renderAll cs)).toList :=
      shuts_join (renderAll_eq_map cs ▸ List.forall_mem_map.2 ih)
    exact Code.reads rfl ⟨hjoin, trivial⟩
  | scope _ _ ih ih' =>
    have hrow := reads_row ";" rfl rfl fun d hd => (ih d hd).1
    exact Code.reads rfl ⟨hrow, ih', trivial⟩
  | branch _ _ _ ih ih' ih'' => exact Code.reads rfl ⟨ih.1, ih'.1, ih'', trivial⟩
  | choose hne _ ih =>
    obtain ⟨arms, hcontinues, harms⟩ := arms_row hne ih
    have hreads := hcontinues.reads [.text " end"] rfl trivial
    show Reads _
    rw [Code.render_eq]
    simpa only [Code.pieces, Piece.chars, harms, List.flatMap_cons, List.append_assoc] using hreads
  | @chooseElse _ d hne _ _ ih ih' =>
    obtain ⟨arms, hcontinues, harms⟩ := arms_row hne ih
    have hreads := hcontinues.reads [.text " else ", .gap d.render, .text " end"] rfl ⟨ih', trivial⟩
    show Reads _
    rw [Code.render_eq]
    simpa only [Code.pieces, Piece.chars, harms, List.flatMap_cons, List.append_assoc] using hreads
  | count h _ _ ih ih' =>
    have hrow := reads_row ", " rfl rfl fun d hd => (ih d hd).1
    have hrow' := reads_row ";" rfl rfl fun d hd => (ih' d hd).1
    exact Code.reads rfl ⟨isPlainWord_of_isIdentifier h, hrow, hrow', trivial⟩
  | each hkey hname _ _ ih ih' =>
    have hrow := reads_row ";" rfl rfl fun d hd => (ih' d hd).1
    exact Code.reads rfl
      ⟨isPlainWord_of_isIdentifier hkey, isPlainWord_of_isIdentifier hname, ih.1, hrow, trivial⟩
  | @protect _ _ variadic _ _ ih ih' =>
    cases variadic with
    | true => exact Code.reads rfl ⟨reads_ellipsis true, ih, ih', trivial⟩
    | false => exact Code.reads rfl ⟨reads_ellipsis false, ih, ih', trivial⟩

end LispLua.Lua
