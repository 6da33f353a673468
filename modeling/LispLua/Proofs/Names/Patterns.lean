import LispLua.Proofs.Lowering.Machine
import LispLua.Proofs.Names.Free
import Mathlib.Data.Set.List

/-!
# Names of patterns

A pattern is a term whose leaves are bound to parts of a value: lists nest, and everything else is a
leaf. Binding goes through the leaves from left to right. Each name among them becomes a local name
of the innermost block, with the access to its part of the value, and the first leaf that is no name
is refused.

Positions are lists of indices, that of the outermost list first. The order of the text is the
lexicographic one, since no position of a leaf starts with another.
-/

namespace LispLua

open Lua

/-! ### Names that a layer gains -/

namespace Layers

variable {τ κ ν : Type} (l : Layers τ κ ν)

/-- The entries of the innermost layer. -/
def frame : List (κ × ν) :=
  match l.inner with
  | [] => l.root
  | layer :: _ => layer.entries

/-- The store with an empty innermost layer. -/
def cleared : Layers τ κ ν :=
  match l.inner with
  | [] => { l with root := [] }
  | layer :: outer => { l with inner := { layer with entries := [] } :: outer }

theorem frame_set (key : κ) (value : ν) : (l.set key value).frame = (key, value) :: l.frame := by
  obtain ⟨root, _ | ⟨layer, outer⟩⟩ := l
  · rfl
  · rfl

theorem cleared_set (key : κ) (value : ν) : (l.set key value).cleared = l.cleared := by
  obtain ⟨root, _ | ⟨layer, outer⟩⟩ := l
  · rfl
  · rfl

end Layers

namespace Session

/-- Some names become local names of the innermost layer, and nothing else changes. -/
structure Gains (s : Session) (names : List String) (s' : Session) : Prop where
  frame (name : String) : s'.scope.frame.lookup name =
    if name ∈ names then some (Binding.declare name .value .block false)
    else s.scope.frame.lookup name
  others : { s' with scope := s'.scope.cleared } = { s with scope := s.scope.cleared }

theorem gains_withLocals (s : Session) (tokens : List Token) :
    s.Gains (tokens.map Token.text) (s.withLocals tokens) := by
  induction tokens generalizing s with
  | nil => exact ⟨fun name => by simp [withLocals], rfl⟩
  | cons t tokens ih =>
    have hrest := ih (s.withLocal t)
    have hothers : { s.withLocal t with scope := (s.withLocal t).scope.cleared } =
        { s with scope := s.scope.cleared } := by
      simp only [withLocal, Layers.cleared_set]
    refine ⟨fun name => ?_, hrest.others.trans hothers⟩
    rw [withLocals, List.foldl_cons, ← withLocals, hrest.frame, withLocal, Layers.frame_set,
      List.lookup_cons, List.map_cons]
    by_cases hname : name = t.text
    · simp [hname]
    · simp [hname, beq_eq_false_iff_ne.2 hname]

end Session

/-! ### The leaves of a pattern -/

namespace Term

/-- The term at a position inside nested lists. -/
def at? (t : Term) : List Nat → Option Term
  | [] => some t
  | index :: rest => t.items[index]?.bind fun item => item.at? rest

mutual

/-- The leaves of a pattern with their positions, from left to right. -/
def leaves : Term → List (List Nat × Term)
  | .list items _ => leavesFrom items 0
  | t => [([], t)]

/-- The leaves of the items of a list from `index` on. -/
def leavesFrom : List Term → Nat → List (List Nat × Term)
  | [], _ => []
  | t :: ts, index => t.leaves.map (fun l => (index :: l.1, l.2)) ++ leavesFrom ts (index + 1)

end

theorem leaves_of_ne_list {t : Term} (h : t.shape ≠ .list) : t.leaves = [([], t)] := by
  cases t <;> first | rfl | exact absurd rfl h

theorem items_of_ne_list {t : Term} (h : t.shape ≠ .list) : t.items = [] := by
  cases t <;> first | rfl | exact absurd rfl h

theorem mem_leavesFrom_iff {ts : List Term} {start : Nat} {path : List Nat} {leaf : Term} :
    (path, leaf) ∈ leavesFrom ts start ↔ ∃ index rest item,
      path = (start + index) :: rest ∧ ts[index]? = some item ∧ (rest, leaf) ∈ item.leaves := by
  induction ts generalizing start with
  | nil => simp [leavesFrom]
  | cons t ts ih =>
    rw [leavesFrom, List.mem_append, ih]
    constructor
    · rintro (hmem | ⟨index, rest, item, rfl, hitem, hleaf⟩)
      · obtain ⟨⟨rest, leaf⟩, hleaf, heq⟩ := List.mem_map.1 hmem
        cases heq
        exact ⟨0, rest, t, rfl, rfl, hleaf⟩
      · exact ⟨index + 1, rest, item, by rw [Nat.add_right_comm, Nat.add_assoc], hitem, hleaf⟩
    · rintro ⟨_ | index, rest, item, rfl, hitem, hleaf⟩
      · cases hitem
        exact .inl (List.mem_map.2 ⟨(rest, leaf), hleaf, rfl⟩)
      · exact .inr ⟨index, rest, item, by rw [Nat.add_right_comm, Nat.add_assoc], hitem, hleaf⟩

theorem eq_list_or_ne (t : Term) : (∃ items span, t = .list items span) ∨ t.shape ≠ .list := by
  cases t <;> simp [shape]

theorem nil_mem_leaves_iff {t leaf : Term} :
    ([], leaf) ∈ t.leaves ↔ t = leaf ∧ leaf.shape ≠ .list := by
  obtain ⟨items, span, rfl⟩ | ht := t.eq_list_or_ne
  · rw [leaves, mem_leavesFrom_iff]
    constructor
    · rintro ⟨_, _, _, hpath, -⟩
      cases hpath
    · rintro ⟨rfl, hleaf⟩
      exact absurd rfl hleaf
  · rw [leaves_of_ne_list ht, List.mem_singleton]
    constructor
    · rintro ⟨⟩
      exact ⟨rfl, ht⟩
    · rintro ⟨rfl, -⟩
      rfl

theorem cons_mem_leaves_iff {t leaf : Term} {index : Nat} {rest : List Nat} :
    (index :: rest, leaf) ∈ t.leaves ↔
      ∃ item, t.items[index]? = some item ∧ (rest, leaf) ∈ item.leaves := by
  obtain ⟨items, span, rfl⟩ | ht := t.eq_list_or_ne
  · rw [leaves, mem_leavesFrom_iff]
    constructor
    · rintro ⟨i, _, item, hpath, hitem, hleaf⟩
      rw [Nat.zero_add] at hpath
      cases hpath
      exact ⟨item, hitem, hleaf⟩
    · rintro ⟨item, hitem, hleaf⟩
      exact ⟨index, rest, item, by rw [Nat.zero_add], hitem, hleaf⟩
  · rw [leaves_of_ne_list ht, items_of_ne_list ht]
    simp

/-- The leaves are what stands in a pattern and is no list. -/
theorem mem_leaves_iff {t leaf : Term} {position : List Nat} :
    (position, leaf) ∈ t.leaves ↔ t.at? position = some leaf ∧ leaf.shape ≠ .list := by
  induction position generalizing t with
  | nil => rw [nil_mem_leaves_iff, at?, Option.some.injEq]
  | cons index rest ih =>
    rw [cons_mem_leaves_iff, at?, Option.bind_eq_some_iff]
    constructor
    · rintro ⟨item, hitem, hleaf⟩
      exact ⟨⟨item, hitem, (ih.1 hleaf).1⟩, (ih.1 hleaf).2⟩
    · rintro ⟨⟨item, hitem, hat⟩, hleaf⟩
      exact ⟨item, hitem, ih.2 ⟨hat, hleaf⟩⟩

/-- The leaves stand in the order of their positions. -/
def Ordered (leaves : List (List Nat × Term)) : Prop :=
  leaves.Pairwise fun a b => List.Lex (· < ·) a.1 b.1

mutual

theorem leaves_ordered : ∀ t : Term, Ordered t.leaves
  | .list items _ => leavesFrom_ordered items 0
  | .table .. | .call .. | .path _ | .number _ | .string _ | .symbol _ | .name _ | .wildcard _ =>
    List.pairwise_singleton _ _

theorem leavesFrom_ordered : ∀ (ts : List Term) (index : Nat), Ordered (leavesFrom ts index)
  | [], _ => .nil
  | t :: ts, index => by
    rw [Ordered, leavesFrom, List.pairwise_append]
    refine ⟨List.pairwise_map.2 ((leaves_ordered t).imp .cons), leavesFrom_ordered ts _, ?_⟩
    intro a ha b hb
    obtain ⟨a, -, rfl⟩ := List.mem_map.1 ha
    obtain ⟨_, _, _, hpath, -⟩ := mem_leavesFrom_iff.1 (show (b.1, b.2) ∈ _ from hb)
    rw [hpath]
    exact .rel (by omega)

end

end Term

/-! ### Binding -/

namespace Gen

/-- Bind a leaf of a pattern to its part of a value; only a name can be bound. -/
def bindLeaf (value : Code) (leaf : List Nat × Term) : Gen Code :=
  match leaf.2 with
  | .name t => bindLocal t (leaf.1.foldl .item value)
  | t => refuse (.pattern t.shape) t.span

mutual

/-- A pattern is bound leaf by leaf. -/
theorem destructure_eq_mapM : ∀ (t : Term) (value : Code),
    destructure t value = t.leaves.mapM (bindLeaf value)
  | .list items _, value => destructureItems_eq_mapM items value 0
  | .name t, value => by
    rw [Term.leaves_of_ne_list (by simp [Term.shape]), List.mapM_cons, List.mapM_nil, destructure]
    simp [bindLeaf]
  | .table .., _ | .call .., _ | .path _, _ | .number _, _ | .string _, _ | .symbol _, _
  | .wildcard _, _ => rfl

theorem destructureItems_eq_mapM : ∀ (ts : List Term) (value : Code) (index : Nat),
    destructureItems ts value index = (Term.leavesFrom ts index).mapM (bindLeaf value)
  | [], _, _ => by rw [destructureItems, Term.leavesFrom, List.mapM_nil]
  | t :: ts, value, index => by
    have hitem : bindLeaf (.item value index) =
        bindLeaf value ∘ fun l : List Nat × Term => (index :: l.1, l.2) := rfl
    rw [destructureItems, destructure_eq_mapM t, destructureItems_eq_mapM ts, Term.leavesFrom,
      List.mapM_append, List.mapM_map, hitem]

end

variable {job : Job} {s : Session}

/-- A name with its position, as a leaf. -/
def nameLeaf (bound : List Nat × Token) : List Nat × Term :=
  (bound.1, .name bound.2)

/-- The declaration of a name at a position in a value. -/
def nameBinding (value : Code) (bound : List Nat × Token) : Code :=
  .bind (mangle bound.2.text) (bound.1.foldl .item value)

theorem exec_bindLeaf_name (value : Code) (bound : List Nat × Token) :
    (bindLeaf value (nameLeaf bound)).exec job s =
      (.ok (nameBinding value bound), s.withLocal bound.2) := rfl

theorem exec_bindLeaf_refused (value : Code) {leaf : List Nat × Term} (h : leaf.2.shape ≠ .name) :
    (bindLeaf value leaf).exec job s = (.error ⟨.pattern leaf.2.shape, leaf.2.span⟩, s) := by
  obtain ⟨position, t⟩ := leaf
  cases t <;> first | rfl | exact absurd rfl h

/-- Names are bound one after the other. -/
theorem exec_bindLeaves (value : Code) (bound : List (List Nat × Token)) (s : Session) :
    ((bound.map nameLeaf).mapM (bindLeaf value)).exec job s =
      (.ok (bound.map (nameBinding value)), s.withLocals (bound.map Prod.snd)) := by
  induction bound generalizing s with
  | nil => rfl
  | cons b bound ih =>
    rw [List.map_cons, List.mapM_cons, exec_bind, exec_bindLeaf_name]
    simp only [exec_bind, ih]
    rfl

/-- Binding goes up to the first leaf that is no name. -/
theorem exec_bindLeaves_refused (value : Code) (bound : List (List Nat × Token))
    {leaf : List Nat × Term} (h : leaf.2.shape ≠ .name) (back : List (List Nat × Term)) :
    ((bound.map nameLeaf ++ leaf :: back).mapM (bindLeaf value)).exec job s =
      (.error ⟨.pattern leaf.2.shape, leaf.2.span⟩, s.withLocals (bound.map Prod.snd)) := by
  rw [List.mapM_append, exec_bind, exec_bindLeaves]
  simp only [List.mapM_cons, exec_bind, exec_bindLeaf_refused value h]

/-- The text of accesses to items, one behind the other. -/
def accessText (position : List Nat) : String :=
  String.join (position.map fun index => "[" ++ toString index ++ "]")

theorem render_items (position : List Nat) (value : Code) :
    (position.foldl .item value).render = value.render ++ accessText position := by
  induction position generalizing value with
  | nil => simp [accessText]
  | cons index rest ih =>
    have hitem : (Code.item value index).render =
        value.render ++ "[" ++ toString index ++ "]" := by
      rw [Code.render.eq_def]
    rw [List.foldl_cons, ih, hitem, accessText, accessText, List.map_cons, String.join_cons]
    simp only [String.append_assoc]

theorem render_nameBinding (value : Code) (bound : List Nat × Token) :
    (nameBinding value bound).render =
      "local " ++ mangle bound.2.text ++ " = " ++ value.render ++ accessText bound.1 := by
  rw [nameBinding, Code.render_bind, render_items]
  simp only [String.append_assoc]

theorem exists_nameLeaf {leaves : List (List Nat × Term)} (h : ∀ l ∈ leaves, l.2.shape = .name) :
    ∃ bound : List (List Nat × Token), bound.map nameLeaf = leaves := by
  have hrange : leaves ∈ Set.range (List.map nameLeaf) := by
    rw [Set.range_list_map]
    rintro ⟨position, t⟩ hl
    cases t <;> first | exact ⟨(position, _), rfl⟩ | cases h _ hl
  exact hrange

/-- A pattern is bound leaf by leaf, in the order of the text. If all leaves are names, each of them
is declared with the access to its part of the value, and the names are added to the innermost layer.
Otherwise the pattern is refused at the first leaf that is no name. -/
theorem pattern_binds_its_leaves (t : Term) (value : Code) (job : Job) (s : Session) :
    (∀ position leaf, (position, leaf) ∈ t.leaves ↔
      t.at? position = some leaf ∧ leaf.shape ≠ .list) ∧
    t.leaves.Pairwise (fun a b => List.Lex (· < ·) a.1 b.1) ∧
    ((∀ l ∈ t.leaves, l.2.shape = .name) → ∃ (bound : List (List Nat × Token)) (codes : List Code)
      (s' : Session), t.leaves = bound.map (fun b => (b.1, .name b.2)) ∧
        (destructure t value).exec job s = (.ok codes, s') ∧
        codes.map Code.render = bound.map (fun b =>
          "local " ++ mangle b.2.text ++ " = " ++ value.render ++
            String.join (b.1.map fun index => "[" ++ toString index ++ "]")) ∧
        s.Gains (bound.map fun b => b.2.text) s') ∧
    (∀ position leaf, t.leaves.find? (fun l => l.2.shape ≠ .name) = some (position, leaf) →
      ((destructure t value).exec job s).1 = .error ⟨.pattern leaf.shape, leaf.span⟩ ∧
        (Cause.pattern leaf.shape).category = .malformed) := by
  refine ⟨fun _ _ => Term.mem_leaves_iff, t.leaves_ordered, ?_, ?_⟩
  · intro hnames
    obtain ⟨bound, hbound⟩ := exists_nameLeaf hnames
    refine ⟨bound, bound.map (nameBinding value), s.withLocals (bound.map Prod.snd), hbound.symm,
      ?_, ?_, ?_⟩
    · rw [destructure_eq_mapM, ← hbound, exec_bindLeaves]
    · rw [List.map_map]
      exact List.map_congr_left fun b _ => render_nameBinding value b
    · have hgains := s.gains_withLocals (bound.map Prod.snd)
      rwa [List.map_map] at hgains
  · intro position leaf hfirst
    obtain ⟨hleaf, front, back, hleaves, hfront⟩ := List.find?_eq_some_iff_append.1 hfirst
    obtain ⟨bound, rfl⟩ := exists_nameLeaf fun l hl => by simpa using hfront l hl
    rw [destructure_eq_mapM, hleaves, exec_bindLeaves_refused value bound (by simpa using hleaf) back]
    exact ⟨rfl, rfl⟩

/-- The pattern `[[a [] b] a]` binds three names, and `[a [1 :k] b]` is refused at the number. -/
theorem pattern_binds_its_leaves_nested :
    let a : Term := .name ⟨"a", .none⟩
    let b : Term := .name ⟨"b", .none⟩
    let t : Term := .list [.list [a, .list [] .none, b] .none, a] .none
    let u : Term := .list [a, .list [.number ⟨"1", .none⟩, .symbol ⟨"k", .none⟩] .none, b] .none
    t.leaves = [([0, 0], a), ([0, 2], b), ([1], a)] ∧
    (∃ codes s', (destructure t (.word "v")).exec default .start = (.ok codes, s') ∧
      codes.length = 3) ∧
    ((destructure u (.word "v")).exec default .start).1 = .error ⟨.pattern .number, .none⟩ := by
  intro a b t u
  obtain ⟨bound, codes, s', hbound, hexec, hrender, -⟩ :=
    (pattern_binds_its_leaves t (.word "v") default .start).2.2.1 (by decide)
  have hlength : codes.length = bound.length := by
    simpa only [List.length_map] using congrArg List.length hrender
  refine ⟨rfl, ⟨codes, s', hexec, ?_⟩, ?_⟩
  · rw [hlength, ← bound.length_map, ← hbound]
    rfl
  · exact ((pattern_binds_its_leaves u (.word "v") default .start).2.2.2 [1, 0] _ rfl).1

end Gen

end LispLua
