import LispLua.Proofs.Reading.Point
import LispLua.Proofs.Reading.Taking

/-!
# Trees woven into a text

A tree that is read from a text stands in it as it stands on its own: the text of a node is made of
the texts of its parts in order, its brackets or its operator around them, and trivia between them,
and the span of the node goes from end to end of that. A piece is a node with the text it was read
from and all that stands in front of it.
-/

namespace LispLua

/-- A node of the tree: a term, a name inside a path, or a segment of a path. -/
inductive Node where
  | term (t : Term)
  | token (t : Token)
  | segment (s : Segment)

namespace Node

/-- The text a node was read from. -/
def span : Node → Span
  | term t => t.span
  | token t => t.span
  | segment s => s.span

/-- The parts of a node, in order. -/
def children : Node → List Node
  | term (.list items _) | term (.table items _ _) => items.map term
  | term (.call target args _) => (target :: args).map term
  | term (.path p) => token p.root :: p.segments.map segment
  | segment s => [token s.name]
  | _ => []

/-- The text of a node without parts. A symbol is kept without the colon it is written with. -/
def leaf? : Node → Option (List Char)
  | token t | term (.number t) | term (.string t) | term (.name t) | term (.wildcard t) =>
    some t.text.toList
  | term (.symbol t) => some (':' :: t.text.toList)
  | _ => none

/-- What a node has in front of its parts: a bracket, maybe quoted, or an operator. -/
def opening : Node → List Char
  | term (.list ..) => ['[']
  | term (.table _ escaped _) => (if escaped then ['\''] else []) ++ ['\x7b']
  | term (.call ..) => ['(']
  | segment s => s.link.text.toList
  | _ => []

/-- The bracket behind the parts of a node. -/
def closing : Node → List Char
  | term (.list ..) => [']']
  | term (.table ..) => ['\x7d']
  | term (.call ..) => [')']
  | _ => []

/-- What may stand between the parts of a node: trivia inside brackets, and nothing inside paths. -/
def Filler : Node → List Char → Prop
  | term (.list ..) | term (.table ..) | term (.call ..) => Trivia
  | _ => (· = [])

theorem children_eq_nil {n : Node} {cs : List Char} (h : n.leaf? = some cs) : n.children = [] := by
  cases n with
  | token => rfl
  | segment => cases h
  | term t => cases t <;> first | rfl | cases h

end Node

/-- A node, the text it was read from, and the text before it. -/
structure Piece where
  before : List Char
  node : Node
  text : List Char

/-- Where the text of a piece stands. -/
def Piece.span (p : Piece) : Span :=
  ⟨.behind p.before, .behind (p.before ++ p.text)⟩

/-- Pieces in a row, with fillers in front of, between and behind them. The row starts behind
`before`. -/
inductive Gapped (filler : List Char → Prop) : List Char → List Piece → List Char → Prop
  | nil {before : List Char} (gap : List Char) : filler gap → Gapped filler before [] gap
  | cons {rest : List Char} {p : Piece} {ps : List Piece} (before gap : List Char) : filler gap →
      p.before = before ++ gap → Gapped filler (p.before ++ p.text) ps rest →
        Gapped filler before (p :: ps) (gap ++ (p.text ++ rest))

/-- The node of a piece has been read from its text: a leaf is the text itself, and otherwise the
text is a row of the parts inside what the node has around them. -/
inductive Piece.Woven : Piece → Prop
  | leaf {p : Piece} : p.node.leaf? = some p.text → p.text ≠ [] → p.node.span = p.span → p.Woven
  | branch {p : Piece} (ps : List Piece) (row : List Char) : p.node.leaf? = none →
      p.text = p.node.opening ++ (row ++ p.node.closing) → p.text ≠ [] → p.node.span = p.span →
      ps.map Piece.node = p.node.children →
      Gapped p.node.Filler (p.before ++ p.node.opening) ps row → (∀ q ∈ ps, q.Woven) → p.Woven

theorem Piece.Woven.text_ne_nil {p : Piece} (h : p.Woven) : p.text ≠ [] := by
  cases h with
  | leaf _ hne _ => exact hne
  | branch _ _ _ _ hne _ _ _ _ => exact hne

theorem Piece.Woven.span_eq {p : Piece} (h : p.Woven) : p.node.span = p.span := by
  cases h with
  | leaf _ _ hspan => exact hspan
  | branch _ _ _ _ _ hspan _ _ _ => exact hspan

namespace Reader

variable {α : Type} {c d e : Cursor} {before gap : List Char}

/-- Whatever the reader reads behind `before` is woven into the text there. -/
def Weaves (r : Reader α) (node : α → Node) : Prop :=
  ∀ c d a before, c.position = .behind before → r c = some (a, d) →
    ∃ cs, c.Reaches cs d ∧ (⟨before, node a, cs⟩ : Piece).Woven

theorem position_of_reaches {cs : List Char} (hc : c.position = .behind before)
    (h : c.Reaches cs d) : d.position = .behind (before ++ cs) := by
  rw [h.position, hc, Position.behind_append]

/-! ### Leaves -/

theorem weaves_token {l : Lexeme} (hl : l.Cuts) : Weaves (token l) .token := by
  intro c d t before hc h
  obtain ⟨hreach, hne, hspan⟩ := reaches_token hl h
  refine ⟨_, hreach, .leaf rfl hne ?_⟩
  show t.span = _
  rw [hspan, hc, position_of_reaches hc hreach]
  rfl

theorem weaves_leaf {l : Lexeme} (hl : l.Cuts) {f : Token → Term}
    (hleaf : ∀ t, Node.leaf? (.term (f t)) = some t.text.toList) (hspan : ∀ t, (f t).span = t.span) :
    Weaves (do return f (← token l)) .term := by
  intro c d t before hc h
  obtain ⟨t, ht, rfl⟩ := return_eq_some_iff.1 h
  obtain ⟨cs, hreach, hwoven⟩ := weaves_token hl c d t before hc ht
  obtain rfl : t.text.toList = cs := by
    cases hwoven with
    | leaf h _ _ => exact Option.some.inj h
    | branch _ _ h _ _ _ _ _ _ => cases h
  exact ⟨_, hreach, .leaf (hleaf t) hwoven.text_ne_nil ((hspan t).trans hwoven.span_eq)⟩

theorem weaves_symbol : Weaves (do return Term.symbol (← symbol)) .term := by
  intro c d t before hc h
  obtain ⟨t, ht, rfl⟩ := return_eq_some_iff.1 h
  obtain ⟨hreach, hspan⟩ := reaches_symbol ht
  refine ⟨_, hreach, .leaf rfl (List.cons_ne_nil _ _) ?_⟩
  show t.span = _
  rw [hspan, hc, position_of_reaches hc hreach]
  rfl

/-! ### Paths -/

theorem weaves_segment : Weaves segment .segment := by
  intro c d s before hc h
  obtain ⟨e, hl, hn, hspan⟩ := segment_eq_some_iff.1 h
  have hlink := reaches_link hl
  have he := position_of_reaches hc hlink
  obtain ⟨cs, hname, hwoven⟩ := weaves_token Lexeme.cuts_identifier e d s.name _ he hn
  have hreach := hlink.trans hname
  refine ⟨_, hreach, .branch [⟨before ++ s.link.text.toList, .token s.name, cs⟩] cs
    rfl (by simp [Node.opening, Node.closing]) ?_ ?_ rfl ?_ ?_⟩
  · exact List.append_ne_nil_of_right_ne_nil _ hwoven.text_ne_nil
  · show s.span = _
    rw [hspan, hc, position_of_reaches hc hreach]
    rfl
  · have hrow := @Gapped.cons (· = []) _ ⟨_, .token s.name, cs⟩ _ _ [] rfl
      (List.append_nil (before ++ s.link.text.toList)).symm (.nil [] rfl)
    rwa [List.nil_append, List.append_nil] at hrow
  · intro q hq
    rw [List.mem_singleton.1 hq]
    exact hwoven

/-- Readings one right after the other. -/
theorem gapped_run {r : Reader α} {node : α → Node} (hr : Weaves r node) {as : List α}
    (hrun : Run r c as d) (hc : c.position = .behind before) :
    ∃ ps row, c.Reaches row d ∧ Gapped (· = []) before ps row ∧
      ps.map Piece.node = as.map node ∧ ∀ p ∈ ps, p.Woven := by
  induction hrun generalizing before with
  | nil c => exact ⟨[], [], .refl c, .nil [] rfl, rfl, by simp⟩
  | @cons c e d a as ha _ ih =>
    obtain ⟨cs, hreach, hwoven⟩ := hr c e a before hc ha
    obtain ⟨ps, row, hrow, hgapped, hnodes, hps⟩ := ih (position_of_reaches hc hreach)
    refine ⟨⟨before, node a, cs⟩ :: ps, [] ++ (cs ++ row), hreach.trans hrow,
      .cons before [] rfl (List.append_nil before).symm hgapped, ?_, ?_⟩
    · rw [List.map_cons, List.map_cons, hnodes]
    · exact List.forall_mem_cons.2 ⟨hwoven, hps⟩

theorem weaves_reference : Weaves reference .term := by
  intro c d t before hc h
  obtain ⟨root, e, segments, hroot, hmany, ht⟩ := reference_eq_some h
  obtain ⟨cs, hreach, hwoven⟩ := weaves_token Lexeme.cuts_identifier c e root before hc hroot
  rcases ht with ⟨rfl, rfl⟩ | ⟨-, rfl⟩
  · cases run_many hmany
    obtain rfl : root.text.toList = cs := by
      cases hwoven with
      | leaf h _ _ => exact Option.some.inj h
      | branch _ _ h _ _ _ _ _ _ => cases h
    exact ⟨_, hreach, .leaf rfl hwoven.text_ne_nil hwoven.span_eq⟩
  · obtain ⟨ps, row, hrow, hgapped, hnodes, hps⟩ :=
      gapped_run weaves_segment (run_many hmany) (position_of_reaches hc hreach)
    have hall := hreach.trans hrow
    refine ⟨_, hall, .branch (⟨before, .token root, cs⟩ :: ps) (cs ++ row) rfl
      (by simp [Node.opening, Node.closing]) ?_ ?_ ?_ ?_ ?_⟩
    · exact List.append_ne_nil_of_left_ne_nil hwoven.text_ne_nil row
    · show (⟨c.position, d.position⟩ : Span) = _
      rw [hc, position_of_reaches hc hall]
      rfl
    · rw [List.map_cons, hnodes]
      rfl
    · have hbefore : before ++ Node.opening (.term (.path ⟨root, segments, c.position, d.position⟩)) =
          before := List.append_nil before
      rw [hbefore]
      exact .cons before [] rfl (List.append_nil before).symm hgapped
    · exact List.forall_mem_cons.2 ⟨hwoven, hps⟩

theorem Weaves.orElse {r r' : Reader α} {node : α → Node} (h : Weaves r node)
    (h' : Weaves r' node) : Weaves (r <|> r') node := by
  intro c d a before hc hread
  rcases orElse_eq_some_iff.1 hread with hread | ⟨-, hread⟩
  · exact h c d a before hc hread
  · exact h' c d a before hc hread

theorem weaves_target : Weaves target .term :=
  .orElse (weaves_leaf Lexeme.cuts_wildcard (fun _ => rfl) fun _ => rfl) <|
    .orElse weaves_symbol <|
    .orElse (weaves_leaf Lexeme.cuts_number (fun _ => rfl) fun _ => rfl) weaves_reference

/-! ### Brackets -/

theorem rest_ne_nil_of_reaches {cs : List Char} (h : c.Reaches cs d) (hne : cs ≠ []) :
    c.rest ≠ [] := by
  rw [h.rest]
  exact List.append_ne_nil_of_left_ne_nil hne _

theorem rest_ne_nil_of_char {x : Char} {u : Unit} (h : char x c = some (u, d)) : c.rest ≠ [] :=
  rest_ne_nil_of_reaches (reaches_char h) (List.cons_ne_nil _ _)

variable {r : Reader α} {node : α → Node} {as : List α}

/-- Readings with trivia in front of each, and trivia behind the last. -/
theorem gapped_run_trivia (hr : Weaves r node) (hrun : Run (do trivia; r) c as d) {u : Unit}
    (htrivia : trivia d = some (u, e)) (he : e.rest ≠ []) (hc : c.position = .behind before) :
    ∃ ps row, c.Reaches row e ∧ Gapped Trivia before ps row ∧ ps.map Piece.node = as.map node ∧
      ∀ p ∈ ps, p.Woven := by
  induction hrun generalizing before with
  | nil c =>
    obtain ⟨gap, hreach, hgap⟩ := reaches_trivia_of_ne_nil htrivia he
    exact ⟨[], gap, hreach, .nil gap hgap, rfl, by simp⟩
  | @cons c c' d a as hread _ ih =>
    obtain ⟨u, c₁, hskip, ha⟩ := bind_eq_some_iff.1 hread
    obtain ⟨gap, last, hgapReach, hgap, hlast⟩ := reaches_trivia hskip
    have hc₁ := position_of_reaches hc hgapReach
    obtain ⟨cs, hreach, hwoven⟩ := hr c₁ c' a _ hc₁ ha
    -- something is read behind the trivia, so the text does not end with them
    obtain rfl := hlast.resolve_right fun hend =>
      rest_ne_nil_of_reaches hreach hwoven.text_ne_nil hend.2
    rw [List.append_nil] at hgapReach hwoven hc₁
    obtain ⟨ps, row, hrow, hgapped, hnodes, hps⟩ := ih htrivia (position_of_reaches hc₁ hreach)
    refine ⟨⟨before ++ gap, node a, cs⟩ :: ps, gap ++ (cs ++ row),
      hgapReach.trans (hreach.trans hrow), .cons before _ hgap rfl hgapped, ?_, ?_⟩
    · rw [List.map_cons, List.map_cons, hnodes]
    · exact List.forall_mem_cons.2 ⟨hwoven, hps⟩

/-- Readings with trivia behind each, and trivia in front of the first. The last trivia may end with
a comment at the end of the text. -/
theorem gapped_run_behind (hr : Weaves r node) (hgap : Trivia gap)
    (hrun : Run (do let a ← r; trivia; return a) c as d) (hc : c.position = .behind (before ++ gap)) :
    ∃ ps row last, c.Reaches (row ++ last) d ∧ Gapped Trivia before ps (gap ++ row) ∧
      ps.map Piece.node = as.map node ∧ (∀ p ∈ ps, p.Woven) ∧
      (last = [] ∨ IsComment last ∧ d.rest = []) := by
  induction hrun generalizing before gap with
  | nil c =>
    refine ⟨[], [], [], .refl c, ?_, rfl, by simp, .inl rfl⟩
    rw [List.append_nil]
    exact .nil _ hgap
  | @cons c c' d a as hread hrest ih =>
    obtain ⟨a', c₁, ha, hread⟩ := bind_eq_some_iff.1 hread
    obtain ⟨u, c₂, hskip, hp⟩ := bind_eq_some_iff.1 hread
    obtain ⟨rfl, rfl⟩ := pure_eq_some_iff.1 hp
    obtain ⟨cs, hreach, hwoven⟩ := hr c c₁ a _ hc ha
    have hc₁ := position_of_reaches hc hreach
    obtain ⟨gap', last', hgapReach, hgap', hlast'⟩ := reaches_trivia hskip
    have hwhole : ∀ p ∈ [(⟨before ++ gap, node a, cs⟩ : Piece)], p.Woven := by
      intro p hp
      rw [List.mem_singleton.1 hp]
      exact hwoven
    rcases hlast' with rfl | ⟨hcomment, hend⟩
    · rw [List.append_nil] at hgapReach
      obtain ⟨ps, row, last, hrow, hgapped, hnodes, hps, hlast⟩ :=
        ih hgap' (position_of_reaches hc₁ hgapReach)
      refine ⟨⟨before ++ gap, node a, cs⟩ :: ps, cs ++ (gap' ++ row), last, ?_,
        .cons before _ hgap rfl hgapped, ?_, ?_, hlast⟩
      · have := hreach.trans (hgapReach.trans hrow)
        simpa only [List.append_assoc] using this
      · rw [List.map_cons, List.map_cons, hnodes]
      · exact List.forall_mem_cons.2 ⟨hwoven, hps⟩
    · -- a comment that ends the text lets nothing follow it
      cases hrest with
      | cons hread _ =>
        obtain ⟨a', c₃, ha, -⟩ := bind_eq_some_iff.1 hread
        obtain ⟨cs', hreach', hwoven'⟩ := hr _ c₃ a' _ (position_of_reaches hc₁ hgapReach) ha
        exact absurd hend (rest_ne_nil_of_reaches hreach' hwoven'.text_ne_nil)
      | nil =>
        refine ⟨[⟨before ++ gap, node a, cs⟩], cs ++ gap', last', ?_, ?_, rfl, hwhole,
          .inr ⟨hcomment, hend⟩⟩
        · rw [List.append_assoc]
          exact hreach.trans hgapReach
        · exact .cons before _ hgap rfl (.nil _ hgap')

/-- The same with the trivia in front of the first, which may be all there is. -/
theorem gapped_run_around {last : List Char} (hr : Weaves r node) (hskip : c.Reaches (gap ++ last) e)
    (hgap : Trivia gap) (hlast : last = [] ∨ IsComment last ∧ e.rest = [])
    (hrun : Run (do let a ← r; trivia; return a) e as d) (hc : c.position = .behind before) :
    ∃ ps row last, c.Reaches (row ++ last) d ∧ Gapped Trivia before ps row ∧
      ps.map Piece.node = as.map node ∧ (∀ p ∈ ps, p.Woven) ∧
      (last = [] ∨ IsComment last ∧ d.rest = []) := by
  have he := position_of_reaches hc hskip
  rcases hlast with rfl | ⟨hcomment, hend⟩
  · rw [List.append_nil] at hskip he
    obtain ⟨ps, row, last, hrow, hgapped, hnodes, hps, hlast⟩ := gapped_run_behind hr hgap hrun he
    refine ⟨ps, gap ++ row, last, ?_, hgapped, hnodes, hps, hlast⟩
    rw [List.append_assoc]
    exact hskip.trans hrow
  · cases hrun with
    | nil => exact ⟨[], gap, last, hskip, .nil gap hgap, rfl, by simp, .inr ⟨hcomment, hend⟩⟩
    | cons hread _ =>
      obtain ⟨a, e', ha, -⟩ := bind_eq_some_iff.1 hread
      obtain ⟨cs, hreach, hwoven⟩ := hr e e' a _ he ha
      exact absurd hend (rest_ne_nil_of_reaches hreach hwoven.text_ne_nil)

variable {inner : Reader Term}

theorem weaves_call (hinner : Weaves inner .term) :
    Weaves (call inner) fun f => .term f.term := by
  intro c d f before hc h
  obtain ⟨e₁, e₂, e₃, e₄, e₅, hopen, hskip, htarget, hargs, hskip', hclose, hspan⟩ := call_eq_some h
  have h₁ := reaches_char hopen
  have he₁ := position_of_reaches hc h₁
  obtain ⟨gap, last, hgapReach, hgap, hlast⟩ := reaches_trivia hskip
  obtain ⟨cs, hreach, hwoven⟩ :=
    weaves_target e₂ e₃ f.target _ (position_of_reaches he₁ hgapReach) htarget
  obtain rfl := hlast.resolve_right fun hend =>
    rest_ne_nil_of_reaches hreach hwoven.text_ne_nil hend.2
  rw [List.append_nil] at hgapReach hwoven
  have he₂ := position_of_reaches he₁ hgapReach
  obtain ⟨ps, row, hrow, hgapped, hnodes, hps⟩ := gapped_run_trivia hinner (run_many hargs) hskip'
    (rest_ne_nil_of_char hclose) (position_of_reaches he₂ hreach)
  have hall := h₁.trans ((hgapReach.trans (hreach.trans hrow)).trans (reaches_char hclose))
  refine ⟨_, hall, .branch (⟨before ++ ['('] ++ gap, .term f.target, cs⟩ :: ps)
    (gap ++ (cs ++ row)) rfl rfl (List.cons_ne_nil _ _) ?_ ?_ ?_ ?_⟩
  · show f.span = _
    rw [hspan, hc, position_of_reaches hc hall]
    rfl
  · rw [List.map_cons, hnodes]
    rfl
  · exact .cons _ _ hgap rfl hgapped
  · exact List.forall_mem_cons.2 ⟨hwoven, hps⟩

/-- Terms between two brackets. -/
theorem gapped_terms (hinner : Weaves inner .term) {x : Char} {ts : List Term} {u : Unit}
    {e₁ e₂ : Cursor} (hskip : trivia c = some (u, e₁)) (hts : terms inner e₁ = some (ts, e₂))
    (hclose : char x e₂ = some (u, d)) (hc : c.position = .behind before) :
    ∃ ps row, c.Reaches (row ++ [x]) d ∧ Gapped Trivia before ps row ∧
      ps.map Piece.node = ts.map .term ∧ ∀ p ∈ ps, p.Woven := by
  obtain ⟨gap, last, hgapReach, hgap, hlast⟩ := reaches_trivia hskip
  obtain ⟨ps, row, last, hrow, hgapped, hnodes, hps, hlast⟩ :=
    gapped_run_around hinner hgapReach hgap hlast (run_many hts) hc
  -- the bracket is still to come, so no comment ends the text
  obtain rfl := hlast.resolve_right fun hend => rest_ne_nil_of_char hclose hend.2
  rw [List.append_nil] at hrow
  exact ⟨ps, row, hrow.trans (reaches_char hclose), hgapped, hnodes, hps⟩

theorem weaves_list (hinner : Weaves inner .term) : Weaves (list inner) .term := by
  intro c d t before hc h
  obtain ⟨e₁, e₂, e₃, items, hopen, hskip, hitems, hclose, rfl⟩ := list_eq_some h
  have h₁ := reaches_char hopen
  obtain ⟨ps, row, hrow, hgapped, hnodes, hps⟩ :=
    gapped_terms hinner hskip hitems hclose (position_of_reaches hc h₁)
  have hall := h₁.trans hrow
  refine ⟨_, hall, .branch _ _ rfl rfl (List.cons_ne_nil _ _) ?_ hnodes hgapped hps⟩
  show (⟨c.position, d.position⟩ : Span) = _
  rw [hc, position_of_reaches hc hall]
  rfl

theorem weaves_table (hinner : Weaves inner .term) : Weaves (table inner) .term := by
  intro c d t before hc h
  obtain ⟨escaped, e₀, e₁, e₂, e₃, items, hquote, hopen, hskip, hitems, hclose, rfl⟩ :=
    table_eq_some h
  have h₁ := (reaches_quote hquote).trans (reaches_char hopen)
  obtain ⟨ps, row, hrow, hgapped, hnodes, hps⟩ :=
    gapped_terms hinner hskip hitems hclose (position_of_reaches hc h₁)
  have hall := h₁.trans hrow
  refine ⟨_, hall, .branch _ _ rfl rfl ?_ ?_ hnodes hgapped hps⟩
  · exact List.append_ne_nil_of_left_ne_nil
      (List.append_ne_nil_of_right_ne_nil _ (List.cons_ne_nil _ _)) _
  · show (⟨c.position, d.position⟩ : Span) = _
    rw [hc, position_of_reaches hc hall]
    rfl

theorem Weaves.map {β : Type} {f : α → β} {node : β → Node} (h : Weaves r fun a => node (f a)) :
    Weaves (do return f (← r)) node := by
  intro c d b before hc hread
  obtain ⟨a, ha, rfl⟩ := return_eq_some_iff.1 hread
  exact h c d a before hc ha

theorem weaves_term (depth : Nat) : Weaves (term depth) .term := by
  induction depth with
  | zero =>
    intro c d t before hc h
    cases h
  | succ depth ih =>
    rw [term]
    exact .orElse (.map (weaves_call ih)) <| .orElse (weaves_list ih) <| .orElse (weaves_table ih) <|
      .orElse (weaves_leaf Lexeme.cuts_string (fun _ => rfl) fun _ => rfl) weaves_target

theorem run_program (c : Cursor) :
    Run (do let form ← call (term c.rest.length); trivia; return form)
      (collect (lexeme Lexeme.trivium) c.rest.length c).2 (program c).1 (program c).2 :=
  run_collect _ _ _

end Reader

/-- The calls of a text are woven into it. All that stands around them is trivia, of which the last
may be a comment that ends with the text. -/
theorem exists_gapped_of_parse {text : String} {p : Program} (h : parse text = .ok p) :
    ∃ ps row last, text.toList = row ++ last ∧ Gapped Trivia [] ps row ∧
      ps.map Piece.node = p.map (fun c => .term c.term) ∧ (∀ q ∈ ps, q.Woven) ∧
      (last = [] ∨ IsComment last) := by
  have hparse : (Reader.program (Cursor.start text)).1 = p ∧
      (Reader.program (Cursor.start text)).2.rest = [] := by
    simp only [parse] at h
    split at h
    · exact ⟨Except.ok.inj h, ‹_›⟩
    · cases h
  obtain ⟨gap, last, hgapReach, hgap, hlast, -⟩ :=
    Reader.reaches_collect_trivium (c := Cursor.start text) _ (Nat.le_refl _)
  have hstart : (Cursor.start text).position = .behind [] := rfl
  obtain ⟨ps, row, last, hrow, hgapped, hnodes, hps, hlast⟩ := Reader.gapped_run_around
    (Reader.weaves_call (Reader.weaves_term (Cursor.start text).rest.length)) hgapReach hgap hlast
    (Reader.run_program _) hstart
  refine ⟨ps, row, last, ?_, hgapped, ?_, hps, hlast.imp_right And.left⟩
  · have hrest := hrow.rest
    rwa [hparse.2, List.append_nil] at hrest
  · rw [hnodes, hparse.1]

end LispLua
