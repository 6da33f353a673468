import LispLua.Proofs.Reading.Location
import LispLua.Proofs.Reading.Stop
import Mathlib.Data.List.GetD

/-!
# Carets under a span

Two notions of a line meet in an excerpt. Positions count line feeds, so for them a carriage return
is a character like any other. The lines that are shown lose a carriage return in front of their
line feed. The two agree on every span that comes from reading, because such a span neither starts
nor ends with a character of a line end.
-/

namespace LispLua

/-! ### Lines -/

/-- `line` is what a text starts with up to its first line feed, or carriage return and line feed, or
its end. -/
def IsFirstLine (line cs : List Char) : Prop :=
  '\n' ∉ line ∧
    (cs = line ∨ (line.getLast? ≠ some '\r' ∧ ∃ rest, cs = line ++ '\n' :: rest) ∨
      ∃ rest, cs = line ++ '\r' :: '\n' :: rest)

/-- `line` is the line number `n` of a text. -/
def IsLine (text : String) (n : Nat) (line : List Char) : Prop :=
  ∃ above rest, text.toList = above ++ rest ∧ (above = [] ∨ above.getLast? = some '\n') ∧
    n = above.count '\n' + 1 ∧ IsFirstLine line rest

/-- A text neither starts nor ends with a character of a line end. -/
structure Firm (cs : List Char) : Prop where
  first : ∀ c, cs.head? = some c → c ≠ '\n' ∧ c ≠ '\r'
  last : ∀ c, cs.getLast? = some c → c ≠ '\n' ∧ c ≠ '\r'

theorem pieces_of_not_mem {cs : List Char} (h : '\n' ∉ cs) : pieces cs = [cs] := by
  induction cs with
  | nil => rfl
  | cons c cs ih =>
    obtain ⟨hc, hcs⟩ := not_or.1 (mt List.mem_cons.2 h)
    rw [pieces, if_neg (Ne.symm hc), ih hcs]

theorem pieces_ne_nil (cs : List Char) : pieces cs ≠ [] := by
  fun_cases pieces cs <;> simp

theorem pieces_append (cs ds : List Char) : pieces (cs ++ '\n' :: ds) = pieces cs ++ pieces ds := by
  induction cs with
  | nil => rfl
  | cons c cs ih =>
    rw [List.cons_append, pieces, pieces, ih]
    split
    · rfl
    · obtain ⟨p, ps, hp⟩ := List.exists_cons_of_ne_nil (pieces_ne_nil cs)
      rw [hp]
      rfl

theorem length_pieces (cs : List Char) : (pieces cs).length = cs.count '\n' + 1 := by
  induction cs with
  | nil => rfl
  | cons c cs ih =>
    obtain ⟨p, ps, hp⟩ := List.exists_cons_of_ne_nil (pieces_ne_nil cs)
    rw [hp, List.length_cons] at ih
    by_cases hc : c = '\n'
    · rw [pieces, if_pos hc, hc, List.count_cons_self, hp, List.length_cons, List.length_cons]
      omega
    · rw [pieces, if_neg hc, hp, List.count_cons_of_ne hc]
      exact ih

/-- All pieces but the last are ended by a line feed. -/
theorem linesOfPieces_append (ps : List (List Char)) {qs : List (List Char)} (hqs : qs ≠ []) :
    linesOfPieces (ps ++ qs) = ps.map dropReturn ++ linesOfPieces qs := by
  induction ps with
  | nil => rfl
  | cons p ps ih =>
    obtain ⟨q, rest, hq⟩ := List.exists_cons_of_ne_nil (List.append_ne_nil_of_right_ne_nil ps hqs)
    rw [List.cons_append, List.map_cons, List.cons_append, ← ih, hq]
    cases p <;> rfl

/-- A piece that is ended by a line feed loses one carriage return. -/
theorem isFirstLine_dropReturn {piece : List Char} (h : '\n' ∉ piece) (rest : List Char) :
    IsFirstLine (dropReturn piece) (piece ++ '\n' :: rest) := by
  rw [dropReturn]
  split
  · rename_i hlast
    obtain ⟨line, rfl⟩ := List.getLast?_eq_some_iff.1 hlast
    rw [List.dropLast_concat]
    refine ⟨fun hmem => h (List.mem_append_left _ hmem), .inr (.inr ⟨rest, ?_⟩)⟩
    rw [List.append_assoc]
    rfl
  · rename_i hlast
    exact ⟨h, .inr (.inl ⟨hlast, rest, rfl⟩)⟩

/-- The first line of a text, as the lines of a text are made. -/
def firstLine (cs : List Char) : List Char :=
  (linesOfPieces (pieces cs)).getD 0 []

theorem firstLine_append {piece : List Char} (h : '\n' ∉ piece) (rest : List Char) :
    firstLine (piece ++ '\n' :: rest) = dropReturn piece := by
  rw [firstLine, pieces_append, linesOfPieces_append _ (pieces_ne_nil rest), pieces_of_not_mem h]
  rfl

theorem firstLine_of_not_mem {cs : List Char} (h : '\n' ∉ cs) : firstLine cs = cs := by
  rw [firstLine, pieces_of_not_mem h]
  cases cs with
  | nil => rfl
  | cons c cs => rfl

theorem isFirstLine_firstLine (cs : List Char) : IsFirstLine (firstLine cs) cs := by
  by_cases h : '\n' ∈ cs
  · obtain ⟨piece, rest, rfl, hpiece⟩ := List.eq_append_cons_of_mem h
    rw [firstLine_append hpiece]
    exact isFirstLine_dropReturn hpiece rest
  · rw [firstLine_of_not_mem h]
    exact ⟨h, .inl rfl⟩

theorem IsFirstLine.eq_firstLine {line cs : List Char} (h : IsFirstLine line cs) :
    line = firstLine cs := by
  obtain ⟨hline, rfl | ⟨hlast, rest, rfl⟩ | ⟨rest, rfl⟩⟩ := h
  · rw [firstLine_of_not_mem hline]
  · rw [firstLine_append hline, dropReturn, if_neg hlast]
  · have hreturn : line ++ '\r' :: '\n' :: rest = (line ++ ['\r']) ++ '\n' :: rest := by simp
    rw [hreturn, firstLine_append (by simp [hline]), dropReturn, if_pos List.getLast?_concat,
      List.dropLast_concat]

/-- A text has one first line. -/
theorem IsFirstLine.unique {line line' cs : List Char} (h : IsFirstLine line cs)
    (h' : IsFirstLine line' cs) : line = line' :=
  h.eq_firstLine.trans h'.eq_firstLine.symm

/-- What stands in front of a line in the same line. -/
theorem IsFirstLine.append_left {line cs part : List Char} (h : IsFirstLine line cs)
    (hpart : '\n' ∉ part) (hne : line ≠ []) : IsFirstLine (part ++ line) (part ++ cs) := by
  obtain ⟨hline, h⟩ := h
  refine ⟨by simp [hpart, hline], ?_⟩
  rcases h with rfl | ⟨hlast, rest, rfl⟩ | ⟨rest, rfl⟩
  · exact .inl rfl
  · refine .inr (.inl ⟨?_, rest, (List.append_assoc _ _ _).symm⟩)
    rwa [List.getLast?_append_of_ne_nil _ hne]
  · exact .inr (.inr ⟨rest, (List.append_assoc _ _ _).symm⟩)

/-- The lines of a text are found by their numbers. -/
theorem isFirstLine_splitLines {text : String} {above rest : List Char}
    (htext : text.toList = above ++ rest) (habove : above = [] ∨ above.getLast? = some '\n') :
    IsFirstLine ((splitLines text).getD (above.count '\n') []) rest := by
  rw [splitLines, htext]
  rcases habove with rfl | hlast
  · exact isFirstLine_firstLine rest
  · obtain ⟨lines, rfl⟩ := List.getLast?_eq_some_iff.1 hlast
    have hcount : (lines ++ ['\n']).count '\n' = ((pieces lines).map dropReturn).length := by
      rw [List.length_map, length_pieces, List.count_append]
      rfl
    rw [List.append_assoc, List.singleton_append, pieces_append,
      linesOfPieces_append _ (pieces_ne_nil rest), hcount, List.getD_append_right _ _ _ _ le_rfl,
      Nat.sub_self]
    exact isFirstLine_firstLine rest

/-- The line of a point: what stands in front of it falls into complete lines and a part of one. -/
theorem exists_line_of_point (before : List Char) :
    ∃ above part, before = above ++ part ∧ '\n' ∉ part ∧
      (above = [] ∨ above.getLast? = some '\n') := by
  induction before using List.reverseRecOn with
  | nil => exact ⟨[], [], rfl, List.not_mem_nil, .inl rfl⟩
  | append_singleton cs c ih =>
    by_cases hc : c = '\n'
    · exact ⟨cs ++ [c], [], by simp, List.not_mem_nil, .inr (by simp [hc])⟩
    · obtain ⟨above, part, rfl, hpart, habove⟩ := ih
      refine ⟨above, part ++ [c], by simp, ?_, habove⟩
      simp [hpart, Ne.symm hc]

/-- The column of a point counts what stands in front of it in its line. -/
theorem column_of_line {above part : List Char} (habove : above = [] ∨ above.getLast? = some '\n')
    (hpart : '\n' ∉ part) : (Position.behind (above ++ part)).column = part.length + 1 := by
  have htake : (above ++ part).reverse.takeWhile (· != '\n') = part.reverse := by
    rw [List.reverse_append]
    refine takeWhile_run (fun c hc => ?_) fun c hc => ?_
    · rw [List.mem_reverse] at hc
      simpa using fun heq : c = '\n' => hpart (heq ▸ hc)
    · rw [List.head?_reverse] at hc
      rcases habove with rfl | hlast
      · cases hc
      · cases hlast.symm.trans hc
        rfl
  rw [Position.column_behind, htake, List.length_reverse, Nat.add_comm]

/-- A line goes on at least as far as a text without a line feed that does not end with a carriage
return. -/
theorem IsFirstLine.exists_append {line cs rest : List Char} (h : IsFirstLine line (cs ++ rest))
    (hcs : '\n' ∉ cs) (hlast : cs.getLast? ≠ some '\r') : ∃ more, line = cs ++ more := by
  obtain ⟨-, h⟩ := h
  -- Otherwise the line would end inside of `cs`, in front of a character of a line end.
  have hcut {ending : List Char} (hall : cs ++ rest = line ++ ending)
      (hend : ∀ es, es ≠ [] → es <+: ending → '\n' ∈ es ∨ es.getLast? = some '\r') :
      ∃ more, line = cs ++ more := by
    rcases List.append_eq_append_iff.1 hall with ⟨more, hmore, -⟩ | ⟨es, rfl, hes⟩
    · exact ⟨more, hmore⟩
    · by_cases hnil : es = []
      · exact ⟨[], by simp [hnil]⟩
      · rcases hend es hnil ⟨rest, hes.symm⟩ with hmem | hreturn
        · exact absurd (List.mem_append_right line hmem) hcs
        · rw [List.getLast?_append, hreturn] at hlast
          exact absurd rfl hlast
  rcases h with hall | ⟨-, tail, hall⟩ | ⟨tail, hall⟩
  · exact ⟨rest, hall.symm⟩
  · refine hcut hall fun es hnil hes => .inl ?_
    cases es with
    | nil => exact absurd rfl hnil
    | cons e es =>
      obtain ⟨rfl, -⟩ := List.cons_prefix_cons.1 hes
      exact List.mem_cons_self
  · refine hcut hall fun es hnil hes => ?_
    rcases es with _ | ⟨e, _ | ⟨e', es⟩⟩
    · exact absurd rfl hnil
    · obtain ⟨rfl, -⟩ := List.cons_prefix_cons.1 hes
      exact .inr rfl
    · obtain ⟨-, hes⟩ := List.cons_prefix_cons.1 hes
      obtain ⟨rfl, -⟩ := List.cons_prefix_cons.1 hes
      exact .inl (by simp)

/-! ### Marks -/

namespace Excerpt

/-- What stands under a character that is not marked. -/
def blank (c : Char) : Char :=
  if c = '\t' then '\t' else ' '

theorem map_zipIdx_eq {f : Char × Nat → Char} (g : Char → Char) (cs : List Char) {k : Nat}
    (h : ∀ c i, k ≤ i → i < k + cs.length → f (c, i) = g c) :
    (cs.zipIdx k).map f = cs.map g := by
  induction cs generalizing k with
  | nil => rfl
  | cons c cs ih =>
    rw [List.zipIdx_cons, List.map_cons, List.map_cons, h c k le_rfl (by simp), ih]
    intro d i hk hi
    rw [List.length_cons] at h
    exact h d i (by omega) (by omega)

theorem trimRight_append {marks blanks : List Char} (hmarks : marks.getLast? = some '^')
    (hblanks : ∀ c ∈ blanks, c = ' ' ∨ c = '\t') : trimRight (marks ++ blanks) = marks := by
  have hrun : ∀ c ∈ blanks.reverse, (c == ' ' || c == '\t') = true := by
    intro c hc
    simpa using hblanks c (List.mem_reverse.1 hc)
  obtain ⟨front, rfl⟩ := List.getLast?_eq_some_iff.1 hmarks
  rw [trimRight, List.reverse_append, List.dropWhile_append_of_pos hrun, List.reverse_append]
  simp

/-- The carets stand under a part of a line and nothing stands behind them. -/
theorem marks_append (front : List Char) {part : List Char} (hpart : part ≠ []) (back : List Char) :
    marks (front ++ (part ++ back)) (front.length + 1) (front.length + part.length + 1) =
      front.map blank ++ List.replicate part.length '^' := by
  have hpos := List.length_pos_iff.2 hpart
  have hinside : ¬ (front ++ (part ++ back)).length < front.length + 1 := by
    simp only [List.length_append]
    omega
  rw [marks, if_neg hinside, List.append_nil, List.zipIdx_append, List.zipIdx_append,
    List.map_append, List.map_append]
  rw [map_zipIdx_eq blank front, map_zipIdx_eq (fun _ => '^') part, map_zipIdx_eq blank back,
    List.map_const', ← List.append_assoc]
  · refine trimRight_append ?_ fun c hc => ?_
    · rw [List.getLast?_append, List.getLast?_replicate, if_neg (by omega)]
      rfl
    · obtain ⟨d, -, rfl⟩ := List.mem_map.1 hc
      by_cases hd : d = '\t' <;> simp [blank, hd]
  · intro c i hi _
    simp only [Nat.zero_add] at hi
    simp only [blank]
    rw [if_neg (by omega)]
  · intro c i hi hi'
    simp only [Nat.zero_add] at hi hi'
    exact if_pos (by omega)
  · intro c i _ hi
    simp only [blank]
    rw [if_neg (by omega)]

end Excerpt

/-! ### Firm texts -/

theorem firm_of_all {cs : List Char} (h : ∀ c ∈ cs, c ≠ '\n' ∧ c ≠ '\r') : Firm cs :=
  ⟨fun c hc => h c (List.mem_of_mem_head? hc), fun c hc => h c (List.mem_of_getLast? hc)⟩

/-- A character of a name ends no line. -/
theorem ne_lineEnd_of_isSubsequent {c : Char} (h : isSubsequent c = true) :
    c ≠ '\n' ∧ c ≠ '\r' := by
  constructor
  · rintro rfl
    exact absurd h (by decide)
  · rintro rfl
    exact absurd h (by decide)

theorem firm_of_isSubsequent {cs : List Char} (h : ∀ c ∈ cs, isSubsequent c = true) : Firm cs :=
  firm_of_all fun c hc => ne_lineEnd_of_isSubsequent (h c hc)

/-- A text is as firm as its ends are. -/
theorem Firm.append {cs ds : List Char} (hcs : Firm cs) (hds : Firm ds) (hne : cs ≠ [])
    (hne' : ds ≠ []) (inner : List Char) : Firm (cs ++ (inner ++ ds)) := by
  refine ⟨fun c hc => hcs.first c ?_, fun c hc => hds.last c ?_⟩
  · rwa [List.head?_append_of_ne_nil _ hne] at hc
  · rwa [← List.append_assoc, List.getLast?_append_of_ne_nil _ hne'] at hc

theorem IsQuoted.getLast? {cs : List Char} (h : IsQuoted cs) : cs.getLast? = some '"' := by
  induction h with
  | close => rfl
  | plain _ _ _ ih => rw [List.getLast?_cons, ih]; rfl
  | escape _ _ ih => rw [List.getLast?_cons, List.getLast?_cons, ih]; rfl

theorem IsLiteral.firm {cs : List Char} (h : IsLiteral cs) : Firm cs := by
  obtain ⟨hquoted⟩ := h
  refine ⟨fun c hc => ?_, fun c hc => ?_⟩
  · cases hc
    decide
  · rw [List.getLast?_cons, hquoted.getLast?] at hc
    cases hc
    decide

/-- A node that can be written down. -/
def Node.WellFormed : Node → Prop
  | term t => t.WellFormed
  | token t => IsIdentifier t.text.toList
  | segment s => s.WellFormed

theorem Node.WellFormed.of_mem_children {n k : Node} (h : n.WellFormed) (hk : k ∈ n.children) :
    k.WellFormed := by
  cases n with
  | token t => cases hk
  | segment s =>
    obtain rfl := List.mem_singleton.1 hk
    exact Segment.WellFormed.name h
  | term t =>
    cases h with
    | list h =>
      obtain ⟨t, ht, rfl⟩ := List.mem_map.1 hk
      exact h t ht
    | table h =>
      obtain ⟨t, ht, rfl⟩ := List.mem_map.1 hk
      exact h t ht
    | call _ htarget hargs =>
      obtain ⟨t, ht, rfl⟩ := List.mem_map.1 hk
      rcases List.mem_cons.1 ht with rfl | ht
      · exact htarget
      · exact hargs t ht
    | path h =>
      rcases List.mem_cons.1 hk with rfl | hk
      · exact h.root.1
      · obtain ⟨s, hs, rfl⟩ := List.mem_map.1 hk
        exact h.segments s hs
    | _ => cases hk

theorem Node.WellFormed.within {n m : Node} (hn : n.Within m) (h : m.WellFormed) :
    n.WellFormed := by
  induction hn with
  | self => exact h
  | part hk _ ih => exact ih (h.of_mem_children hk)

/-- The text of a leaf is firm. -/
theorem Node.WellFormed.firm_leaf {n : Node} (h : n.WellFormed) {cs : List Char}
    (hleaf : n.leaf? = some cs) : Firm cs := by
  cases n with
  | token t =>
    cases hleaf
    exact firm_of_isSubsequent (IsIdentifier.isSubsequent h)
  | segment s => cases hleaf
  | term t =>
    cases h with
    | list _ | table _ | call _ _ _ | path _ => cases hleaf
    | number h =>
      cases hleaf
      exact firm_of_isSubsequent h.isSubsequent
    | string h =>
      cases hleaf
      exact h.firm
    | symbol hne h =>
      cases hleaf
      refine firm_of_all fun c hc => ?_
      rcases List.mem_cons.1 hc with rfl | hc
      · decide
      · exact ne_lineEnd_of_isSubsequent (h c hc)
    | name h =>
      cases hleaf
      exact firm_of_isSubsequent h.1.isSubsequent
    | wildcard h =>
      cases hleaf
      rw [h]
      exact firm_of_all (by simp)

/-- So is a row without gaps. -/
theorem Gapped.firm {start row : List Char} {ps : List Piece} (h : Gapped (· = []) start ps row)
    (hne : ps ≠ []) (hps : ∀ p ∈ ps, p.text ≠ [] ∧ Firm p.text) : row ≠ [] ∧ Firm row := by
  induction h with
  | nil => exact absurd rfl hne
  | @cons rest p ps before gap hgap _ hrest ih =>
    obtain ⟨⟨hp, hfirm⟩, hps⟩ := List.forall_mem_cons.1 hps
    subst hgap
    rw [List.nil_append]
    refine ⟨List.append_ne_nil_of_left_ne_nil hp rest, ?_⟩
    by_cases hnil : ps = []
    · subst hnil
      obtain ⟨_, rfl⟩ := hrest
      rwa [List.append_nil]
    · obtain ⟨hne, hrow⟩ := ih hnil hps
      exact hfirm.append hrow hp hne []

/-- The text of a node is firm. -/
theorem Piece.Woven.firm {p : Piece} (h : p.Woven) (hw : p.node.WellFormed) : Firm p.text := by
  induction h with
  | leaf hleaf _ _ => exact hw.firm_leaf hleaf
  | @branch p ps row hleaf htext hne _ hnodes hgapped hps ih =>
    have hparts : ∀ q ∈ ps, q.text ≠ [] ∧ Firm q.text := by
      intro q hq
      refine ⟨(hps q hq).text_ne_nil, ih q hq (hw.of_mem_children ?_)⟩
      rw [← hnodes]
      exact List.mem_map_of_mem hq
    have hrow (hfiller : p.node.Filler = (· = [])) (hchildren : p.node.children ≠ []) :
        row ≠ [] ∧ Firm row := by
      rw [hfiller] at hgapped
      refine hgapped.firm (fun hnil => hchildren ?_) hparts
      rw [← hnodes, hnil]
      rfl
    rw [htext]
    obtain ⟨before, node, text⟩ := p
    have hbracket (opening closing : List Char) (ho : opening ≠ []) (hc : closing ≠ [])
        (hall : ∀ c ∈ opening ++ closing, c ≠ '\n' ∧ c ≠ '\r') :
        Firm (opening ++ (row ++ closing)) :=
      (firm_of_all fun c hmem => hall c (List.mem_append_left _ hmem)).append
        (firm_of_all fun c hmem => hall c (List.mem_append_right _ hmem)) ho hc row
    cases node with
    | token t => cases hleaf
    | segment s =>
      obtain ⟨hrow, hfirm⟩ := hrow rfl (List.cons_ne_nil _ _)
      have hlink : s.link.text.toList ≠ [] ∧ ∀ c ∈ s.link.text.toList, c ≠ '\n' ∧ c ≠ '\r' := by
        cases s.link <;> simp [Link.text]
      have hall := (firm_of_all hlink.2).append hfirm hlink.1 hrow []
      simpa [Node.opening, Node.closing] using hall
    | term t =>
      cases t with
      | list items span => exact hbracket ['['] [']'] (by decide) (by decide) (by simp)
      | table items escaped span =>
        cases escaped with
        | false => exact hbracket ['\x7b'] ['\x7d'] (by decide) (by decide) (by simp)
        | true => exact hbracket ['\'', '\x7b'] ['\x7d'] (by decide) (by decide) (by simp)
      | call target args span => exact hbracket ['('] [')'] (by decide) (by decide) (by simp)
      | path q =>
        have hfirm := (hrow rfl (List.cons_ne_nil _ _)).2
        simpa [Node.opening, Node.closing] using hfirm
      | _ => cases hleaf

/-! ### Excerpts -/

/-- The excerpt of a span shows the line that the span starts on. Carets stand under the `width`
characters from the start of the span to its end or that of the line, with at least one among them,
and those characters are the text of the span up to the end of its first line. -/
structure Span.Underlined (span : Span) (text : String) (line : List Char) (width : Nat) : Prop where
  isLine : IsLine text span.start.line line
  column_pos : 0 < span.start.column
  width_pos : 0 < width
  inside : span.start.column + width ≤ line.length + 1
  last : span.start.column + width =
    if span.stop.line = span.start.line then span.stop.column else line.length + 1
  excerpt : span.excerpt text =
    toString span.start.line ++ " | " ++ String.ofList line ++ "\n" ++
      String.ofList (List.replicate (toString span.start.line).length ' ') ++ " | " ++
      String.ofList ((line.take (span.start.column - 1)).map Excerpt.blank ++
        List.replicate width '^')
  marked : IsFirstLine ((line.drop (span.start.column - 1)).take width)
    (cut text span.start.offset span.stop.offset)

section

variable {text : String} {above part cs rest : List Char}

/-- An excerpt underlines what stands in the line of a span. -/
theorem underlined_of_line {mid back : List Char}
    (habove : above = [] ∨ above.getLast? = some '\n') (hpart : '\n' ∉ part)
    (htext : text.toList = above ++ part ++ (cs ++ rest))
    (hline : IsFirstLine (part ++ (mid ++ back)) (part ++ (cs ++ rest))) (hmid : IsFirstLine mid cs)
    (hne : mid ≠ [])
    (hstop : (if (Position.behind (above ++ part ++ cs)).line = (Position.behind (above ++ part)).line
      then (Position.behind (above ++ part ++ cs)).column
      else (part ++ (mid ++ back)).length + 1) = part.length + mid.length + 1) :
    Span.Underlined ⟨.behind (above ++ part), .behind (above ++ part ++ cs)⟩ text
      (part ++ (mid ++ back)) mid.length := by
  have hpos := List.length_pos_iff.2 hne
  have hcolumn := column_of_line habove hpart
  have hnumber : (Position.behind (above ++ part)).line = above.count '\n' + 1 := by
    rw [Position.line_behind, List.count_append, List.count_eq_zero.2 hpart]
    omega
  rw [List.append_assoc] at htext
  have hfound := isFirstLine_splitLines htext habove
  constructor
  case isLine => exact ⟨above, _, htext, habove, hnumber, hline⟩
  case column_pos =>
    show 0 < (Position.behind (above ++ part)).column
    omega
  case width_pos => exact hpos
  case inside =>
    show (Position.behind (above ++ part)).column + _ ≤ _
    rw [hcolumn]
    simp only [List.length_append]
    omega
  case last =>
    show (Position.behind (above ++ part)).column + _ = _
    rw [hcolumn]
    refine Eq.trans ?_ hstop.symm
    omega
  case excerpt =>
    have hlast : max (part.length + mid.length + 1) (part.length + 1 + 1) =
        part.length + mid.length + 1 := by
      omega
    have hindent : (part ++ (mid ++ back)).take part.length = part := List.take_left
    simp only [Span.excerpt, hnumber, hcolumn, Nat.add_sub_cancel, ← hline.unique hfound, hindent]
    rw [hnumber] at hstop
    rw [hstop, max_eq_left (Nat.le_add_left 1 _), hlast, Excerpt.marks_append part hne back]
  case marked =>
    show IsFirstLine _ (cut text (Position.behind _).offset (Position.behind _).offset)
    have hcut : text.toList = above ++ part ++ (cs ++ rest) := by
      rw [htext, List.append_assoc]
    rw [hcolumn, Nat.add_sub_cancel, List.drop_left, List.take_left, cut_behind hcut]
    exact hmid

/-- The first line of a firm text is not empty. -/
theorem dropReturn_ne_nil {first more : List Char} (h : Firm (first ++ '\n' :: more)) :
    dropReturn first ≠ [] := by
  cases first with
  | nil => exact absurd rfl (h.first '\n' rfl).1
  | cons c cs =>
    rw [dropReturn]
    split
    · rename_i hlast
      cases cs with
      | nil => exact absurd (Option.some.inj hlast) (h.first c rfl).2
      | cons d ds => exact List.cons_ne_nil _ _
    · exact List.cons_ne_nil c cs

/-- The excerpt of a firm text. -/
theorem exists_underlined {before : List Char} (htext : text.toList = before ++ (cs ++ rest))
    (hne : cs ≠ []) (hcs : Firm cs) :
    ∃ line width,
      Span.Underlined ⟨.behind before, .behind (before ++ cs)⟩ text line width := by
  obtain ⟨above, part, rfl, hpart, habove⟩ := exists_line_of_point before
  have hcount : (above ++ part ++ cs).count '\n' = (above ++ part).count '\n' + cs.count '\n' :=
    List.count_append
  by_cases hmem : '\n' ∈ cs
  · -- The text goes on to other lines: all that is left of the first is underlined.
    obtain ⟨first, more, rfl, hfirst⟩ := List.eq_append_cons_of_mem hmem
    have hmid := dropReturn_ne_nil hcs
    have hline : IsFirstLine (part ++ (dropReturn first ++ []))
        (part ++ (first ++ '\n' :: more ++ rest)) := by
      have hended := isFirstLine_dropReturn hfirst (more ++ rest)
      rw [List.append_nil, List.append_assoc]
      exact hended.append_left hpart hmid
    refine ⟨_, _, underlined_of_line habove hpart htext hline (isFirstLine_dropReturn hfirst more)
      hmid ?_⟩
    rw [if_neg, List.append_nil, List.length_append]
    rw [Position.line_behind, Position.line_behind, hcount]
    have := List.count_pos_iff.2 hmem
    omega
  · have hlast : (part ++ cs).getLast? ≠ some '\r' := by
      rw [List.getLast?_append_of_ne_nil _ hne]
      exact fun h => (hcs.last _ h).2 rfl
    have hfound : IsFirstLine (firstLine (part ++ cs ++ rest)) (part ++ cs ++ rest) :=
      isFirstLine_firstLine _
    obtain ⟨back, hback⟩ := hfound.exists_append (by simp [hpart, hmem]) hlast
    rw [hback, List.append_assoc, List.append_assoc] at hfound
    refine ⟨_, _, underlined_of_line habove hpart htext hfound ⟨hmem, .inl rfl⟩ hne ?_⟩
    rw [if_pos, List.append_assoc, column_of_line habove (by simp [hpart, hmem]),
      List.length_append]
    rw [Position.line_behind, Position.line_behind, hcount, List.count_eq_zero.2 hmem]
    rfl

end

/-- A span of reading: that of a node of what is read, or of the fault if the text cannot be read. -/
def Span.OfReading (span : Span) (text : String) : Prop :=
  (∃ p n, parse text = .ok p ∧ Node.OccursIn n p ∧ span = n.span) ∨
    ∃ f, parse text = .error f ∧ span = f.span

/-- An excerpt underlines exactly the text of a span, for every node of what is read from a text and
for the fault of a text that cannot be read. -/
theorem excerpt_underlines_source {text : String} {span : Span} (h : span.OfReading text) :
    ∃ line width, span.Underlined text line width := by
  rcases h with ⟨p, n, hparse, hn, rfl⟩ | ⟨f, hparse, rfl⟩
  · obtain ⟨q, rfl, hq, tail, htext⟩ := exists_woven_of_occursIn hparse hn
    obtain ⟨c, hc, hwithin⟩ := hn
    have hw : q.node.WellFormed := Node.WellFormed.within hwithin (wellFormed_of_parse hparse c hc)
    rw [hq.span_eq]
    exact exists_underlined htext hq.text_ne_nil (hq.firm hw)
  · obtain ⟨gap, body, c, rest, hstop, -, hspan, htext, -⟩ := exists_stop_of_parse hparse
    have htrivium := Reader.trivium_program (Cursor.start text)
    rw [hstop] at htrivium
    obtain ⟨-, -, hreturn, hfeed, -⟩ := not_blank_of_trivium htrivium
    rw [hspan]
    refine exists_underlined htext (List.cons_ne_nil c []) (firm_of_all fun d hd => ?_)
    obtain rfl := List.mem_singleton.1 hd
    exact ⟨hfeed, hreturn⟩

/-- A string over two lines behind a tab and characters of two bytes, with line ends of two
characters. -/
theorem excerpt_underlines_source_string :
    Span.OfReading ⟨⟨10, 2, 5⟩, ⟨17, 3, 3⟩⟩ "(f)\r\n\t(é \"ö\r\nx\" y)" ∧
    Span.excerpt ⟨⟨10, 2, 5⟩, ⟨17, 3, 3⟩⟩ "(f)\r\n\t(é \"ö\r\nx\" y)" =
      "2 | \t(é \"ö\n  | \t   ^^" ∧
    ∃ line width,
      Span.Underlined ⟨⟨10, 2, 5⟩, ⟨17, 3, 3⟩⟩ "(f)\r\n\t(é \"ö\r\nx\" y)" line width := by
  have hspans : (parse "(f)\r\n\t(é \"ö\r\nx\" y)").toOption.map
      (fun p => p.map fun c => c.args.map Term.span) = some
        [[], [⟨⟨10, 2, 5⟩, ⟨17, 3, 3⟩⟩, ⟨⟨18, 3, 4⟩, ⟨19, 3, 5⟩⟩]] := by
    decide +kernel
  have hreading : Span.OfReading ⟨⟨10, 2, 5⟩, ⟨17, 3, 3⟩⟩ "(f)\r\n\t(é \"ö\r\nx\" y)" := by
    cases h : parse "(f)\r\n\t(é \"ö\r\nx\" y)" with
    | error f =>
      rw [h] at hspans
      cases hspans
    | ok p =>
      rw [h] at hspans
      have hrows : (p.map fun c => c.args.map Term.span) =
          [[], [⟨⟨10, 2, 5⟩, ⟨17, 3, 3⟩⟩, ⟨⟨18, 3, 4⟩, ⟨19, 3, 5⟩⟩]] := Option.some.inj hspans
      have hrow : [⟨⟨10, 2, 5⟩, ⟨17, 3, 3⟩⟩, ⟨⟨18, 3, 4⟩, ⟨19, 3, 5⟩⟩] ∈
          p.map fun c => c.args.map Term.span := by
        rw [hrows]
        exact List.mem_cons_of_mem _ (List.mem_singleton_self _)
      obtain ⟨c, hc, hargs⟩ := List.mem_map.1 hrow
      have harg : ⟨⟨10, 2, 5⟩, ⟨17, 3, 3⟩⟩ ∈ c.args.map Term.span := by
        rw [hargs]
        exact List.mem_cons_self
      obtain ⟨t, ht, hspan⟩ := List.mem_map.1 harg
      have hchild : Node.term t ∈ (Node.term c.term).children :=
        List.mem_map.2 ⟨t, List.mem_cons_of_mem _ ht, rfl⟩
      exact .inl ⟨p, .term t, h, ⟨c, hc, .part hchild .self⟩, hspan.symm⟩
  exact ⟨hreading, by decide +kernel, excerpt_underlines_source hreading⟩

end LispLua
