import LispLua.Proofs.Reading.Weave

/-!
# Faithful locations

The spans of a tree that is read from a text tell the truth about the text, and nothing of the text
is lost: every character belongs to a leaf, to what a node has around its parts, or to trivia.
-/

namespace LispLua

/-- The spans stand one after the other between the byte offsets `i` and `j` of a text. In front of
the first stand `front` and a filler, between two of them a filler, and behind the last a filler and
`back`. -/
def Interleaved (text : String) (filler : List Char → Prop) (back : List Char) :
    List Char → Nat → List Span → Nat → Prop
  | front, i, [], j => i ≤ j ∧ ∃ gap, filler gap ∧ cut text i j = front ++ (gap ++ back)
  | front, i, s :: ss, j =>
    i ≤ s.start.offset ∧ s.start.offset < s.stop.offset ∧
      (∃ gap, filler gap ∧ cut text i s.start.offset = front ++ gap) ∧
      Interleaved text filler back [] s.stop.offset ss j

/-- A node is another one or a part of it, at any depth. -/
inductive Node.Within (n : Node) : Node → Prop
  | self : n.Within n
  | part {m k : Node} : k ∈ m.children → n.Within k → n.Within m

/-- A node stands somewhere in a program. -/
def Node.OccursIn (n : Node) (p : Program) : Prop :=
  ∃ c ∈ p, n.Within (.term c.term)

/-- The span of a node tells the truth about a text: its ends are points of the text, it cuts out the
text of a leaf, and otherwise what the node has around its parts, the spans of the parts in order,
and fillers between them. -/
structure Node.Faithful (n : Node) (text : String) : Prop where
  start : n.span.start.Faithful text
  stop : n.span.stop.Faithful text
  nonempty : n.span.start.offset < n.span.stop.offset
  bounded : n.span.stop.offset ≤ text.utf8ByteSize
  leaf : ∀ cs, n.leaf? = some cs → cut text n.span.start.offset n.span.stop.offset = cs
  parts : n.leaf? = none → Interleaved text n.Filler n.closing n.opening n.span.start.offset
    (n.children.map Node.span) n.span.stop.offset

section

variable {text : String} {filler : List Char → Prop} {start before front row back rest : List Char}
  {ps : List Piece}

/-- A row of pieces that starts behind `before` and `front`, as the offsets tell it. -/
theorem Gapped.interleaved (h : Gapped filler start ps row) (hps : ∀ p ∈ ps, p.Woven)
    (hstart : start = before ++ front)
    (htext : text.toList = before ++ (front ++ (row ++ (back ++ rest)))) :
    Interleaved text filler back front (Position.behind before).offset
      (ps.map fun p => p.node.span)
      (Position.behind (before ++ (front ++ (row ++ back)))).offset := by
  induction h generalizing before front with
  | @nil _ gap hgap =>
    have hcut : text.toList = before ++ (front ++ (gap ++ back) ++ rest) := by
      simpa only [List.append_assoc] using htext
    exact ⟨offset_le_behind _ _, gap, hgap, cut_behind hcut⟩
  | @cons row p ps _ gap hgap hp _ ih =>
    obtain ⟨hwoven, hps⟩ := List.forall_mem_cons.1 hps
    have hbefore : p.before = before ++ (front ++ gap) := by
      rw [hp, hstart, List.append_assoc]
    have hrow := ih hps (List.append_nil _).symm (by
      rw [htext, hbefore]
      simp only [List.append_assoc, List.nil_append])
    have hend : p.before ++ p.text ++ ([] ++ (row ++ back)) =
        before ++ (front ++ (gap ++ (p.text ++ row) ++ back)) := by
      rw [hbefore]
      simp only [List.append_assoc, List.nil_append]
    rw [hend] at hrow
    rw [List.map_cons, hwoven.span_eq]
    refine ⟨?_, offset_lt_behind hwoven.text_ne_nil, ⟨gap, hgap, ?_⟩, hrow⟩
    · show _ ≤ (Position.behind p.before).offset
      rw [hbefore]
      exact offset_le_behind _ _
    · show cut text _ (Position.behind p.before).offset = _
      have hcut : text.toList = before ++ (front ++ gap ++ (p.text ++ (row ++ (back ++ rest)))) := by
        simpa only [List.append_assoc] using htext
      rw [hbefore]
      exact cut_behind hcut

/-- Each piece of a row stands in the text of the row. -/
theorem Gapped.exists_eq_append (h : Gapped filler start ps row) {p : Piece} (hp : p ∈ ps) :
    ∃ tail, start ++ row = p.before ++ (p.text ++ tail) := by
  induction h with
  | nil => cases hp
  | @cons row q ps before _ _ hq _ ih =>
    rcases List.mem_cons.1 hp with rfl | hp
    · exact ⟨row, by rw [hq, List.append_assoc]⟩
    · obtain ⟨tail, htail⟩ := ih hp
      refine ⟨tail, ?_⟩
      rw [← htail, hq]
      simp only [List.append_assoc]

/-- A node that is woven into a text is faithful to it. -/
theorem Piece.Woven.faithful {p : Piece} (h : p.Woven)
    (htext : text.toList = p.before ++ (p.text ++ rest)) : p.node.Faithful text := by
  have htext' : text.toList = p.before ++ p.text ++ rest := by rw [htext, List.append_assoc]
  have hstop := faithful_behind htext'
  refine ⟨?_, ?_, ?_, ?_, ?_, ?_⟩ <;> rw [h.span_eq]
  · exact faithful_behind htext
  · exact hstop
  · exact offset_lt_behind h.text_ne_nil
  · exact hstop.boundary.le_utf8ByteSize
  · intro cs hleaf
    cases h with
    | leaf hcs _ _ =>
      rw [hcs] at hleaf
      cases hleaf
      exact cut_behind htext
    | branch _ _ hnone _ _ _ _ _ _ =>
      rw [hnone] at hleaf
      cases hleaf
  · intro hleaf
    cases h with
    | leaf hcs _ _ =>
      rw [hcs] at hleaf
      cases hleaf
    | @branch _ ps row _ hwhole _ _ hnodes hgapped hps =>
      have hparts : text.toList =
          p.before ++ (p.node.opening ++ (row ++ (p.node.closing ++ rest))) := by
        rw [htext, hwhole]
        simp only [List.append_assoc]
      have hrow := hgapped.interleaved hps rfl hparts
      rw [← hwhole] at hrow
      rwa [← hnodes, List.map_map]

/-- The parts of a node that is woven into a text are woven into it too. -/
theorem Piece.Woven.exists_within {n m : Node} (hn : n.Within m) {p : Piece} (hp : p.node = m)
    (h : p.Woven) (htext : text.toList = p.before ++ (p.text ++ rest)) :
    ∃ q : Piece, q.node = n ∧ q.Woven ∧ ∃ tail, text.toList = q.before ++ (q.text ++ tail) := by
  induction hn generalizing p rest with
  | self => exact ⟨p, hp, h, rest, htext⟩
  | @part m k hk _ ih =>
    subst hp
    cases h with
    | leaf hleaf _ _ =>
      rw [Node.children_eq_nil hleaf] at hk
      cases hk
    | @branch _ ps row _ hwhole _ _ hnodes hgapped hps =>
      rw [← hnodes] at hk
      obtain ⟨q, hq, hqk⟩ := List.mem_map.1 hk
      obtain ⟨tail, htail⟩ := hgapped.exists_eq_append hq
      have hpart : text.toList = q.before ++ (q.text ++ (tail ++ (p.node.closing ++ rest))) := by
        calc text.toList
            = p.before ++ p.node.opening ++ row ++ (p.node.closing ++ rest) := by
              rw [htext, hwhole]
              simp only [List.append_assoc]
          _ = q.before ++ (q.text ++ (tail ++ (p.node.closing ++ rest))) := by
              rw [htail]
              simp only [List.append_assoc]
      exact ih hqk (hps q hq) hpart

/-- So they are faithful to it. -/
theorem Piece.Woven.faithful_within {n m : Node} (hn : n.Within m) {p : Piece} (hp : p.node = m)
    (h : p.Woven) (htext : text.toList = p.before ++ (p.text ++ rest)) : n.Faithful text := by
  obtain ⟨q, rfl, hq, tail, htail⟩ := h.exists_within hn hp htext
  exact hq.faithful htail

end

/-- Every node of what is read is woven into the source. -/
theorem exists_woven_of_occursIn {text : String} {p : Program} (h : parse text = .ok p) {n : Node}
    (hn : n.OccursIn p) :
    ∃ q : Piece, q.node = n ∧ q.Woven ∧ ∃ tail, text.toList = q.before ++ (q.text ++ tail) := by
  obtain ⟨ps, row, last, htext, hgapped, hnodes, hps, -⟩ := exists_gapped_of_parse h
  obtain ⟨c, hc, hn⟩ := hn
  have hmem : Node.term c.term ∈ ps.map Piece.node := by
    rw [hnodes]
    exact List.mem_map.2 ⟨c, hc, rfl⟩
  obtain ⟨q, hq, hqc⟩ := List.mem_map.1 hmem
  obtain ⟨tail, htail⟩ := hgapped.exists_eq_append hq
  rw [List.nil_append] at htail
  have hpart : text.toList = q.before ++ (q.text ++ (tail ++ last)) := by
    rw [htext, htail]
    simp only [List.append_assoc]
  exact (hps q hq).exists_within hn hqc hpart

/-- Locations are faithful and nothing of a source is lost. Every node of what is read has a span
that tells the truth about the source, all that stands around the calls is trivia, and the source is
woven from the calls and that. -/
theorem parse_locates_source {text : String} {p : Program} (h : parse text = .ok p) :
    (∀ n : Node, n.OccursIn p → n.Faithful text) ∧
    (∃ last, (last = [] ∨ IsComment last) ∧
      Interleaved text Trivia last [] 0 (p.map Call.span) text.utf8ByteSize) ∧
    (∃ ps row last, text.toList = row ++ last ∧ (last = [] ∨ IsComment last) ∧
      Gapped Trivia [] ps row ∧ ps.map Piece.node = p.map (fun c => .term c.term) ∧
      ∀ q ∈ ps, q.Woven) := by
  obtain ⟨ps, row, last, htext, hgapped, hnodes, hps, hlast⟩ := exists_gapped_of_parse h
  refine ⟨?_, ⟨last, hlast, ?_⟩, ps, row, last, htext, hlast, hgapped, hnodes, hps⟩
  · rintro n ⟨c, hc, hn⟩
    have hmem : Node.term c.term ∈ ps.map Piece.node := by
      rw [hnodes]
      exact List.mem_map.2 ⟨c, hc, rfl⟩
    obtain ⟨q, hq, hqc⟩ := List.mem_map.1 hmem
    obtain ⟨tail, htail⟩ := hgapped.exists_eq_append hq
    rw [List.nil_append] at htail
    have hpart : text.toList = q.before ++ (q.text ++ (tail ++ last)) := by
      rw [htext, htail]
      simp only [List.append_assoc]
    exact (hps q hq).faithful_within hn hqc hpart
  · have hwhole : text.toList = [] ++ ([] ++ (row ++ (last ++ []))) := by
      rw [htext, List.nil_append, List.nil_append, List.append_nil]
    have hrow := hgapped.interleaved hps rfl hwhole
    have hspans : ps.map (fun q => q.node.span) = p.map Call.span := by
      have hmap := congrArg (List.map Node.span) hnodes
      rwa [List.map_map, List.map_map] at hmap
    rw [hspans, List.nil_append, List.nil_append, offset_behind_eq_size htext] at hrow
    exact hrow

/-- A call behind a comment, with characters of two bytes, line ends of two kinds, a string over two
lines, and a last comment that ends with the text. -/
theorem parse_locates_source_lines :
    ∃ p, parse "; é\r\n(a:?b '\x7b:k \"ö\n\"\x7d,[ ,-1]#');" = .ok p ∧
      p.map (fun c => (c.span, c.args.map Term.span)) =
        [(⟨⟨6, 2, 1⟩, ⟨33, 3, 13⟩⟩, [⟨⟨12, 2, 7⟩, ⟨23, 3, 3⟩⟩, ⟨⟨24, 3, 4⟩, ⟨30, 3, 10⟩⟩,
          ⟨⟨30, 3, 10⟩, ⟨32, 3, 12⟩⟩])] ∧
      (∀ n : Node, n.OccursIn p → n.Faithful "; é\r\n(a:?b '\x7b:k \"ö\n\"\x7d,[ ,-1]#');") := by
  have hspans : (parse "; é\r\n(a:?b '\x7b:k \"ö\n\"\x7d,[ ,-1]#');").toOption.map
      (fun p => p.map fun c => (c.span, c.args.map Term.span)) = some
        [(⟨⟨6, 2, 1⟩, ⟨33, 3, 13⟩⟩, [⟨⟨12, 2, 7⟩, ⟨23, 3, 3⟩⟩, ⟨⟨24, 3, 4⟩, ⟨30, 3, 10⟩⟩,
          ⟨⟨30, 3, 10⟩, ⟨32, 3, 12⟩⟩])] := by
    decide +kernel
  cases h : parse "; é\r\n(a:?b '\x7b:k \"ö\n\"\x7d,[ ,-1]#');" with
  | error f =>
    rw [h] at hspans
    cases hspans
  | ok p =>
    rw [h] at hspans
    exact ⟨p, rfl, Option.some.inj hspans, (parse_locates_source h).1⟩

end LispLua
