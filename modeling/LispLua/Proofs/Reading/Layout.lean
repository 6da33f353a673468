import LispLua.Proofs.Reading.WellFormed
import LispLua.Term.Printer

/-!
# Layouts

A term can be written down in many ways that differ in what stands between its tokens. A layout is
any of them: each token is written as the printer writes it, neighbours in a bracket are kept apart
by trivia, and trivia may stand next to a bracket. The printer gives one layout of every term.
-/

namespace LispLua

/-! ### Terms without spans -/

/-- A token in no place. -/
def Token.bare (t : Token) : Token :=
  ⟨t.text, .none⟩

/-- A segment in no place. -/
def Segment.bare (s : Segment) : Segment :=
  ⟨s.link, s.name.bare, .none⟩

theorem Token.bare_congr {t u : Token} (h : t.text = u.text) : t.bare = u.bare := by
  rw [Token.bare, Token.bare, h]

theorem Segment.bare_congr {s t : Segment} (hlink : s.link = t.link)
    (hname : s.name.text = t.name.text) : s.bare = t.bare := by
  rw [Segment.bare, Segment.bare, hlink, Token.bare_congr hname]

/-- A path in no place. -/
def Path.bare (p : Path) : Path :=
  ⟨p.root.bare, p.segments.map Segment.bare, .none⟩

mutual

/-- A term in no place. Two terms without their spans are equal if they differ in layout only. -/
def Term.bare : Term → Term
  | .list items _ => .list (Term.bareAll items) .none
  | .table items escaped _ => .table (Term.bareAll items) escaped .none
  | .call target args _ => .call target.bare (Term.bareAll args) .none
  | .path p => .path p.bare
  | .number t => .number t.bare
  | .string t => .string t.bare
  | .symbol t => .symbol t.bare
  | .name t => .name t.bare
  | .wildcard t => .wildcard t.bare

/-- Terms in no place. -/
def Term.bareAll : List Term → List Term
  | [] => []
  | t :: ts => t.bare :: Term.bareAll ts

end

theorem Term.bareAll_eq_map (ts : List Term) : Term.bareAll ts = ts.map Term.bare := by
  induction ts with
  | nil => rfl
  | cons t ts ih => rw [Term.bareAll, ih, List.map_cons]

theorem Term.bare_list (items : List Term) (span : Span) :
    (Term.list items span).bare = .list (items.map Term.bare) .none := by
  rw [Term.bare, Term.bareAll_eq_map]

theorem Term.bare_table (items : List Term) (escaped : Bool) (span : Span) :
    (Term.table items escaped span).bare = .table (items.map Term.bare) escaped .none := by
  rw [Term.bare, Term.bareAll_eq_map]

theorem Term.bare_call (target : Term) (args : List Term) (span : Span) :
    (Term.call target args span).bare = .call target.bare (args.map Term.bare) .none := by
  rw [Term.bare, Term.bareAll_eq_map]

/-- The calls of a program in no place. -/
def Program.bare (p : Program) : List Term :=
  p.map fun c => c.term.bare

/-! ### Trivia -/

/-- What may stand between terms: blanks, commas, and comments up to the end of their line, which
itself counts as blanks. -/
inductive Trivia : List Char → Prop
  | nil : Trivia []
  | blank {c : Char} {cs : List Char} : isBlank c = true → Trivia cs → Trivia (c :: cs)
  | comma {cs : List Char} : Trivia cs → Trivia (',' :: cs)
  | comment {text cs : List Char} : (∀ c ∈ text, c ≠ '\r' ∧ c ≠ '\n') →
      ['\n'] <+: cs ∨ ['\r', '\n'] <+: cs → Trivia cs → Trivia (';' :: (text ++ cs))

/-- A text that does not start with trivia. -/
def Solid (rest : List Char) : Prop :=
  ∀ c, rest.head? = some c → isBlank c = false ∧ c ≠ ',' ∧ c ≠ ';'

theorem Solid.append {cs : List Char} (h : Solid cs) (hne : cs ≠ []) (tail : List Char) :
    Solid (cs ++ tail) := by
  obtain ⟨c, ds, rfl⟩ := List.exists_cons_of_ne_nil hne
  exact h

namespace Trivia

theorem append {cs ds : List Char} (hc : Trivia cs) (hd : Trivia ds) : Trivia (cs ++ ds) := by
  induction hc with
  | nil => exact hd
  | blank h _ ih => exact .blank h ih
  | comma _ ih => exact .comma ih
  | @comment text cs htext hend _ ih =>
    rw [List.cons_append, List.append_assoc]
    refine .comment htext ?_ ih
    exact hend.imp (fun h => h.trans (List.prefix_append cs ds)) fun h =>
      h.trans (List.prefix_append cs ds)

theorem dropWhile {cs : List Char} (h : Trivia cs) : Trivia (cs.dropWhile isBlank) := by
  induction h with
  | nil => exact .nil
  | blank h _ ih =>
    rw [List.dropWhile_cons, if_pos h]
    exact ih
  | comma h _ => exact .comma h
  | comment htext hend h _ => exact .comment htext hend h

/-- Trivia start with a character that cannot go on with a token. -/
theorem head {cs : List Char} (h : Trivia cs) (hne : cs ≠ []) :
    ∃ c ds, cs = c :: ds ∧ (isBlank c = true ∨ c = ',' ∨ c = ';') := by
  cases h with
  | nil => exact absurd rfl hne
  | blank h _ => exact ⟨_, _, rfl, .inl h⟩
  | comma _ => exact ⟨_, _, rfl, .inr (.inl rfl)⟩
  | comment _ _ _ => exact ⟨_, _, rfl, .inr (.inr rfl)⟩

end Trivia

/-! ### Layouts -/

/-- The terms that are one token, or one token after the other without anything between. -/
def Term.IsLeaf (t : Term) : Prop :=
  t.IsTarget ∨ t.shape = .string

/-- Terms in a row, each with its text, and trivia between every two neighbours. -/
inductive Row : List (Term × List Char) → List Char → Prop
  | nil : Row [] []
  | single (p : Term × List Char) : Row [p] p.2
  | cons {p q : Term × List Char} {ps : List (Term × List Char)} {gap cs : List Char} :
      Trivia gap → gap ≠ [] → Row (q :: ps) cs → Row (p :: q :: ps) (p.2 ++ (gap ++ cs))

/-- A row starts with the text of its first term. -/
theorem Row.exists_append {p : Term × List Char} {ps : List (Term × List Char)} {cs : List Char}
    (h : Row (p :: ps) cs) : ∃ tail, cs = p.2 ++ tail := by
  cases h with
  | single => exact ⟨[], (List.append_nil _).symm⟩
  | cons _ _ _ => exact ⟨_, rfl⟩

/-- The text of a term in a row is part of the text of the row. -/
theorem Row.length_le {ps : List (Term × List Char)} {cs : List Char} (h : Row ps cs)
    {p : Term × List Char} (hp : p ∈ ps) : p.2.length ≤ cs.length := by
  induction h with
  | nil => cases hp
  | single q =>
    obtain rfl := List.mem_singleton.1 hp
    exact Nat.le_refl _
  | cons _ _ _ ih =>
    simp only [List.length_append]
    rcases List.mem_cons.1 hp with rfl | hp
    · omega
    · have := ih hp
      omega

/-- The ways of writing a term down. -/
inductive Layout : Term → List Char → Prop
  | leaf {t : Term} : t.IsLeaf → Layout t t.render.toList
  | list {pieces : List (Term × List Char)} {front cs back : List Char} (span : Span) :
      (∀ p ∈ pieces, Layout p.1 p.2) → Trivia front → Row pieces cs → Trivia back →
        Layout (.list (pieces.map Prod.fst) span) ('[' :: (front ++ (cs ++ (back ++ [']']))))
  | table {pieces : List (Term × List Char)} {front cs back : List Char} (escaped : Bool)
      (span : Span) :
      (∀ p ∈ pieces, Layout p.1 p.2) → Trivia front → Row pieces cs → Trivia back →
        Layout (.table (pieces.map Prod.fst) escaped span)
          ((if escaped then ['\''] else []) ++ '\x7b' :: (front ++ (cs ++ (back ++ ['\x7d']))))
  | call {target : Term × List Char} {args : List (Term × List Char)} {front cs back : List Char}
      (span : Span) :
      (∀ p ∈ target :: args, Layout p.1 p.2) → Trivia front → Row (target :: args) cs →
        Trivia back →
        Layout (.call target.1 (args.map Prod.fst) span)
          ('(' :: (front ++ (cs ++ (back ++ [')']))))

/-- There is only one way to write a target down. -/
theorem Layout.eq_render {t : Term} {cs : List Char} (h : Layout t cs) (ht : t.IsTarget) :
    cs = t.render.toList := by
  cases h with
  | leaf _ => rfl
  | list _ _ _ _ _ | table _ _ _ _ _ _ | call _ _ _ _ _ => simp [Term.IsTarget, Term.shape] at ht

/-- The ways of writing a program down: trivia may stand in front of, between and behind calls. -/
inductive ProgramLayout : Program → List Char → Prop
  | nil {gap : List Char} : Trivia gap → ProgramLayout [] gap
  | cons {c : Call} {p : Program} {gap text cs : List Char} :
      Trivia gap → Layout c.term text → ProgramLayout p cs →
        ProgramLayout (c :: p) (gap ++ (text ++ cs))

/-! ### The printed layout -/

theorem Path.toList_render (p : Path) : p.render.toList =
    p.root.text.toList ++ p.segments.flatMap fun s => s.link.text.toList ++ s.name.text.toList := by
  simp [Path.render, String.toList_join, List.flatMap, Function.comp_def]

/-- A term with the text the printer gives it. -/
def Term.printed (t : Term) : Term × List Char :=
  (t, t.render.toList)

theorem Row.render (ts : List Term) :
    Row (ts.map Term.printed) (String.intercalate " " (Term.renderAll ts)).toList := by
  match ts with
  | [] => exact .nil
  | [t] =>
    have h : (String.intercalate " " (Term.renderAll [t])).toList = t.render.toList := by
      simp [Term.renderAll]
    rw [h]
    exact .single t.printed
  | t :: u :: us =>
    have h : (String.intercalate " " (Term.renderAll (t :: u :: us))).toList =
        t.render.toList ++
          ([' '] ++ (String.intercalate " " (Term.renderAll (u :: us))).toList) := by
      simp [Term.renderAll]
    rw [h]
    exact .cons (.blank (by decide) .nil) (by simp) (Row.render (u :: us))

mutual

/-- The printed text of a term is a layout of it. -/
theorem Layout.render : ∀ t : Term, Layout t t.render.toList
  | .list items span => by
    have h := Layout.list span (Layout.renderAll items) .nil (Row.render items) .nil
    simpa [Term.render, Function.comp_def, Term.printed] using h
  | .table items escaped span => by
    have h := Layout.table escaped span (Layout.renderAll items) .nil (Row.render items) .nil
    cases escaped <;> simpa [Term.render, Function.comp_def, Term.printed] using h
  | .call target args span => by
    have hp : ∀ p ∈ target.printed :: args.map Term.printed, Layout p.1 p.2 := by
      intro p hp
      rcases List.mem_cons.1 hp with rfl | hp
      · exact Layout.render target
      · exact Layout.renderAll args p hp
    have h := Layout.call span hp .nil (Row.render (target :: args)) .nil
    simpa [Term.render, Term.renderAll, Function.comp_def, Term.printed] using h
  | .path _ | .number _ | .symbol _ | .name _ | .wildcard _ =>
    .leaf (.inl (by simp [Term.IsTarget, Term.shape]))
  | .string _ => .leaf (.inr rfl)

theorem Layout.renderAll : ∀ ts : List Term, ∀ p ∈ ts.map Term.printed, Layout p.1 p.2
  | [], _, h => by cases h
  | t :: ts, p, h => by
    rcases List.mem_cons.1 h with rfl | h
    · exact Layout.render t
    · exact Layout.renderAll ts p h

end

/-- The printed calls of a program are a layout of it, with nothing between them. -/
theorem ProgramLayout.render (p : Program) :
    ProgramLayout p (String.join (p.map Call.render)).toList := by
  induction p with
  | nil => exact .nil .nil
  | cons c p ih =>
    rw [List.map_cons, String.join_cons, String.toList_append]
    exact .cons .nil (Layout.render c.term) ih

end LispLua
