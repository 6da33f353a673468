import LispLua.Term.Basic

/-!
# Writing terms

The canonical text of a term: one blank between neighbours and none inside a bracket.
-/

namespace LispLua

/-- The text of an access expression. -/
def Path.render (p : Path) : String :=
  p.root.text ++ String.join (p.segments.map fun s => s.link.text ++ s.name.text)

mutual

/-- The text of a term. -/
def Term.render : Term → String
  | .list items _ => "[" ++ String.intercalate " " (Term.renderAll items) ++ "]"
  | .table items escaped _ =>
    (if escaped then "'" else "") ++ "\x7b" ++
      String.intercalate " " (Term.renderAll items) ++ "\x7d"
  | .call target args _ =>
    "(" ++ String.intercalate " " (target.render :: Term.renderAll args) ++ ")"
  | .path p => p.render
  | .symbol t => ":" ++ t.text
  | .number t | .string t | .name t | .wildcard t => t.text

/-- The texts of some terms, in order. -/
def Term.renderAll : List Term → List String
  | [] => []
  | t :: ts => t.render :: Term.renderAll ts

end

/-- The text of a call. -/
def Call.render (c : Call) : String :=
  c.term.render

theorem Term.renderAll_eq_map (ts : List Term) : Term.renderAll ts = ts.map Term.render := by
  induction ts with
  | nil => rfl
  | cons t ts ih => rw [Term.renderAll, ih, List.map_cons]

end LispLua
