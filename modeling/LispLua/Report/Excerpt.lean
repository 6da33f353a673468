import LispLua.Text.Lines
import LispLua.Text.Position

/-!
# Excerpts of a source

A fault is shown with the line it starts on and carets under its span.
-/

namespace LispLua

namespace Excerpt

/-- Drop blanks and tabs from the end of a line of marks. -/
def trimRight (marks : List Char) : List Char :=
  (marks.reverse.dropWhile fun c => c == ' ' || c == '\t').reverse

/-- The marks under a line: carets from column `first` up to column `last`, tabs under tabs so that
the carets stand right in a terminal, and blanks elsewhere. A span that starts behind the line is
marked by one caret there. -/
def marks (line : List Char) (first last : Nat) : List Char :=
  let under := line.zipIdx.map fun (c, i) =>
    if first ≤ i + 1 ∧ i + 1 < last then '^' else if c = '\t' then '\t' else ' '
  trimRight (under ++ if line.length < first then ['^'] else [])

end Excerpt

namespace Span

/-- Where a span starts, for a reader of the source of the given name. -/
def locate (span : Span) (sourceName : String) : String :=
  sourceName ++ ":" ++ toString span.start.line ++ ":" ++ toString span.start.column

/-- The line a span starts on with its number, and a line of carets under the span. A span that goes
on to other lines is marked to the end of the first, and an empty one by a single caret. -/
def excerpt (span : Span) (code : String) : String :=
  let line := (splitLines code).getD (span.start.line - 1) []
  let first := max span.start.column 1
  let last := if span.stop.line = span.start.line then span.stop.column else line.length + 1
  let number := toString span.start.line
  let pad := String.ofList (List.replicate number.length ' ')
  number ++ " | " ++ String.ofList line ++ "\n" ++ pad ++ " | " ++
    String.ofList (Excerpt.marks line first (max last (first + 1)))

end Span

end LispLua
