/-!
# Places in a text

A `Position` is a point between two characters of a text, a `Span` the stretch between two points.
-/

namespace LispLua

/-- A point of a text: the number of bytes before it, its line and its column. Lines and columns
count from one, and a column counts characters. -/
structure Position where
  offset : Nat
  line : Nat
  column : Nat
  deriving DecidableEq, Inhabited

namespace Position

/-- The point in front of the first character of a text. -/
def origin : Position := ⟨0, 1, 1⟩

/-- The point behind `c` when `p` is the point in front of it. A line feed ends its line. -/
def advance (p : Position) (c : Char) : Position :=
  if c = '\n' then ⟨p.offset + c.utf8Size, p.line + 1, 1⟩
  else ⟨p.offset + c.utf8Size, p.line, p.column + 1⟩

/-- The point behind all of `cs` when `p` is the point in front of them. -/
def after (p : Position) (cs : List Char) : Position :=
  cs.foldl advance p

@[simp] theorem after_nil (p : Position) : p.after [] = p := rfl

@[simp] theorem after_cons (p : Position) (c : Char) (cs : List Char) :
    p.after (c :: cs) = (p.advance c).after cs := rfl

theorem after_append (p : Position) (cs ds : List Char) :
    p.after (cs ++ ds) = (p.after cs).after ds := by
  simp [after]

end Position

/-- The stretch of a text from `start` up to `stop`. -/
structure Span where
  start : Position
  stop : Position
  deriving DecidableEq, Inhabited

namespace Span

/-- The span of a node that stands in no text. -/
def none : Span := ⟨⟨0, 0, 0⟩, ⟨0, 0, 0⟩⟩

end Span

end LispLua
