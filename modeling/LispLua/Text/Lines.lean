/-!
# Lines of a text

A line is ended by a line feed, and a carriage return in front of that belongs to the end too. A
carriage return elsewhere is an ordinary character.
-/

namespace LispLua

/-- A text cut at its line feeds; there is one piece more than there are line feeds. -/
def pieces : List Char → List (List Char)
  | [] => [[]]
  | c :: cs =>
    if c = '\n' then [] :: pieces cs
    else
      match pieces cs with
      | [] => [[c]]
      | p :: ps => (c :: p) :: ps

/-- Drop one carriage return from the end of a line. -/
def dropReturn (line : List Char) : List Char :=
  if line.getLast? = some '\r' then line.dropLast else line

/-- The lines of a text that is cut at its line feeds. What follows the last line feed is a line
only if there is something in it. -/
def linesOfPieces : List (List Char) → List (List Char)
  | [] | [[]] => []
  | [last] => [last]
  | p :: ps => dropReturn p :: linesOfPieces ps

/-- The lines of a text, without their ends. -/
def splitLines (text : String) : List (List Char) :=
  linesOfPieces (pieces text.toList)

end LispLua
