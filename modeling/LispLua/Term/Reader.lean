import LispLua.Fault
import LispLua.Text.Numeric

/-!
# Reading terms

The grammar, with ordered choice:

- a program is a sequence of calls;
- a term is a call, a list, a table, a string or a target;
- a call is `(target term*)`, a list `[term*]`, a table `{term*}` with an optional quote in front;
- a target is a wildcard `#'`, a symbol, a number, or a name that may go on as a path.

Blanks, commas and comments may stand between any two of these.

The readers of nested terms take the reader of their parts as an argument, and `Reader.term` ties
the knot on the depth of nesting. A text cannot be nested deeper than it is long, so its length is
depth enough. A reader that refuses leaves the cursor alone, so the place of a failure is the start
of the top level call that cannot be read.
-/

namespace LispLua

/-- Whether `c` can start a name. -/
def isInitial (c : Char) : Bool :=
  isAlphabetic c || "!$%&*/<=>?~_^+-.|".toList.contains c

/-- Whether `c` can go on with a name. -/
def isSubsequent (c : Char) : Bool :=
  isInitial c || isNumeric c

/-- Whether `c` is a blank between terms. -/
def isBlank (c : Char) : Bool :=
  c == ' ' || c == '\t' || c == '\r' || c == '\n'

/-- A token class: the part of a text, from its start, that is a token of the class. -/
abbrev Lexeme := List Char → Option (List Char)

namespace Lexeme

/-- A name: an initial character and all subsequent ones. -/
def identifier : Lexeme
  | [] => none
  | c :: cs => if isInitial c then some (c :: cs.takeWhile isSubsequent) else none

/-- A colon and at least one character of a name. -/
def symbol : Lexeme
  | ':' :: cs =>
    match cs.takeWhile isSubsequent with
    | [] => none
    | name => some (':' :: name)
  | _ => none

/-- The fraction of a number, empty unless a point is followed by a digit. -/
def fraction : List Char → List Char
  | '.' :: cs =>
    match cs.takeWhile Char.isDigit with
    | [] => []
    | digits => '.' :: digits
  | _ => []

/-- Digits and an optional fraction, not followed by a character of a name. -/
def unsigned (cs : List Char) : Option (List Char) :=
  match cs.takeWhile Char.isDigit with
  | [] => none
  | digits =>
    let text := digits ++ fraction (cs.drop digits.length)
    if (cs.drop text.length).head?.any isSubsequent then none else some text

/-- An integer or a decimal, with an optional minus sign. -/
def number : Lexeme
  | '-' :: cs => (unsigned cs).map ('-' :: ·)
  | cs => unsigned cs

/-- The rest of a string literal behind its opening quote. A backslash guards the next character. -/
def quoted : Lexeme
  | [] => none
  | '"' :: _ => some ['"']
  | ['\\'] => none
  | '\\' :: c :: cs => (quoted cs).map fun text => '\\' :: c :: text
  | c :: cs => (quoted cs).map (c :: ·)

/-- A string literal, as written. -/
def string : Lexeme
  | '"' :: cs => (quoted cs).map ('"' :: ·)
  | _ => none

/-- The reference of a function to itself. -/
def wildcard : Lexeme
  | '#' :: '\'' :: _ => some ['#', '\'']
  | _ => none

/-- A run of blanks. -/
def blanks : Lexeme
  | cs =>
    match cs.takeWhile isBlank with
    | [] => none
    | run => some run

/-- A comment up to the end of its line. A carriage return ends a line only together with a line
feed, and a comment that meets one alone is refused. -/
def comment : Lexeme
  | ';' :: cs =>
    let text := cs.takeWhile fun c => c != '\r' && c != '\n'
    match cs.drop text.length with
    | [] => some (';' :: text)
    | '\n' :: _ => some (';' :: text)
    | '\r' :: '\n' :: _ => some (';' :: text)
    | _ => none
  | _ => none

/-- A comma, which counts as a blank. -/
def comma : Lexeme
  | ',' :: _ => some [',']
  | _ => none

/-- One piece of what may stand between terms. -/
def trivium : Lexeme := fun cs =>
  blanks cs <|> comment cs <|> comma cs

end Lexeme

/-- What is left to read of a text, and where that starts. -/
structure Cursor where
  rest : List Char
  position : Position
  deriving Inhabited

namespace Cursor

/-- The start of a text. -/
def start (text : String) : Cursor :=
  ⟨text.toList, .origin⟩

/-- The cursor behind `cs`, which the rest of the text starts with. -/
def skip (c : Cursor) (cs : List Char) : Cursor :=
  ⟨c.rest.drop cs.length, c.position.after cs⟩

end Cursor

/-- A reader takes a cursor to what is read there and the cursor behind it, or refuses. -/
abbrev Reader := StateT Cursor Option

namespace Reader

/-- Where the reader stands. -/
def position : Reader Position := do
  return (← get).position

/-- Read a token of the given class. -/
def lexeme (l : Lexeme) : Reader (List Char) := fun c =>
  (l c.rest).map fun text => (text, c.skip text)

/-- Read the given character. -/
def char (x : Char) : Reader Unit := do
  let _ ← lexeme fun cs => if cs.head? = some x then some [x] else none

/-- Read the given text. -/
def literal (xs : List Char) : Reader Unit := do
  let _ ← lexeme fun cs => if xs.isPrefixOf cs then some xs else none

/-- Apply a reader again and again, at most `n` times, until it refuses. -/
def collect {α : Type} (r : Reader α) : Nat → Cursor → List α × Cursor
  | 0, c => ([], c)
  | n + 1, c =>
    match r c with
    | none => ([], c)
    | some (a, next) =>
      let (as, stop) := collect r n next
      (a :: as, stop)

/-- Apply a reader until it refuses. A reader that consumes at least one character cannot succeed
more often than there are characters left. -/
def many {α : Type} (r : Reader α) : Reader (List α) := fun c =>
  some (collect r c.rest.length c)

/-- Skip what may stand between terms. -/
def trivia : Reader Unit := do
  let _ ← many (lexeme Lexeme.trivium)

/-- Read with `r` and give the span that was read. -/
def spanned {α : Type} (r : Reader α) : Reader (α × Span) := do
  let start ← position
  let a ← r
  return (a, ⟨start, ← position⟩)

/-- Read a token of the given class with its span. -/
def token (l : Lexeme) : Reader Token := do
  let (text, span) ← spanned (lexeme l)
  return ⟨String.ofList text, span⟩

/-- The operator of a segment; the longest spelling is tried first. -/
def link : Reader Link :=
  (do literal [':', ':', '?']; return .optionalField) <|>
  (do literal [':', ':']; return .field) <|>
  (do literal [':', '?']; return .optionalMethod) <|>
  (do literal [':']; return .method)

/-- One step of a path. -/
def segment : Reader Segment := do
  let ((link, name), span) ← spanned do
    let link ← link
    return (link, ← token Lexeme.identifier)
  return ⟨link, name, span⟩

/-- A name, which may go on as a path. -/
def reference : Reader Term := do
  let ((root, segments), span) ← spanned do
    let root ← token Lexeme.identifier
    return (root, ← many segment)
  match segments with
  | [] => return .name root
  | _ => return .path ⟨root, segments, span⟩

/-- `:name`; the token keeps the name only, its span the colon too. -/
def symbol : Reader Token := do
  let (text, span) ← spanned (lexeme Lexeme.symbol)
  return ⟨String.ofList (text.drop 1), span⟩

/-- A number. -/
def number : Reader Token :=
  token Lexeme.number

/-- A string literal. -/
def string : Reader Token :=
  token Lexeme.string

/-- The wildcard. -/
def wildcard : Reader Token :=
  token Lexeme.wildcard

/-- Anything that can be called. -/
def target : Reader Term :=
  (return .wildcard (← wildcard)) <|>
  (return .symbol (← symbol)) <|>
  (return .number (← number)) <|>
  reference

/-- A call, whose arguments are read by `inner`. -/
def call (inner : Reader Term) : Reader Call := do
  let ((target, args), span) ← spanned do
    char '('
    trivia
    let target ← target
    let args ← many (do trivia; inner)
    trivia
    char ')'
    return (target, args)
  return ⟨target, args, span⟩

/-- Terms read by `inner`, each followed by trivia. -/
def terms (inner : Reader Term) : Reader (List Term) :=
  many do
    let t ← inner
    trivia
    return t

/-- A list, whose items are read by `inner`. -/
def list (inner : Reader Term) : Reader Term := do
  let (items, span) ← spanned do
    char '['
    trivia
    let items ← terms inner
    char ']'
    return items
  return .list items span

/-- The quote in front of an escaped table, if there is one. -/
def quote : Reader Bool :=
  (do char '\''; return true) <|> return false

/-- A table, whose keys and values are read by `inner`. -/
def table (inner : Reader Term) : Reader Term := do
  let ((escaped, items), span) ← spanned do
    let escaped ← quote
    char '\x7b'
    trivia
    let items ← terms inner
    char '\x7d'
    return (escaped, items)
  return .table items escaped span

/-- A term that is nested less than `depth` deep. -/
def term : Nat → Reader Term
  | 0 => failure
  | depth + 1 =>
    (return (← call (term depth)).term) <|>
    list (term depth) <|>
    table (term depth) <|>
    (return .string (← string)) <|>
    target

/-- The calls a text starts with, and the cursor where no further one can be read. -/
def program (c : Cursor) : Program × Cursor :=
  let depth := c.rest.length
  let start := (collect (lexeme Lexeme.trivium) depth c).2
  collect (do let form ← call (term depth); trivia; return form) start.rest.length start

end Reader

/-- Read a whole text. The fault lies at the first top level call that cannot be read. -/
def parse (text : String) : Except Fault Program :=
  let (forms, stop) := Reader.program (Cursor.start text)
  match stop.rest with
  | [] => .ok forms
  | c :: _ =>
    let cause := if c = '(' then Cause.malformedCall else .unexpected c
    .error ⟨cause, ⟨stop.position, stop.position.advance c⟩⟩

end LispLua
