import LispLua.Text.Percent
import LispLua.Text.Position

/-!
# Bug reports

A fault that only the compiler itself can be blamed for comes with a link that opens a filled in
report.
-/

namespace LispLua

/-- What a bug report says. -/
structure Issue where
  /-- The part of the compiler that is broken. -/
  component : String
  /-- What it was doing. -/
  context : String
  /-- The program it was given. -/
  code : String
  span : Span

namespace Issue

/-- Where reports are opened. -/
def address : String :=
  "https://github.com/sigmasoldi3r/charon-lang/issues/new"

/-- The version of the compiler. -/
def version : String :=
  "0.1.0"

/-- The platform reports are made for. -/
def platform : String :=
  "linux"

/-- The title of a report. -/
def title (i : Issue) : String :=
  "[v" ++ version ++ "] Code generation fault at " ++ i.context

/-- The labels of a report. -/
def labels : String :=
  "bug,codegen"

/-- The body of a report. -/
def body (i : Issue) : String :=
  "## System information\n```\nCompiler version v" ++ version ++ "\nPlatform " ++ platform ++
    "\n```\n\nContext: " ++ i.context ++
    "\n\n## Code check\n\nCode that produced the issue:\n```clj\n" ++ i.code ++
    "\n```\n\nLocation: Line " ++ toString i.span.start.line ++ ", column " ++
    toString i.span.start.column ++ "\nStarts at `" ++ toString i.span.start.offset ++
    "` and ends at `" ++ toString i.span.stop.offset ++
    "`\n\nPlease do not hesitate to provide additional steps for reproduction.\n"

/-- The fields of the link, in order. -/
def fields (i : Issue) : List (String × String) :=
  [("title", i.title), ("labels", labels), ("body", i.body)]

/-- The query of the link. -/
def query (i : Issue) : String :=
  String.intercalate "&" (i.fields.map fun (key, value) => key ++ "=" ++ Percent.encode value)

/-- The sentence that asks for a report, with the link. -/
def invitation (i : Issue) : String :=
  "This likely indicates a bug in " ++ i.component ++ ", please open an issue here " ++ address ++
    "?" ++ i.query

end Issue

end LispLua
