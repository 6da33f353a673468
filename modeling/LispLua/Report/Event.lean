import LispLua.Report.Excerpt

/-!
# Events

What happens on the way is recorded as events.
-/

namespace LispLua

/-- How much an event matters. -/
inductive Level where
  | warn
  | info
  | debug
  | trace
  deriving DecidableEq, Inhabited

/-- How a level is written. -/
def Level.text : Level → String
  | warn => "WARN"
  | info => "INFO"
  | debug => "DEBUG"
  | trace => "TRACE"

/-- What happens on the way from a source to its Lua text. -/
inductive Event where
  /-- The compilation of a source starts. -/
  | compiling (source : String)
  /-- A function gets its emitted name. -/
  | defining (surface emitted : String)
  /-- The program has a flaw that does not stop the compilation. -/
  | warning (message sourceName code : String) (span : Span)
  /-- A published package has no name of its own. -/
  | unnamedModule (source name : String)
  /-- The Lua text of a source is written. -/
  | compiled (source output : String)
  deriving DecidableEq, Inhabited

namespace Event

/-- The level of an event. -/
def level : Event → Level
  | compiling _ => .debug
  | defining .. => .trace
  | warning .. | unnamedModule .. => .warn
  | compiled .. => .info

/-- The text of an event. -/
def text : Event → String
  | compiling source => "Compiling " ++ source
  | defining surface emitted => "Defining " ++ surface ++ " as " ++ emitted
  | warning message sourceName code span =>
    message ++ "\n  at " ++ span.locate sourceName ++ "\n" ++ span.excerpt code
  | unnamedModule source name =>
    "No module name defined for the global module " ++ source ++ ", assuming \"" ++ name ++ "\""
  | compiled source output => "Compiled " ++ source ++ " into " ++ output

/-- An event as a line of a log. -/
def render (e : Event) : String :=
  e.level.text ++ " " ++ e.text

end Event

end LispLua
