import LispLua.Fault
import LispLua.Report.Excerpt
import LispLua.Report.Issue

/-!
# Failures

A `Failure` is what a user gets when something goes wrong: a fault of the program, a wrong option,
a file that cannot be read or written. A failed compilation wraps its cause together with the
source, so that it can be shown with an excerpt.
-/

namespace LispLua

/-- What a user gets when something goes wrong. -/
inductive Failure where
  | unreadable (message : String) (span : Option Span)
  | malformed (message : String) (span : Option Span)
  | unbound (name : String) (span : Option Span)
  | impure (message : String) (span : Option Span)
  | mistyped (message : String) (span : Option Span)
  | misused (message : String) (span : Option Span)
  | internal (message : String) (report : Option String) (span : Option Span)
  | config (message : String)
  | file (message reason : String)
  | execution (message : String)
  | compilation (sourceName code : String) (cause : Failure)
  deriving DecidableEq, Inhabited

namespace Failure

/-- The innermost failure, inside all compilations. -/
def cause : Failure → Failure
  | compilation _ _ cause => cause.cause
  | f => f

/-- Whether a failure is that of a compilation. -/
def isCompilation : Failure → Bool
  | compilation .. => true
  | _ => false

/-- Where the program is at fault. -/
def span? : Failure → Option Span
  | unreadable _ span | malformed _ span | unbound _ span | impure _ span | mistyped _ span
  | misused _ span | internal _ _ span => span
  | compilation _ _ cause => cause.span?
  | config _ | file .. | execution _ => none

/-- The headline of a failure. -/
def title : Failure → String
  | unreadable .. => "Failed to parse program"
  | malformed .. => "Syntax error"
  | unbound .. => "Reference error"
  | impure .. => "Purity violation"
  | mistyped .. => "Type error"
  | misused .. => "Bad macro definition"
  | internal .. => "Something went wrong!"
  | config _ => "Invalid configuration"
  | file .. => "Failed to read or write a file"
  | execution _ => "Runtime error"
  | compilation _ _ cause => cause.title

/-- What went wrong. -/
def message : Failure → String
  | unreadable message _ | malformed message _ | impure message _ | mistyped message _
  | misused message _ | internal message _ _ | config message | execution message => message
  | unbound name _ => (Cause.unbound name).message
  | file message reason => message ++ " " ++ reason
  | compilation _ _ cause => cause.message

/-- A headline, in bold red if colors are wanted. -/
def headline (color : Bool) (title : String) : String :=
  if color then "\x1b[1;31m" ++ title ++ "\x1b[0m" else title

/-- The request for a bug report that ends a text about a failure. -/
def reportLine : Failure → String
  | internal _ (some report) _ => report ++ "\n"
  | _ => ""

/-- A failure in a source, with the place and an excerpt. -/
def render (color : Bool) (sourceName code : String) (cause : Failure) : String :=
  headline color cause.title ++ ": " ++ cause.message ++ "\n" ++
    (match cause.span? with
    | some span => "  --> " ++ span.locate sourceName ++ "\n" ++ span.excerpt code ++ "\n"
    | none => "  --> " ++ sourceName ++ "\n") ++
    cause.reportLine

/-- A failure as text. -/
def display (color : Bool) : Failure → String
  | compilation sourceName code cause => render color sourceName code cause
  | f => headline color f.title ++ "\n\n" ++ f.message ++ "\n" ++ f.reportLine

end Failure

/-- What the compiler was doing when it met a cause it cannot be blamed for. -/
def Cause.context : Cause → String
  | noFunctionFor _ => "fallback macro generation"
  | _ => "generate call expression"

/-- The failure a fault amounts to, in a program with the given text. -/
def Fault.failure (code : String) (f : Fault) : Failure :=
  let message := f.cause.message
  let span := some f.span
  match f.cause.category with
  | .unreadable => .unreadable message span
  | .malformed => .malformed message span
  | .unbound name => .unbound name span
  | .impure => .impure message span
  | .mistyped => .mistyped message span
  | .misused => .misused message span
  | .internal =>
    let issue : Issue := ⟨"the code generator", f.cause.context, code, f.span⟩
    .internal message (some issue.invitation) span

end LispLua
