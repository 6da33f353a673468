import LispLua.Generate.Term
import LispLua.Lua.Chunk
import LispLua.Report.Failure
import LispLua.Term.Reader

/-! # Compilation -/

namespace LispLua

namespace Gen

/-- The statements of a program, in order. -/
def statements (p : Program) : Gen (List Lua.Stmt) :=
  p.mapM fun c => term c.term

/-- The chunk of lowered statements. A module that is published without a name is told. -/
def chunk (statements : List Lua.Stmt) : Gen Lua.Chunk := do
  let job ← read
  let s ← get
  if job.options.publish && s.moduleName.isNone then
    log (.unnamedModule job.sourceName job.fallbackModule)
  return ⟨job.options, s.package, statements⟩

/-- The chunk of a program. A published package is reached through the name of its module, or else
through the name of the source. -/
def program (p : Program) : Gen Lua.Chunk := do
  let job ← read
  modify (·.publish job)
  chunk (← statements p)

end Gen

/-- Compile a source text, and give the events on the way. A failure carries the source, so that it
can be shown with an excerpt. -/
def compile (source sourceName : String) (options : Options) :
    Except Failure String × List Event :=
  let fail (f : Fault) : Failure := .compilation sourceName source (f.failure source)
  match parse source with
  | .error f => (.error (fail f), [.compiling sourceName])
  | .ok p =>
    let (result, s) := (Gen.program p).exec ⟨options, sourceName, source⟩ Session.start
    ((result.map Lua.Chunk.render).mapError fail, .compiling sourceName :: s.log)

end LispLua
