import LispLua.Command.Files
import LispLua.Compile
import LispLua.Term.Printer

/-!
# Tasks

What the command does with a program once it has it.
-/

namespace LispLua.Command

/-- What to do with a program. -/
inductive Action where
  /-- Show the program as it was read. -/
  | parse
  /-- Show the Lua text. -/
  | print
  /-- Write the Lua text. -/
  | write
  /-- Write the Lua text and run it. -/
  | run
  deriving DecidableEq, Inhabited

/-- A program, the name of its source, the path of its Lua text, and the options. -/
structure Task where
  source : String
  program : String
  output : String
  options : Options

/-- What comes of an action before any file is touched. -/
inductive Product where
  /-- A text to show. -/
  | shown (text : String)
  /-- A text to write. -/
  | written (text : String)

/-- The default path of the Lua text of a source: its extension is replaced. -/
def luaPath (source : String) : String :=
  let reversed := source.toList.reverse
  let extension := reversed.takeWhile (· != '.')
  match reversed.drop extension.length with
  | '.' :: front =>
    if extension.contains '/' then source ++ ".lua" else String.ofList front.reverse ++ ".lua"
  | _ => source ++ ".lua"

/-- What came of an action: a result, the events on the way, and the files afterwards. -/
structure Report (α : Type) where
  result : Except Failure α
  events : List Event
  files : Files

namespace Task

/-- The failure to write the output. -/
def writeFailure (t : Task) (e : FileError) : Failure :=
  .file ("Failed to write to " ++ t.output) e.text

/-- The part of an action that touches no files. -/
def prepare (t : Task) : Action → Except Failure Product × List Event
  | .parse =>
    match LispLua.parse t.program with
    | .ok p => (.ok (.shown (String.intercalate "\n" (p.map Call.render))), [])
    | .error f => (.error (f.failure t.program), [])
  | .print =>
    let (result, events) := compile t.program t.source t.options
    (result.map .shown, events)
  | .write | .run =>
    let (result, events) := compile t.program t.source t.options
    (result.map .written, events)

/-- Write a Lua text to the output. -/
def write (t : Task) (text : String) (events : List Event) (files : Files) : Report Unit :=
  match files.write t.output text.toUTF8 with
  | .ok files => ⟨.ok (), events ++ [.compiled t.source t.output], files⟩
  | .error e => ⟨.error (t.writeFailure e), events, files⟩

/-- The failure to run the output: there is no interpreter to run it with. -/
def noInterpreter : Failure :=
  .file "Failed to execute the lua interpreter" FileError.notFound.text

/-- Run the output. The path must lead somewhere. -/
def execute (t : Task) (files : Files) : Except Failure (Option String) :=
  match files.resolve t.output with
  | .error e => .error (.file "" e.text)
  | .ok _ => .error noInterpreter

/-- Do an action. It gives the text to show, if there is any. -/
def perform (t : Task) (action : Action) (files : Files) : Report (Option String) :=
  match t.prepare action with
  | (.error f, events) => ⟨.error f, events, files⟩
  | (.ok (.shown text), events) => ⟨.ok (some text), events, files⟩
  | (.ok (.written text), events) =>
    let report := t.write text events files
    match report.result with
    | .error f => ⟨.error f, report.events, report.files⟩
    | .ok () =>
      if action = .run then ⟨t.execute report.files, report.events, report.files⟩
      else ⟨.ok none, report.events, report.files⟩

end Task

/-- Compile one file into another, which lies beside it unless said otherwise, and give the path
written to. -/
def compileFile (source : String) (output : Option String) (options : Options) (files : Files) :
    Report String :=
  match files.readText source with
  | .error e => ⟨.error (.file ("Failed to read " ++ source) e.text), [], files⟩
  | .ok program =>
    let task : Task := ⟨source, program, output.getD (luaPath source), options⟩
    let report := task.perform .write files
    ⟨report.result.map fun _ => task.output, report.events, report.files⟩

end LispLua.Command
