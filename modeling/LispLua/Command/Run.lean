import LispLua.Command.Arguments
import LispLua.Command.Task

/-!
# The command

A command line is checked in a fixed order: the options themselves, the request for help, the
preset, the version of Lua, the options that exclude each other. Only then is the program read.
-/

namespace LispLua.Command

/-- What a command line asks for. Without a path the program comes from the standard input. -/
structure Plan where
  path : Option String
  output : String
  options : Options
  action : Action

/-- The end of a command: its exit code and what it prints. -/
structure Ending where
  code : Nat
  stdout : String
  stderr : String
  deriving DecidableEq, Inhabited

/-- The end of a command that is refused before anything is compiled. -/
def Ending.refused (message : String) : Ending :=
  ⟨2, "", message ++ "\n"⟩

/-- The options a preset stands for. -/
def presetOptions : Option String → Except String Options
  | none => .ok .library
  | some "module" => .ok .library
  | some "cli" => .ok .script
  | some other => .error ("Unknown preset `" ++ other ++ "`, expected cli or module")

/-- The failure of a version of Lua that is not known. -/
def targetFailure (text : String) : Failure :=
  .config ("Unknown Lua target `" ++ text ++ "`, expected one of 5.1-5.4")

/-- The version of Lua a text names. -/
def readTarget (text : String) : Except Failure Target :=
  match Target.ofString? text with
  | some target => .ok target
  | none => .error (targetFailure text)

/-- The options of code generation that a command line asks for. -/
def optionsOf (color : Bool) (a : Arguments) : Except String Options := do
  let options ← presetOptions (a.value? .preset)
  let target ← match a.value? .target with
    | none => pure options.target
    | some text => (readTarget text).mapError (Failure.display color)
  let embed := a.has .embedLibrary
  let without := a.has .omitLibrary
  if embed && without then .error "--embed-runtime and --no-runtime are mutually exclusive"
  return { options with
    target := target
    embedLibrary := embed
    omitLibrary := without
    publish := a.has .publish }

/-- The action a command line asks for. -/
def actionOf (a : Arguments) : Action :=
  if a.has .printTree then .parse
  else if a.has .printLua then .print
  else if a.has .run then .run
  else .write

/-- The path of the Lua text: the given one, or one beside the source, or a fixed one. -/
def outputOf (a : Arguments) : String :=
  match a.value? .output, a.free.head? with
  | some path, _ => path
  | none, some source => luaPath source
  | none, none => "out.lua"

/-- What a command line asks for, or the end of a command that stops before reading a program. -/
def Plan.ofArgs (color : Bool) (args : List String) : Except Ending Plan := do
  let a ← (Arguments.scan args).mapError fun e => Ending.refused e.message
  if a.has .help then throw ⟨0, usage, ""⟩
  let options ← (optionsOf color a).mapError Ending.refused
  return ⟨a.free.head?, outputOf a, options, actionOf a⟩

/-- The end of a command whose program cannot be read. -/
def unreadEnding (path : Option String) (reason : String) : Ending :=
  match path with
  | some path => .refused ("Failed to read " ++ path ++ ": " ++ reason)
  | none => .refused ("Expected a program in stdin: " ++ reason)

/-- The task of a plan, once the program is there. -/
def Plan.task (p : Plan) (program : String) : Task :=
  ⟨p.path.getD "stdin", program, p.output, p.options⟩

/-- The end of a command that came to do something. -/
def endingOf (color : Bool) : Except Failure (Option String) → Ending
  | .error f => ⟨1, "", f.display color ++ "\n"⟩
  | .ok (some text) => ⟨0, text ++ "\n", ""⟩
  | .ok none => ⟨0, "", ""⟩

/-- The program of a plan. -/
def Plan.program (p : Plan) (stdin : ByteArray) (files : Files) : Except FileError String :=
  match p.path with
  | some path => files.readText path
  | none => decodeText stdin

/-- The whole command: how it ends, and the files afterwards. -/
def run (color : Bool) (args : List String) (stdin : ByteArray) (files : Files) :
    Ending × Files :=
  match Plan.ofArgs color args with
  | .error ending => (ending, files)
  | .ok plan =>
    match plan.program stdin files with
    | .error e => (unreadEnding plan.path e.text, files)
    | .ok program =>
      let report := (plan.task program).perform plan.action files
      (endingOf color report.result, report.files)

end LispLua.Command
