import LispLua.Command.Run

/-!
# The program

The outer layer of the command: it reads the program, prints, and writes the Lua text. All decisions
are made by `LispLua.Command`.
-/

namespace LispLua

/-- How an error of the operating system is described. -/
def describeError : IO.Error → String
  | .noFileOrDirectory .. => Command.FileError.notFound.text
  | .inappropriateType _ 20 _ => Command.FileError.notDirectory.text
  | .inappropriateType _ 21 _ => Command.FileError.isDirectory.text
  | e => toString e

/-- Run an action of the operating system, and describe its error. -/
def attempt {α : Type} (action : IO α) : IO (Except String α) := do
  try return .ok (← action) catch e => return .error (describeError e)

/-- Read the program a plan asks for. -/
def readProgram (plan : Command.Plan) : IO (Except String String) := do
  let bytes ← attempt (match plan.path with
    | some path => IO.FS.readBinFile path
    | none => do (← IO.getStdin).readBinToEnd)
  return do (Command.decodeText (← bytes)).mapError Command.FileError.text

/-- Do what a plan asks for with a program. -/
def perform (plan : Command.Plan) (program : String) : IO (Except Failure (Option String)) := do
  let task := plan.task program
  match (task.prepare plan.action).1 with
  | .error f => return .error f
  | .ok (.shown text) => return .ok (some text)
  | .ok (.written text) =>
    match ← attempt (IO.FS.writeFile task.output text) with
    | .error reason => return .error (.file ("Failed to write to " ++ task.output) reason)
    | .ok () => return if plan.action = .run then .error Command.Task.noInterpreter else .ok none

/-- Print the end of a command and give its exit code. -/
def finish (ending : Command.Ending) : IO UInt32 := do
  (← IO.getStdout).putStr ending.stdout
  (← IO.getStderr).putStr ending.stderr
  return UInt32.ofNat ending.code

end LispLua

open LispLua in
/-- The command line. -/
def main (args : List String) : IO UInt32 := do
  match Command.Plan.ofArgs false args with
  | .error ending => finish ending
  | .ok plan =>
    match ← readProgram plan with
    | .error reason => finish (Command.unreadEnding plan.path reason)
    | .ok program => finish (Command.endingOf false (← perform plan program))
