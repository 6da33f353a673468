/-!
# Arguments of the command line

Options and free arguments may be mixed. Short options can be clustered, and in a cluster the first
one that takes a value takes the rest of it, or else the next argument. Two hyphens make everything
behind them free.
-/

namespace LispLua.Command

/-- The options of the command. -/
inductive Switch where
  | output
  | printLua
  | printTree
  | run
  | preset
  | target
  | embedLibrary
  | omitLibrary
  | publish
  | help
  deriving DecidableEq, Inhabited

namespace Switch

/-- The options in the order of the help text. -/
def all : List Switch :=
  [output, printLua, printTree, run, preset, target, embedLibrary, omitLibrary, publish, help]

/-- The one letter name. -/
def short? : Switch → Option Char
  | output => some 'o'
  | printLua => some 'S'
  | printTree => some 'p'
  | run => some 'r'
  | help => some 'h'
  | _ => none

/-- The long name. -/
def long? : Switch → Option String
  | run => some "run"
  | preset => some "preset"
  | target => some "target"
  | embedLibrary => some "embed-runtime"
  | omitLibrary => some "no-runtime"
  | publish => some "global"
  | help => some "help"
  | _ => none

/-- The name an option goes by: the long one if it has one. -/
def name (s : Switch) : String :=
  match s.long?, s.short? with
  | some long, _ => long
  | none, some short => String.singleton short
  | none, none => ""

/-- Whether an option takes a value. -/
def takesValue : Switch → Bool
  | output | preset | target => true
  | _ => false

/-- The option of a one letter name. -/
def ofShort? (c : Char) : Option Switch :=
  all.find? fun s => s.short? == some c

/-- The option of a name behind two hyphens; one letter is a short name there too. -/
def ofName? (name : String) : Option Switch :=
  match name.toList with
  | [c] => if c.utf8Size = 1 then ofShort? c else all.find? fun s => s.long? == some name
  | _ => all.find? fun s => s.long? == some name

end Switch

/-- Why a command line is refused. -/
inductive ArgumentError where
  | unrecognized (name : String)
  | unexpectedValue (name : String)
  | missingValue (name : String)
  | repeated (name : String)
  deriving DecidableEq, Inhabited

/-- What a user is told about a refused command line. -/
def ArgumentError.message : ArgumentError → String
  | unrecognized name => "Unrecognized option: '" ++ name ++ "'"
  | unexpectedValue name => "Option '" ++ name ++ "' does not take an argument"
  | missingValue name => "Argument to option '" ++ name ++ "' missing"
  | repeated name => "Option '" ++ name ++ "' given more than once"

/-- An option as given, with its value if it takes one. -/
structure Given where
  switch : Switch
  value : String
  deriving DecidableEq, Inhabited

/-- What a command line gives: options in order, and free arguments in order. -/
structure Arguments where
  given : List Given
  free : List String
  deriving DecidableEq, Inhabited

/-- How an argument reads on its own. -/
inductive Word where
  /-- A free argument. -/
  | free
  /-- The end of the options. -/
  | stop
  /-- A long name, and a value behind an equals sign. -/
  | long (name : String) (value : Option String)
  /-- A cluster of short names. -/
  | cluster (letters : List Char)

/-- How an argument reads on its own. A single hyphen is a free argument. -/
def Word.ofString (arg : String) : Word :=
  match arg.toList with
  | ['-', '-'] => .stop
  | '-' :: '-' :: cs =>
    let name := cs.takeWhile (· != '=')
    .long (String.ofList name) (match cs.drop name.length with
      | _ :: value => some (String.ofList value)
      | [] => none)
  | '-' :: c :: cs => .cluster (c :: cs)
  | _ => .free

/-- An option that waits for its value, with the name it was given by. -/
structure Pending where
  switch : Switch
  name : String

/-- The options of a cluster, and the last one if its value is not in the cluster. -/
def readCluster : List Char → Except ArgumentError (List Given × Option Pending)
  | [] => .ok ([], none)
  | c :: cs =>
    match Switch.ofShort? c with
    | none => .error (.unrecognized (String.singleton c))
    | some s =>
      if s.takesValue then
        if cs.isEmpty then .ok ([], some ⟨s, String.singleton c⟩)
        else .ok ([⟨s, String.ofList cs⟩], none)
      else do
        let (given, pending) ← readCluster cs
        return (⟨s, ""⟩ :: given, pending)

/-- The option of a long name, complete or waiting for its value. -/
def readLong (name : String) (value : Option String) :
    Except ArgumentError (List Given × Option Pending) :=
  match Switch.ofName? name with
  | none => .error (.unrecognized name)
  | some s =>
    match s.takesValue, value with
    | true, some v => .ok ([⟨s, v⟩], none)
    | true, none => .ok ([], some ⟨s, name⟩)
    | false, some _ => .error (.unexpectedValue name)
    | false, none => .ok ([⟨s, ""⟩], none)

namespace Arguments

/-- Options in front of what else is given. -/
def cons (given : List Given) (a : Arguments) : Arguments :=
  { a with given := given ++ a.given }

/-- Read the arguments from left to right. An option that waits for its value takes the next
argument, whatever that looks like. -/
def read : Option Pending → List String → Except ArgumentError Arguments
  | none, [] => .ok ⟨[], []⟩
  | some p, [] => .error (.missingValue p.name)
  | some p, value :: rest => return (← read none rest).cons [⟨p.switch, value⟩]
  | none, arg :: rest =>
    match Word.ofString arg with
    | .free => do
      let a ← read none rest
      return { a with free := arg :: a.free }
    | .stop => .ok ⟨[], rest⟩
    | .long name value => do
      let (given, pending) ← readLong name value
      return (← read pending rest).cons given
    | .cluster letters => do
      let (given, pending) ← readCluster letters
      return (← read pending rest).cons given

/-- Whether an option is given. -/
def has (a : Arguments) (s : Switch) : Bool :=
  a.given.any (·.switch == s)

/-- The value of an option. -/
def value? (a : Arguments) (s : Switch) : Option String :=
  (a.given.find? (·.switch == s)).map Given.value

/-- The first option, in the order of the help text, that is given more than once. -/
def repeated? (a : Arguments) : Option Switch :=
  Switch.all.find? fun s => 1 < (a.given.filter (·.switch == s)).length

/-- What a command line gives. Every option can be given once. -/
def scan (args : List String) : Except ArgumentError Arguments := do
  let a ← read none args
  match a.repeated? with
  | some s => .error (.repeated s.name)
  | none => return a

end Arguments

/-- The help text. -/
def usage : String :=
  String.join ([
    "Usage: charonc [options] [FILE]",
    "",
    "Options:",
    "    -o FILE             Output file name",
    "    -S                  Print generated Lua",
    "    -p                  Print parse tree",
    "    -r, --run           Run the generated Lua with the lua interpreter",
    "        --preset cli|module",
    "                        Code generation preset, defaults to module",
    "        --target 5.1|5.2|5.3|5.4",
    "                        Lua version to generate code for, defaults to 5.3",
    "        --embed-runtime ",
    "                        Inline the runtime shim in the output",
    "        --no-runtime    Don't load the runtime shim at all",
    "        --global        Publish the package in the global environment",
    "    -h, --help          print this help menu"].map (· ++ "\n"))

end LispLua.Command
