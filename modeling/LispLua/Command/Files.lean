import LispLua.Text.Bytes

/-!
# Files

A pure model of the files a command works on: the working directory and what lies under it. A
directory exists if a file lies under it.

A path is kept as the list of its names from the working directory. The directories above the
working directory are the paths that consist of `..` only, and a path from the root directory starts
with `/`. Of what lies outside the working directory only the usual directories of a system and its
null device are known.
-/

namespace LispLua.Command

/-- Why a file cannot be read or written. -/
inductive FileError where
  | notFound
  | notDirectory
  | isDirectory
  | nameTooLong
  | nulInName
  | notText
  deriving DecidableEq, Inhabited

/-- How the operating system describes an error. -/
def FileError.text : FileError → String
  | notFound => "No such file or directory (os error 2)"
  | notDirectory => "Not a directory (os error 20)"
  | isDirectory => "Is a directory (os error 21)"
  | nameTooLong => "File name too long (os error 36)"
  | nulInName => "file name contained an unexpected NUL byte"
  | notText => "stream did not contain valid UTF-8"

/-- Files by their path from the working directory. -/
abbrev Files := List (List String × ByteArray)

/-- What lies at a path. -/
inductive Node where
  | file (content : ByteArray)
  | directory
  /-- A device that has no content and drops what is written to it. -/
  | nullDevice

/-- The text some bytes are the UTF-8 form of. -/
def decodeText (bytes : ByteArray) : Except FileError String :=
  match String.fromUTF8? bytes with
  | some text => .ok text
  | none => .error .notText

/-- The names of a path, as they stand between its slashes. -/
def splitPath (path : String) : List String :=
  (path.toList.splitOn '/').map String.ofList

namespace Files

/-- The directories that lie in the root directory of a system. -/
def systemDirectories : List String :=
  ["bin", "boot", "dev", "etc", "home", "lib", "media", "mnt", "opt", "proc", "root", "run", "sbin",
    "srv", "sys", "tmp", "usr", "var"]

/-- Whether a path leads to a directory that exists whatever the files are. -/
def isFixed (path : List String) : Bool :=
  path.all (· == "..") ||
    match path with
    | ["/"] => true
    | ["/", name] => systemDirectories.contains name
    | _ => false

/-- The path of the null device. -/
def nullPath : List String :=
  ["/", "dev", "null"]

/-- What lies at a path. -/
def node? (files : Files) (path : List String) : Option Node :=
  match files.lookup path with
  | some content => some (.file content)
  | none =>
    if path == nullPath then some .nullDevice
    else if isFixed path || files.any (fun f => path.isPrefixOf f.1 && path != f.1) then
      some .directory
    else none

/-- The directory above a path. -/
def parent (path : List String) : List String :=
  if path == ["/"] then path
  else if path.all (· == "..") then ".." :: path
  else path.dropLast

/-- The place that names lead to from a path when all directories on the way exist. -/
def place (path names : List String) : List String :=
  names.foldl (fun path name =>
    if name = "" ∨ name = "." then path
    else if name = ".." then parent path
    else path ++ [name]) path

/-- Files from their paths in the working directory, as they are written. -/
def ofPaths (entries : List (String × ByteArray)) : Files :=
  entries.map fun (path, content) => (place [] (splitPath path), content)

/-- Follow names from a path, one after the other; each must lie in a directory. -/
def follow (files : Files) (path : List String) : List String → Except FileError (List String)
  | [] => .ok path
  | name :: names =>
    match files.node? path with
    | none => .error .notFound
    | some (.file _) | some .nullDevice => .error .notDirectory
    | some .directory =>
      if name = "" ∨ name = "." then follow files path names
      else if name = ".." then follow files (parent path) names
      else if 255 < name.utf8ByteSize then .error .nameTooLong
      else if (files.node? (path ++ [name])).isNone then .error .notFound
      else follow files (path ++ [name]) names

/-- The errors of a path that do not depend on the files. -/
def checkPath (path : String) : Except FileError Unit :=
  if path.toList.contains '\x00' then .error .nulInName
  else if path.isEmpty then .error .notFound
  else .ok ()

/-- The number of bytes from which on a path is too long to be opened. -/
def openLimit : Nat :=
  4096

/-- The errors of opening a path that do not depend on the files. -/
def checkOpen (path : String) : Except FileError Unit := do
  checkPath path
  if openLimit ≤ path.utf8ByteSize then .error .nameTooLong

/-- Where a path starts. -/
def startOf (path : String) : List String :=
  if path.toList.head? = some '/' then ["/"] else []

/-- The place a path leads to, where something must lie. It is found name by name, so the length of
the path as a whole does not matter. -/
def resolve (files : Files) (path : String) : Except FileError (List String) := do
  checkPath path
  follow files (startOf path) (splitPath path)

/-- The content of a file. -/
def read (files : Files) (path : String) : Except FileError ByteArray := do
  checkOpen path
  match files.node? (← files.resolve path) with
  | some (.file content) => return content
  | some .nullDevice => return .empty
  | some .directory => .error .isDirectory
  | none => .error .notFound

/-- The content of a file as text. -/
def readText (files : Files) (path : String) : Except FileError String := do
  decodeText (← files.read path)

/-- Put a content at a path. -/
def put (files : Files) (path : List String) (content : ByteArray) : Files :=
  (path, content) :: files.filter (·.1 != path)

/-- Write a file, which need not exist, while its directory must. -/
def write (files : Files) (path : String) (content : ByteArray) : Except FileError Files := do
  checkOpen path
  let names := splitPath path
  match names.getLast? with
  | none => .error .notFound
  | some name =>
    -- a name behind which a slash stands is that of a directory
    let front := if name = "" then (names.reverse.dropWhile (· == "")).tail.reverse
      else names.dropLast
    let directory ← follow files (startOf path) front
    match files.node? directory with
    | some .directory =>
      if name = "" ∨ name = "." ∨ name = ".." then .error .isDirectory
      else if 255 < name.utf8ByteSize then .error .nameTooLong
      else
        match files.node? (directory ++ [name]) with
        | some .directory => .error .isDirectory
        | some .nullDevice => return files
        | _ => return files.put (directory ++ [name]) content
    | some (.file _) | some .nullDevice => .error .notDirectory
    | none => .error .notFound

end Files

end LispLua.Command
