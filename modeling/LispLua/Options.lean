/-! # Options of code generation -/

namespace LispLua

/-- The Lua versions code can be generated for. -/
inductive Target where
  | lua51
  | lua52
  | lua53
  | lua54
  deriving DecidableEq, Inhabited

namespace Target

/-- The version a text names. -/
def ofString? : String → Option Target
  | "5.1" => some lua51
  | "5.2" => some lua52
  | "5.3" => some lua53
  | "5.4" => some lua54
  | _ => none

/-- Whether powers are written as calls of a function, as they are before version 5.3. -/
def powerIsCall : Target → Bool
  | lua51 | lua52 => true
  | lua53 | lua54 => false

end Target

/-- The switches of code generation. -/
structure Options where
  /-- Blocks become functions that pass the arguments of their chunk on. -/
  variadic : Bool
  /-- The chunk carries a copy of the library. -/
  embedLibrary : Bool
  /-- The chunk does not load the library at all. -/
  omitLibrary : Bool
  /-- The package table is published in the global environment and not returned. -/
  publish : Bool
  target : Target
  deriving DecidableEq

namespace Options

/-- The preset for packages that other chunks load. -/
def library : Options :=
  { variadic := false, embedLibrary := false, omitLibrary := false, publish := false,
    target := .lua53 }

/-- The preset for programs that are run directly. -/
def script : Options :=
  { library with variadic := true }

instance : Inhabited Options := ⟨library⟩

end Options

end LispLua
