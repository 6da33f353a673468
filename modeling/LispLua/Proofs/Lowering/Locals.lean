import LispLua.Proofs.Lowering.Literal
import LispLua.Proofs.Lowering.Parts

/-!
# Local names in code

The names of arguments, of bindings, of hidden functions and of imports are emitted as names of Lua
locals. The scope of a name is a matter of the text: it goes from the declaration to the end of the
block of Lua around it. A declaration may stand where Lua expects a value; the name then counts as
declared from there on.
-/

namespace LispLua

open Lua

/-- Whether a name has the form of emitted local names. -/
def isMangled (name : String) : Bool :=
  "__val_".toList.isPrefixOf name.toList

theorem isMangled_mangle (name : String) : isMangled (mangle name) = true := by
  simp [isMangled, mangle]

theorem StartsPlain.isMangled {text : String} (h : StartsPlain text) : isMangled text = false := by
  unfold LispLua.isMangled
  cases htext : text.toList with
  | nil => rfl
  | cons c cs =>
    have hc : '_' ≠ c := by
      rintro rfl
      exact h.2 (by rw [htext, List.head?_cons])
    simp [List.isPrefixOf, hc]

/-- The names that are none of those declared. -/
def unbound (declared names : List String) : List String :=
  names.filter fun name => !declared.contains name

@[simp] theorem mem_unbound {declared names : List String} {name : String} :
    name ∈ unbound declared names ↔ name ∈ names ∧ name ∉ declared := by
  simp [unbound]

namespace Lua.Code

mutual

/-- The local names that code declares for the text behind it in its block. Functions, branches and
loops keep to themselves what is declared in them. -/
def declared : Code → List String
  | bind name c | loadAs name c => c.declared ++ [name]
  | declareThen name c => name :: c.declared
  | loadMembers names _ => names.map Prod.fst
  | item c _ | paren c | run _ c | give _ c => c.declared
  | entry c d => c.declared ++ d.declared
  | list cs | table cs | record cs | lines cs | moduleNote _ cs => declaredAll cs
  | _ => []

/-- The local names that a row of code declares. -/
def declaredAll : List Code → List String
  | [] => []
  | c :: cs => c.declared ++ declaredAll cs

end

mutual

/-- The local names that code uses, as a value or as the target of an assignment, without a
declaration inside the code. -/
def free : Code → List String
  | word text => if isMangled text then [text] else []
  | quoted _ | member _ _ | symbol _ | arguments | externNote _ _ => []
  | field c _ | method c _ | item c _ | paren c | negate c | isTable c | run _ c | give _ c | load c
  | thunk _ c | bind _ c | loadAs _ c => c.free
  | declareThen name c | handler name c => unbound [name] c.free
  | loadMembers names c => unbound (names.map Prod.fst) c.free
  | closure names rest c => unbound (names ++ rest.toList) c.free
  | entry c d => c.free ++ unbound c.declared d.free
  | binary _ c d | power c d | arm c d | protect _ c d | assign c d | define c d => c.free ++ d.free
  | branch c d e => c.free ++ (d.free ++ e.free)
  | list cs | table cs | record cs | chain _ cs | every cs | lines cs | choose cs
  | moduleNote _ cs => freeAll cs
  | call c cs => c.free ++ freeAll cs
  | chooseElse cs c => freeAll cs ++ c.free
  | scope cs c => freeAll cs ++ unbound (declaredAll cs) c.free
  | count name cs ds => freeAll cs ++ unbound (name :: declaredAll cs) (freeAll ds)
  | each key value c cs => c.free ++ unbound (key :: value :: c.declared) (freeAll cs)

/-- The local names that a row of code uses; code sees what is declared in front of it. -/
def freeAll : List Code → List String
  | [] => []
  | c :: cs => c.free ++ unbound c.declared (freeAll cs)

end

variable {name : String} {c : Code} {cs : List Code}

@[simp] theorem freeAll_singleton (c : Code) : freeAll [c] = c.free := by
  simp [freeAll, unbound]

@[simp] theorem declaredAll_singleton (c : Code) : declaredAll [c] = c.declared := by
  simp [declaredAll]

theorem declaredAll_eq_flatMap (cs : List Code) : declaredAll cs = cs.flatMap declared := by
  induction cs with
  | nil => rfl
  | cons c cs ih => rw [declaredAll, ih, List.flatMap_cons]

theorem not_mem_freeAll_cons :
    name ∉ freeAll (c :: cs) ↔ name ∉ c.free ∧ (name ∉ c.declared → name ∉ freeAll cs) := by
  rw [freeAll, List.mem_append, mem_unbound, not_or, not_and, imp_not_comm]

theorem not_mem_freeAll (h : ∀ c ∈ cs, name ∉ c.free) : name ∉ freeAll cs := by
  induction cs with
  | nil => exact List.not_mem_nil
  | cons c cs ih =>
    obtain ⟨hc, hcs⟩ := List.forall_mem_cons.1 h
    exact not_mem_freeAll_cons.2 ⟨hc, fun _ => ih hcs⟩

theorem not_mem_freeAll_append {ds : List Code} (hcs : name ∉ freeAll cs)
    (hds : name ∉ declaredAll cs → name ∉ freeAll ds) : name ∉ freeAll (cs ++ ds) := by
  induction cs with
  | nil => exact hds List.not_mem_nil
  | cons c cs ih =>
    obtain ⟨hc, hrest⟩ := not_mem_freeAll_cons.1 hcs
    refine not_mem_freeAll_cons.2 ⟨hc, fun hdeclared => ih (hrest hdeclared) fun hnot => hds ?_⟩
    rw [declaredAll, List.mem_append, not_or]
    exact ⟨hdeclared, hnot⟩

/-- In a row that declares nothing, a name is free if it is so in some code. -/
theorem mem_freeAll (hdeclared : declaredAll cs = []) (hc : c ∈ cs) (hname : name ∈ c.free) :
    name ∈ freeAll cs := by
  induction cs with
  | nil => cases hc
  | cons d cs ih =>
    rw [declaredAll, List.append_eq_nil_iff] at hdeclared
    rw [freeAll, List.mem_append, mem_unbound, hdeclared.1]
    rcases List.mem_cons.1 hc with rfl | hc
    · exact .inl hname
    · exact .inr ⟨ih hdeclared.2 hc, List.not_mem_nil⟩

theorem not_mem_free_of_singleton (h : ∀ d ∈ [c], name ∉ d.free) : name ∉ c.free :=
  h c (List.mem_singleton_self c)

theorem not_mem_free_word {text : String} (h : text ≠ name) : name ∉ (word text).free := by
  rw [free]
  split
  · simpa using h.symm
  · exact List.not_mem_nil

theorem not_mem_free_of_startsPlain {text : String} (h : StartsPlain text) :
    name ∉ (word text).free := by
  simp [free, h.isMangled]

/-- What only puts code together uses no name that none of its parts uses. -/
theorem glued_not_mem_free (name : String) : Glued (name ∉ ·.free) := by
  intro c hc h
  cases c with
  | word | member | arguments | thunk | protect | handler | closure | bind | scope | count | each
  | declareThen | loadAs | loadMembers => cases hc
  | quoted | symbol | externNote => simp [free]
  | field | method | item | paren | negate | isTable | run | give | load =>
    simpa [free, parts] using h
  | list | table | record | chain | every | lines | choose | moduleNote => exact not_mem_freeAll h
  | entry | binary | power | arm | assign | define | branch =>
    simp only [parts, List.forall_mem_cons] at h
    simp [free, h]
  | call =>
    obtain ⟨hc, hcs⟩ := List.forall_mem_cons.1 h
    simp [free, hc, not_mem_freeAll hcs]
  | chooseElse =>
    obtain ⟨hcs, hc⟩ := List.forall_mem_append.1 h
    simp [free, not_mem_freeAll hcs, hc _ (List.mem_singleton_self _)]

theorem not_mem_free_giveUnit : name ∉ Gen.giveUnit.free :=
  not_mem_free_of_startsPlain (show StartsPlain "charon.Unit" by decide)

theorem declared_eq_of_part {value part : Code} (h : Session.Part value part) :
    part.declared = value.declared := by
  induction h with
  | self => rfl
  | paren => simp [declared]
  | item index _ ih => simpa [declared] using ih

end Lua.Code

end LispLua
