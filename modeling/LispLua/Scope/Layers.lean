/-!
# Layered stores

A store of values under keys, in layers. A look-up goes from the innermost layer out to the root;
writes touch the innermost layer or the root only. The root is never left.

The root is a field of its own, so a store without layers cannot be built, and a tag belongs to its
layer, so tags and layers cannot get out of step.
-/

namespace LispLua

/-- One layer: a tag, and the entries in the order of their writing, the latest first. -/
structure Layer (τ κ ν : Type) where
  tag : τ
  entries : List (κ × ν)

/-- A layered store: the root and the layers opened in it, the innermost first. -/
structure Layers (τ κ ν : Type) where
  root : List (κ × ν)
  inner : List (Layer τ κ ν)

namespace Layers

variable {τ κ ν : Type}

/-- The store with an empty root only. -/
def empty : Layers τ κ ν :=
  ⟨[], []⟩

instance : Inhabited (Layers τ κ ν) := ⟨empty⟩

/-- Open a layer. -/
def enter (l : Layers τ κ ν) (tag : τ) : Layers τ κ ν :=
  { l with inner := ⟨tag, []⟩ :: l.inner }

/-- Close the innermost layer; the root stays. -/
def leave (l : Layers τ κ ν) : Layers τ κ ν :=
  { l with inner := l.inner.tail }

/-- The number of layers, the root included. -/
def depth (l : Layers τ κ ν) : Nat :=
  l.inner.length + 1

/-- The tag of the innermost layer; the root has none. -/
def tag? (l : Layers τ κ ν) : Option τ :=
  l.inner.head?.map Layer.tag

/-- Write into the innermost layer. -/
def set (l : Layers τ κ ν) (key : κ) (value : ν) : Layers τ κ ν :=
  match l.inner with
  | [] => { l with root := (key, value) :: l.root }
  | layer :: outer =>
    { l with inner := { layer with entries := (key, value) :: layer.entries } :: outer }

/-- Write into the root. -/
def setRoot (l : Layers τ κ ν) (key : κ) (value : ν) : Layers τ κ ν :=
  { l with root := (key, value) :: l.root }

@[simp] theorem leave_enter (l : Layers τ κ ν) (tag : τ) : (l.enter tag).leave = l := rfl

@[simp] theorem depth_enter (l : Layers τ κ ν) (tag : τ) : (l.enter tag).depth = l.depth + 1 := rfl

@[simp] theorem tag?_enter (l : Layers τ κ ν) (tag : τ) : (l.enter tag).tag? = some tag := rfl

variable [BEq κ]

/-- Look up in the root only. -/
def getRoot? (l : Layers τ κ ν) (key : κ) : Option ν :=
  l.root.lookup key

/-- Look up from the innermost layer out to the root; the first value found counts. -/
def get? (l : Layers τ κ ν) (key : κ) : Option ν :=
  (l.inner.findSome? fun layer => layer.entries.lookup key) <|> l.getRoot? key

/-- Whether a key has a value in some layer. -/
def contains (l : Layers τ κ ν) (key : κ) : Bool :=
  (l.get? key).isSome

@[simp] theorem get?_enter (l : Layers τ κ ν) (tag : τ) (key : κ) :
    (l.enter tag).get? key = l.get? key := by
  simp [get?, enter, getRoot?, List.findSome?_cons]

theorem get?_set_self [LawfulBEq κ] (l : Layers τ κ ν) (key : κ) (value : ν) :
    (l.set key value).get? key = some value := by
  rcases l with ⟨root, _ | ⟨layer, outer⟩⟩ <;> simp [set, get?, getRoot?]

theorem get?_set_of_ne [LawfulBEq κ] (l : Layers τ κ ν) {key other : κ} (value : ν)
    (h : other ≠ key) : (l.set key value).get? other = l.get? other := by
  have hb : (other == key) = false := beq_eq_false_iff_ne.2 h
  rcases l with ⟨root, _ | ⟨layer, outer⟩⟩ <;>
    simp [set, get?, getRoot?, List.findSome?_cons, List.lookup_cons, hb]

theorem getRoot?_setRoot_self [LawfulBEq κ] (l : Layers τ κ ν) (key : κ) (value : ν) :
    (l.setRoot key value).getRoot? key = some value := by
  simp [setRoot, getRoot?]

theorem getRoot?_setRoot_of_ne [LawfulBEq κ] (l : Layers τ κ ν) {key other : κ} (value : ν)
    (h : other ≠ key) : (l.setRoot key value).getRoot? other = l.getRoot? other := by
  have hb : (other == key) = false := beq_eq_false_iff_ne.2 h
  simp [setRoot, getRoot?, List.lookup_cons, hb]

end Layers

end LispLua
