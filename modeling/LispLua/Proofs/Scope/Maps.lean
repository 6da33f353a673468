import LispLua.Scope.Layers
import Mathlib.Data.Finmap
import Mathlib.Data.List.ModifyLast

/-!
# Layers as finite maps

What a layered store is for: a row of finite maps, of which the innermost is written to and the
first one that has a key is read. The entries of a layer stand for a map, the latest entry of a key
for its value, and so a layered store stands for a row of maps. Every operation on the store is the
one on the maps.
-/

namespace LispLua

/-- A nonempty row of finite maps, the innermost first. -/
@[ext]
structure Maps (κ ν : Type) where
  rows : List (Finmap fun _ : κ => ν)
  rows_ne_nil : rows ≠ []

namespace Maps

variable {κ ν : Type}

/-- The outermost map and the others, the innermost of these first. -/
def ofRoot (root : Finmap fun _ : κ => ν) (inner : List (Finmap fun _ : κ => ν)) : Maps κ ν :=
  ⟨inner ++ [root], List.append_ne_nil_of_right_ne_nil _ (List.cons_ne_nil _ _)⟩

/-- One empty map. -/
def empty : Maps κ ν :=
  ofRoot ∅ []

/-- Put an empty map in front. -/
def enter (m : Maps κ ν) : Maps κ ν :=
  ⟨∅ :: m.rows, List.cons_ne_nil _ _⟩

/-- Take the innermost map away, unless it is the only one. -/
def leave (m : Maps κ ν) : Maps κ ν :=
  if h : m.rows.tail = [] then m else ⟨m.rows.tail, h⟩

/-- The outermost map. -/
def root (m : Maps κ ν) : Finmap fun _ : κ => ν :=
  m.rows.getLast m.rows_ne_nil

/-- All maps but the outermost. -/
def inner (m : Maps κ ν) : List (Finmap fun _ : κ => ν) :=
  m.rows.dropLast

theorem rows_eq (m : Maps κ ν) : m.rows = m.inner ++ [m.root] :=
  (List.dropLast_append_getLast m.rows_ne_nil).symm

theorem eq_ofRoot (m : Maps κ ν) : m = ofRoot m.root m.inner :=
  Maps.ext m.rows_eq

/-- The number of maps. -/
def depth (m : Maps κ ν) : Nat :=
  m.rows.length

section

variable (r : Finmap fun _ : κ => ν) (rows : List (Finmap fun _ : κ => ν))

@[simp] theorem root_ofRoot : (ofRoot r rows).root = r :=
  List.getLast_append_singleton _

@[simp] theorem inner_ofRoot : (ofRoot r rows).inner = rows :=
  List.dropLast_concat

@[simp] theorem depth_ofRoot : (ofRoot r rows).depth = rows.length + 1 :=
  List.length_append

@[simp] theorem enter_ofRoot : (ofRoot r rows).enter = ofRoot r (∅ :: rows) := rfl

@[simp] theorem leave_ofRoot : (ofRoot r rows).leave = ofRoot r rows.tail := by
  cases rows with
  | nil => rfl
  | cons row outer =>
    have htail : (ofRoot r (row :: outer)).rows.tail ≠ [] :=
      List.append_ne_nil_of_right_ne_nil _ (List.cons_ne_nil _ _)
    rw [leave, dif_neg htail]
    rfl

end

theorem modifyLast_ne_nil {α : Type} {l : List α} (h : l ≠ []) (f : α → α) :
    l.modifyLast f ≠ [] := by
  rw [← List.dropLast_append_getLast h, List.modifyLast_concat]
  exact List.concat_ne_nil _ _

variable [DecidableEq κ]

/-- Write into the innermost map. -/
def set (m : Maps κ ν) (key : κ) (value : ν) : Maps κ ν :=
  ⟨m.rows.modifyHead (·.insert key value), by simpa using m.rows_ne_nil⟩

/-- Write into the outermost map. -/
def setRoot (m : Maps κ ν) (key : κ) (value : ν) : Maps κ ν :=
  ⟨m.rows.modifyLast (·.insert key value), modifyLast_ne_nil m.rows_ne_nil _⟩

theorem rows_setRoot (m : Maps κ ν) (key : κ) (value : ν) :
    (m.setRoot key value).rows = m.inner ++ [m.root.insert key value] := by
  show m.rows.modifyLast (·.insert key value) = _
  rw [rows_eq m, List.modifyLast_concat]

section

variable (r : Finmap fun _ : κ => ν) (key : κ) (value : ν)

@[simp] theorem set_ofRoot_nil : (ofRoot r []).set key value = ofRoot (r.insert key value) [] := rfl

@[simp] theorem set_ofRoot_cons (row : Finmap fun _ : κ => ν)
    (outer : List (Finmap fun _ : κ => ν)) :
    (ofRoot r (row :: outer)).set key value = ofRoot r (row.insert key value :: outer) := rfl

@[simp] theorem setRoot_ofRoot (rows : List (Finmap fun _ : κ => ν)) :
    (ofRoot r rows).setRoot key value = ofRoot (r.insert key value) rows :=
  Maps.ext (List.modifyLast_concat _ _ _)

end

/-- The value in the innermost map that has the key. -/
def get? (m : Maps κ ν) (key : κ) : Option ν :=
  m.rows.findSome? (·.lookup key)

/-- The value in the outermost map. -/
def getRoot? (m : Maps κ ν) (key : κ) : Option ν :=
  m.root.lookup key

/-- Whether some map has the key. -/
def contains (m : Maps κ ν) (key : κ) : Bool :=
  (m.get? key).isSome

end Maps

variable {τ κ ν : Type} [DecidableEq κ]

/-- The map that entries stand for: the first entry of a key gives its value. -/
def Layer.mapOf (entries : List (κ × ν)) : Finmap fun _ : κ => ν :=
  entries.foldr (fun e m => m.insert e.1 e.2) ∅

@[simp] theorem Layer.mapOf_nil : mapOf ([] : List (κ × ν)) = ∅ := rfl

@[simp] theorem Layer.mapOf_cons (e : κ × ν) (entries : List (κ × ν)) :
    mapOf (e :: entries) = (mapOf entries).insert e.1 e.2 := rfl

@[simp] theorem Layer.lookup_mapOf (entries : List (κ × ν)) (key : κ) :
    (mapOf entries).lookup key = entries.lookup key := by
  induction entries with
  | nil => rfl
  | cons e entries ih =>
    obtain ⟨k, v⟩ := e
    rw [mapOf_cons, List.lookup_cons]
    by_cases h : key = k
    · rw [h, Finmap.lookup_insert, beq_self_eq_true]
    · rw [Finmap.lookup_insert_of_ne _ h, ih, beq_eq_false_iff_ne.2 h]

namespace Layers

/-- The maps that a layered store stands for. -/
def maps (l : Layers τ κ ν) : Maps κ ν :=
  .ofRoot (Layer.mapOf l.root) (l.inner.map fun layer => Layer.mapOf layer.entries)

variable (l : Layers τ κ ν)

@[simp] theorem maps_root : l.maps.root = Layer.mapOf l.root :=
  Maps.root_ofRoot _ _

theorem maps_enter (tag : τ) : (l.enter tag).maps = l.maps.enter := rfl

theorem maps_leave : l.leave.maps = l.maps.leave := by
  rw [maps, maps, Maps.leave_ofRoot, leave, List.map_tail]

theorem maps_set (key : κ) (value : ν) : (l.set key value).maps = l.maps.set key value := by
  obtain ⟨root, _ | ⟨layer, outer⟩⟩ := l
  · rfl
  · rfl

theorem maps_setRoot (key : κ) (value : ν) :
    (l.setRoot key value).maps = l.maps.setRoot key value := by
  rw [maps, maps, Maps.setRoot_ofRoot]
  rfl

theorem get?_maps (key : κ) : l.maps.get? key = l.get? key := by
  rw [Maps.get?, get?, getRoot?, maps, Maps.ofRoot, List.findSome?_append, List.findSome?_map,
    List.findSome?_singleton, Layer.lookup_mapOf, Option.orElse_eq_orElse, Option.orElse_eq_or]
  congr 2
  funext layer
  exact Layer.lookup_mapOf layer.entries key

theorem getRoot?_maps (key : κ) : l.maps.getRoot? key = l.getRoot? key := by
  rw [Maps.getRoot?, maps_root, Layer.lookup_mapOf, getRoot?]

theorem contains_maps (key : κ) : l.maps.contains key = l.contains key := by
  rw [Maps.contains, get?_maps, contains]

theorem depth_maps : l.maps.depth = l.depth := by
  rw [maps, Maps.depth_ofRoot, List.length_map, depth]

end Layers

end LispLua
