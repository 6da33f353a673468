import LispLua.Proofs.Scope.Maps
import Mathlib.Data.Nat.PSub
import Mathlib.Data.PFun

/-!
# Layers in an arena

Layers can be kept as frames in one row, the root first, of which each knows the index of the one
around it. A look-up follows these indices, and to leave a layer is to cut the row. That an index
is always that of a frame, and that following them comes to an end, is not in the types. It follows
from what rows can come up: each is that of a row of finite maps, and then every frame points to the
one in front of it.

An operation on an arena has no result where it would use an index that belongs to no frame, or
where a loop would not end. The loops are therefore given by one round each, and run by `PFun.fix`
without a bound on the rounds.
-/

namespace LispLua

/-- A frame: the index of the one around it, and what it holds. -/
structure Frame (κ ν : Type) where
  parent : Option Nat
  store : Finmap fun _ : κ => ν

/-- Frames in a row, the root first, and the index of the innermost one. -/
structure Arena (κ ν : Type) where
  frames : List (Frame κ ν)
  current : Nat

namespace Arena

variable {κ ν : Type}

/-- The arena with an empty root only. -/
def empty : Arena κ ν :=
  ⟨[⟨none, ∅⟩], 0⟩

/-- Open a frame inside the current one. -/
def enter (a : Arena κ ν) : Arena κ ν :=
  ⟨a.frames ++ [⟨some a.current, ∅⟩], a.frames.length⟩

/-- The frame at an index; there is none outside of the row. -/
def frame (a : Arena κ ν) (index : Nat) : Part (Frame κ ν) :=
  a.frames[index]?

/-- Cut the current frame off; the root stays. -/
def leave (a : Arena κ ν) : Part (Arena κ ν) := do
  let frame ← a.frame a.current
  match frame.parent with
  | some parent => return ⟨a.frames.take a.current, parent⟩
  | none => return a

/-- Count a frame, and go on with the one around it. -/
def countStep (a : Arena κ ν) : Option Nat × Nat →. Nat ⊕ (Option Nat × Nat)
  | (none, n) => return .inl n
  | (some index, n) => do
    let frame ← a.frame index
    return .inr (frame.parent, n + 1)

/-- The number of frames from the current one out to the root. -/
def depth (a : Arena κ ν) : Part Nat :=
  PFun.fix a.countStep (some a.current, 0)

variable [DecidableEq κ]

/-- Write into a frame. -/
def write (a : Arena κ ν) (index : Nat) (key : κ) (value : ν) : Part (Arena κ ν) := do
  let frame ← a.frame index
  return { a with
    frames := a.frames.set index { frame with store := frame.store.insert key value } }

/-- Write into the current frame. -/
def set (a : Arena κ ν) (key : κ) (value : ν) : Part (Arena κ ν) :=
  a.write a.current key value

/-- Write into the root. -/
def setRoot (a : Arena κ ν) (key : κ) (value : ν) : Part (Arena κ ν) :=
  a.write 0 key value

/-- Look into a frame, and go on with the one around it if the key is not there. -/
def searchStep (a : Arena κ ν) (key : κ) : Option Nat →. Option ν ⊕ Option Nat
  | none => return .inl none
  | some index => do
    let frame ← a.frame index
    match frame.store.lookup key with
    | some value => return .inl (some value)
    | none => return .inr frame.parent

/-- Look up from the current frame out to the root. -/
def get? (a : Arena κ ν) (key : κ) : Part (Option ν) :=
  PFun.fix (a.searchStep key) (some a.current)

/-- Look up in the root only. -/
def getRoot? (a : Arena κ ν) (key : κ) : Part (Option ν) := do
  let frame ← a.frame 0
  return frame.store.lookup key

/-- Whether a key has a value in some frame. -/
def contains (a : Arena κ ν) (key : κ) : Part Bool := do
  return (← a.get? key).isSome

end Arena

/-! ### The arena of a row of maps -/

variable {τ κ ν : Type}

/-- The frames of maps in a row: each points to the one in front of it, and the root to none. -/
def Maps.framesOf : List (Finmap fun _ : κ => ν) → List (Frame κ ν)
  | [] => []
  | store :: rows => framesOf rows ++ [⟨rows.length.ppred, store⟩]

/-- The arena of a row of maps. -/
def Maps.arena (m : Maps κ ν) : Arena κ ν :=
  ⟨framesOf m.rows, m.rows.length - 1⟩

namespace Maps

@[simp] theorem length_framesOf (rows : List (Finmap fun _ : κ => ν)) :
    (framesOf rows).length = rows.length := by
  induction rows with
  | nil => rfl
  | cons store rows ih => simp [framesOf, ih]

/-- The frame of a map stands behind those of the maps around it. -/
theorem getElem?_framesOf (inside : List (Finmap fun _ : κ => ν)) (store : Finmap fun _ : κ => ν)
    (rows : List (Finmap fun _ : κ => ν)) :
    (framesOf (inside ++ store :: rows))[rows.length]? = some ⟨rows.length.ppred, store⟩ := by
  induction inside with
  | nil => simp [framesOf]
  | cons other inside ih =>
    rw [List.cons_append, framesOf, List.getElem?_append_left, ih]
    simp only [length_framesOf, List.length_append, List.length_cons]
    omega

/-- A write into a frame is one into its map. -/
theorem set_framesOf (inside : List (Finmap fun _ : κ => ν)) (store new : Finmap fun _ : κ => ν)
    (rows : List (Finmap fun _ : κ => ν)) :
    (framesOf (inside ++ store :: rows)).set rows.length ⟨rows.length.ppred, new⟩ =
      framesOf (inside ++ new :: rows) := by
  induction inside with
  | nil => simp [framesOf]
  | cons other inside ih =>
    rw [List.cons_append, List.cons_append, framesOf, framesOf, List.set_append_left, ih]
    · simp
    · simp only [length_framesOf, List.length_append, List.length_cons]
      omega

/-- The index of the innermost frame. -/
theorem some_current_arena (m : Maps κ ν) : some m.arena.current = m.rows.length.ppred := by
  rw [eq_comm, Nat.ppred_eq_some]
  exact Nat.succ_pred_eq_of_pos (List.length_pos_iff.2 m.rows_ne_nil)

end Maps

namespace Arena

open Maps

theorem enter_arena (m : Maps κ ν) : m.arena.enter = m.enter.arena := by
  rw [enter, some_current_arena]
  simp [arena, Maps.enter, framesOf]

/-- The frame of a map has the place that the maps around it leave it. -/
theorem frame_arena (m : Maps κ ν) (inside : List (Finmap fun _ : κ => ν))
    {rows : List (Finmap fun _ : κ => ν)} {store : Finmap fun _ : κ => ν}
    (h : m.rows = inside ++ store :: rows) :
    m.arena.frame rows.length = Part.some ⟨rows.length.ppred, store⟩ := by
  rw [frame, arena, h, getElem?_framesOf]
  rfl

theorem leave_arena (m : Maps κ ν) : m.arena.leave = Part.some m.leave.arena := by
  obtain ⟨rows, hrows⟩ := m
  match rows with
  | [] => exact absurd rfl hrows
  | [store] =>
    have hframe : (arena ⟨[store], hrows⟩).frame 0 = Part.some ⟨none, store⟩ :=
      frame_arena ⟨[store], hrows⟩ [] rfl
    show ((arena ⟨[store], hrows⟩).frame 0 >>= _) = _
    rw [hframe, Part.bind_eq_bind, Part.bind_some]
    rfl
  | store :: around :: rows =>
    have hframe : (arena ⟨store :: around :: rows, hrows⟩).frame (rows.length + 1) =
        Part.some ⟨some rows.length, store⟩ :=
      frame_arena ⟨store :: around :: rows, hrows⟩ [] rfl
    have hcut : (framesOf (store :: around :: rows)).take (rows.length + 1) =
        framesOf (around :: rows) :=
      List.take_left' (length_framesOf _)
    show ((arena ⟨store :: around :: rows, hrows⟩).frame (rows.length + 1) >>= _) = _
    rw [hframe, Part.bind_eq_bind, Part.bind_some]
    show Part.some (Arena.mk ((framesOf (store :: around :: rows)).take (rows.length + 1)) _) = _
    rw [hcut]
    rfl

/-- The loop of `depth` counts the maps. -/
theorem fix_countStep (m : Maps κ ν) (inside rows : List (Finmap fun _ : κ => ν))
    (h : m.rows = inside ++ rows) (n : Nat) :
    PFun.fix m.arena.countStep (rows.length.ppred, n) = Part.some (n + rows.length) := by
  induction rows generalizing inside n with
  | nil => exact Part.eq_some_iff.2 (PFun.fix_stop (Part.mem_some _))
  | cons store rows ih =>
    have hstep : .inr (rows.length.ppred, n + 1) ∈ m.arena.countStep (some rows.length, n) := by
      rw [countStep, frame_arena m inside h, Part.bind_eq_bind, Part.bind_some]
      exact Part.mem_some _
    rw [List.length_cons, Nat.ppred_succ, PFun.fix_fwd_eq hstep,
      ih (inside ++ [store]) (by rw [h, List.append_cons]), Nat.add_right_comm, Nat.add_assoc]

theorem depth_arena (m : Maps κ ν) : m.arena.depth = Part.some m.depth := by
  rw [depth, some_current_arena, fix_countStep m [] m.rows rfl, Nat.zero_add, Maps.depth]

variable [DecidableEq κ]

/-- The loop of `get?` finds what the innermost map with the key holds. -/
theorem fix_searchStep (m : Maps κ ν) (key : κ) (inside rows : List (Finmap fun _ : κ => ν))
    (h : m.rows = inside ++ rows) :
    PFun.fix (m.arena.searchStep key) rows.length.ppred =
      Part.some (rows.findSome? (·.lookup key)) := by
  induction rows generalizing inside with
  | nil => exact Part.eq_some_iff.2 (PFun.fix_stop (Part.mem_some _))
  | cons store rows ih =>
    have hround : m.arena.searchStep key (some rows.length) =
        match store.lookup key with
        | some value => Part.some (.inl (some value))
        | none => Part.some (.inr rows.length.ppred) := by
      rw [searchStep, frame_arena m inside h, Part.bind_eq_bind, Part.bind_some]
      rfl
    rw [List.length_cons, Nat.ppred_succ, List.findSome?_cons]
    cases hstore : store.lookup key with
    | some value =>
      rw [hstore] at hround
      exact Part.eq_some_iff.2 (PFun.fix_stop (hround ▸ Part.mem_some _))
    | none =>
      rw [hstore] at hround
      have hstep : .inr rows.length.ppred ∈ m.arena.searchStep key (some rows.length) :=
        hround ▸ Part.mem_some _
      rw [PFun.fix_fwd_eq hstep]
      exact ih (inside ++ [store]) (by rw [h, List.append_cons])

theorem get?_arena (m : Maps κ ν) (key : κ) : m.arena.get? key = Part.some (m.get? key) := by
  rw [get?, some_current_arena, fix_searchStep m key [] m.rows rfl, Maps.get?]

theorem contains_arena (m : Maps κ ν) (key : κ) :
    m.arena.contains key = Part.some (m.contains key) := by
  rw [contains, get?_arena, Part.bind_eq_bind, Part.bind_some]
  rfl

theorem getRoot?_arena (m : Maps κ ν) (key : κ) :
    m.arena.getRoot? key = Part.some (m.getRoot? key) := by
  have hframe : m.arena.frame 0 = Part.some ⟨none, m.root⟩ := frame_arena m m.inner (rows_eq m)
  rw [getRoot?, hframe, Part.bind_eq_bind, Part.bind_some]
  rfl

/-- A write into a frame, by the maps inside and around its own. -/
theorem write_arena (m : Maps κ ν) (inside rows : List (Finmap fun _ : κ => ν))
    (store : Finmap fun _ : κ => ν) (h : m.rows = inside ++ store :: rows) (key : κ) (value : ν) :
    m.arena.write rows.length key value =
      Part.some ⟨framesOf (inside ++ store.insert key value :: rows), m.rows.length - 1⟩ := by
  rw [write, frame_arena m inside h, Part.bind_eq_bind, Part.bind_some, arena, h]
  show Part.some (Arena.mk ((framesOf (inside ++ store :: rows)).set rows.length _) _) = _
  rw [set_framesOf]

theorem set_arena (m : Maps κ ν) (key : κ) (value : ν) :
    m.arena.set key value = Part.some (m.set key value).arena := by
  obtain ⟨rows, hrows⟩ := m
  cases rows with
  | nil => exact absurd rfl hrows
  | cons store rows => exact write_arena ⟨store :: rows, hrows⟩ [] rows store rfl key value

theorem setRoot_arena (m : Maps κ ν) (key : κ) (value : ν) :
    m.arena.setRoot key value = Part.some (m.setRoot key value).arena := by
  have hwrite := write_arena m m.inner [] m.root (rows_eq m) key value
  rw [List.length_nil] at hwrite
  rw [setRoot, hwrite, arena, rows_setRoot, rows_eq m]
  simp

end Arena

/-! ### Actions and answers -/

namespace Scoping

/-- What can be done with layers. A layer is opened with a tag, which plays no part in look-ups. -/
inductive Action (τ κ ν : Type) where
  | enter (tag : τ)
  | leave
  | set (key : κ) (value : ν)
  | setRoot (key : κ) (value : ν)
  | get (key : κ)
  | getRoot (key : κ)
  | contains (key : κ)
  | depth

/-- What comes back. -/
inductive Answer (ν : Type) where
  | done
  | found (value : Option ν)
  | holds (yes : Bool)
  | count (n : Nat)

variable {σ σ' : Type}

/-- The answers to actions in a row. -/
def answers (step : σ → Action τ κ ν → Answer ν × σ) : σ → List (Action τ κ ν) → List (Answer ν)
  | _, [] => []
  | s, a :: as => (step s a).1 :: answers step (step s a).2 as

/-- The answers to actions in a row, each of which can fail to give one. -/
def answersOf (step : σ → Action τ κ ν → Part (Answer ν × σ)) :
    σ → List (Action τ κ ν) → Part (List (Answer ν))
  | _, [] => return []
  | s, a :: as => do
    let (answer, s') ← step s a
    return answer :: (← answersOf step s' as)

/-- Two stores give the same answers if every action on one is the same action on the other. -/
theorem answers_eq {step : σ → Action τ κ ν → Answer ν × σ}
    {step' : σ' → Action τ κ ν → Answer ν × σ'} {view : σ → σ'}
    (h : ∀ s a, step' (view s) a = ((step s a).1, view (step s a).2)) (s : σ)
    (as : List (Action τ κ ν)) : answers step' (view s) as = answers step s as := by
  induction as generalizing s with
  | nil => rfl
  | cons a as ih => rw [answers, answers, h, ih]

theorem answersOf_eq {step : σ → Action τ κ ν → Answer ν × σ}
    {step' : σ' → Action τ κ ν → Part (Answer ν × σ')} {view : σ → σ'}
    (h : ∀ s a, step' (view s) a = Part.some ((step s a).1, view (step s a).2)) (s : σ)
    (as : List (Action τ κ ν)) : answersOf step' (view s) as = Part.some (answers step s as) := by
  induction as generalizing s with
  | nil => rfl
  | cons a as ih =>
    rw [answers, answersOf, h, Part.bind_eq_bind, Part.bind_some]
    show (answersOf step' (view (step s a).2) as >>= _) = _
    rw [ih, Part.bind_eq_bind, Part.bind_some]
    rfl

end Scoping

open Scoping

variable [DecidableEq κ]

/-- An action on a row of maps. -/
def Maps.perform (m : Maps κ ν) : Action τ κ ν → Answer ν × Maps κ ν
  | .enter _ => (.done, m.enter)
  | .leave => (.done, m.leave)
  | .set key value => (.done, m.set key value)
  | .setRoot key value => (.done, m.setRoot key value)
  | .get key => (.found (m.get? key), m)
  | .getRoot key => (.found (m.getRoot? key), m)
  | .contains key => (.holds (m.contains key), m)
  | .depth => (.count m.depth, m)

/-- An action on a layered store. -/
def Layers.perform (l : Layers τ κ ν) : Action τ κ ν → Answer ν × Layers τ κ ν
  | .enter tag => (.done, l.enter tag)
  | .leave => (.done, l.leave)
  | .set key value => (.done, l.set key value)
  | .setRoot key value => (.done, l.setRoot key value)
  | .get key => (.found (l.get? key), l)
  | .getRoot key => (.found (l.getRoot? key), l)
  | .contains key => (.holds (l.contains key), l)
  | .depth => (.count l.depth, l)

/-- An action on an arena. -/
def Arena.perform (a : Arena κ ν) : Action τ κ ν → Part (Answer ν × Arena κ ν)
  | .enter _ => return (.done, a.enter)
  | .leave => do return (.done, ← a.leave)
  | .set key value => do return (.done, ← a.set key value)
  | .setRoot key value => do return (.done, ← a.setRoot key value)
  | .get key => do return (.found (← a.get? key), a)
  | .getRoot key => do return (.found (← a.getRoot? key), a)
  | .contains key => do return (.holds (← a.contains key), a)
  | .depth => do return (.count (← a.depth), a)

/-- An action on layers is the one on their maps. -/
theorem Layers.maps_perform (l : Layers τ κ ν) (a : Action τ κ ν) :
    l.maps.perform a = ((l.perform a).1, (l.perform a).2.maps) := by
  cases a with
  | enter tag => rfl
  | leave => rw [Maps.perform, ← maps_leave]; rfl
  | set key value => rw [Maps.perform, ← maps_set]; rfl
  | setRoot key value => rw [Maps.perform, ← maps_setRoot]; rfl
  | get key => rw [Maps.perform, get?_maps]; rfl
  | getRoot key => rw [Maps.perform, getRoot?_maps]; rfl
  | contains key => rw [Maps.perform, contains_maps]; rfl
  | depth => rw [Maps.perform, depth_maps]; rfl

/-- An action on the arena of maps is the one on the maps, and never fails. -/
theorem Arena.perform_arena (m : Maps κ ν) (a : Action τ κ ν) :
    m.arena.perform a = Part.some ((m.perform a).1, (m.perform a).2.arena) := by
  cases a with
  | enter tag => rw [perform, enter_arena]; rfl
  | leave => rw [perform, leave_arena, Part.bind_eq_bind, Part.bind_some]; rfl
  | set key value => rw [perform, set_arena, Part.bind_eq_bind, Part.bind_some]; rfl
  | setRoot key value => rw [perform, setRoot_arena, Part.bind_eq_bind, Part.bind_some]; rfl
  | get key => rw [perform, get?_arena, Part.bind_eq_bind, Part.bind_some]; rfl
  | getRoot key => rw [perform, getRoot?_arena, Part.bind_eq_bind, Part.bind_some]; rfl
  | contains key => rw [perform, contains_arena, Part.bind_eq_bind, Part.bind_some]; rfl
  | depth => rw [perform, depth_arena, Part.bind_eq_bind, Part.bind_some]; rfl

/-! ### What a layer leaves behind -/

namespace Scoping

/-- Whether an action neither opens nor closes a layer. -/
def Action.staysInside : Action τ κ ν → Bool
  | .enter _ | .leave => false
  | _ => true

/-- The key that an action writes into the root from wherever it is made. -/
def Action.rootKey? : Action τ κ ν → Option κ
  | .setRoot key _ => some key
  | _ => none

/-- Actions that leave the layers they enter and no others. -/
inductive Balanced : List (Action τ κ ν) → Prop
  | nil : Balanced []
  | cons {a : Action τ κ ν} {as : List (Action τ κ ν)} :
      a.staysInside = true → Balanced as → Balanced (a :: as)
  | layer (tag : τ) {as bs : List (Action τ κ ν)} :
      Balanced as → Balanced bs → Balanced (.enter tag :: (as ++ .leave :: bs))

/-- A layer around actions. -/
def around (tag : τ) (as : List (Action τ κ ν)) : List (Action τ κ ν) :=
  .enter tag :: (as ++ [.leave])

end Scoping

/-- The layers behind actions in a row. -/
def Layers.after (l : Layers τ κ ν) (as : List (Action τ κ ν)) : Layers τ κ ν :=
  as.foldl (fun l a => (l.perform a).2) l

/-- The arena behind actions in a row. -/
def Arena.after (a : Arena κ ν) (as : List (Action τ κ ν)) : Part (Arena κ ν) :=
  as.foldlM (fun a action => do return (← a.perform action).2) a

theorem Arena.after_arena (l : Layers τ κ ν) (as : List (Action τ κ ν)) :
    l.maps.arena.after as = Part.some (l.after as).maps.arena := by
  induction as generalizing l with
  | nil => rfl
  | cons a as ih =>
    rw [after, List.foldlM_cons, perform_arena, Layers.maps_perform, Part.bind_eq_bind,
      Part.bind_eq_bind, Part.bind_some]
    show (Part.some (l.perform a).2.maps.arena).bind _ = _
    rw [Part.bind_some]
    exact ih (l.perform a).2

namespace Layers

theorem after_cons (l : Layers τ κ ν) (a : Action τ κ ν) (as : List (Action τ κ ν)) :
    l.after (a :: as) = (l.perform a).2.after as := rfl

theorem after_append (l : Layers τ κ ν) (as bs : List (Action τ κ ν)) :
    l.after (as ++ bs) = (l.after as).after bs :=
  List.foldl_append

/-- Inside a layer only this layer has changed, and in the root only certain keys. -/
structure Kept (keys : List κ) (l l' : Layers τ κ ν) : Prop where
  length_eq : l'.inner.length = l.inner.length
  outer : l'.inner.tail = l.inner.tail
  root (key : κ) : key ∉ keys → l'.getRoot? key = l.getRoot? key

namespace Kept

variable {keys more : List κ} {l l' l'' : Layers τ κ ν}

theorem refl (keys : List κ) (l : Layers τ κ ν) : Kept keys l l :=
  ⟨rfl, rfl, fun _ _ => rfl⟩

theorem trans (h : Kept keys l l') (h' : Kept keys l' l'') : Kept keys l l'' :=
  ⟨h'.length_eq.trans h.length_eq, h'.outer.trans h.outer,
    fun key hkey => (h'.root key hkey).trans (h.root key hkey)⟩

theorem mono (h : Kept keys l l') (hsub : keys ⊆ more) : Kept more l l' :=
  ⟨h.length_eq, h.outer, fun key hkey => h.root key fun hmem => hkey (hsub hmem)⟩

theorem inner_ne_nil (h : Kept keys l l') (hl : l.inner ≠ []) : l'.inner ≠ [] := by
  rw [← List.length_pos_iff, h.length_eq, List.length_pos_iff]
  exact hl

/-- Behind a layer all layers around it are as they were. -/
theorem inner_leave {tag : τ} (h : Kept keys (l.enter tag) l') : l'.leave.inner = l.inner :=
  h.outer

end Kept

/-- An action that stays inside a layer writes into it, or into the root. -/
theorem kept_perform {l : Layers τ κ ν} (hl : l.inner ≠ []) {a : Action τ κ ν}
    (ha : a.staysInside = true) : Kept a.rootKey?.toList l (l.perform a).2 := by
  obtain ⟨root, inner⟩ := l
  cases inner with
  | nil => exact absurd rfl hl
  | cons layer outer =>
    cases a with
    | enter tag => cases ha
    | leave => cases ha
    | set key value => exact ⟨rfl, rfl, fun _ _ => rfl⟩
    | setRoot key value =>
      refine ⟨rfl, rfl, fun other hother => ?_⟩
      have hne : other ≠ key := by simpa [Action.rootKey?] using hother
      exact getRoot?_setRoot_of_ne _ value hne
    | get key => exact .refl _ _
    | getRoot key => exact .refl _ _
    | contains key => exact .refl _ _
    | depth => exact .refl _ _

/-- Inside a layer, balanced actions write into that layer, or into the root. -/
theorem kept_after {l : Layers τ κ ν} (hl : l.inner ≠ []) {as : List (Action τ κ ν)}
    (has : Balanced as) : Kept (as.filterMap Action.rootKey?) l (l.after as) := by
  induction has generalizing l with
  | nil => exact .refl _ l
  | @cons a as ha _ ih =>
    have hfirst := kept_perform hl ha
    rw [after_cons]
    refine .trans (hfirst.mono ?_) ((ih (hfirst.inner_ne_nil hl)).mono ?_)
    · intro key hkey
      exact List.mem_filterMap.2 ⟨a, List.mem_cons_self, Option.mem_toList.1 hkey⟩
    · exact List.filterMap_subset _ (List.subset_cons_self _ _)
  | @layer tag as bs _ _ ihas ihbs =>
    -- The layer in between is gone behind its end, so that only the root can have changed.
    have hinside := ihas (l := l.enter tag) (List.cons_ne_nil _ _)
    have hlayer : Kept (as.filterMap Action.rootKey?) l ((l.enter tag).after as).leave :=
      ⟨by rw [hinside.inner_leave], by rw [hinside.inner_leave], hinside.root⟩
    have hrest := ihbs (hlayer.inner_ne_nil hl)
    rw [after_cons, after_append, after_cons]
    refine .trans (hlayer.mono ?_) (hrest.mono ?_)
    · exact List.filterMap_subset _ fun a ha => by simp [ha]
    · exact List.filterMap_subset _ fun a ha => by simp [ha]

/-- A layer with balanced actions in it changes no look-up, but those of keys it writes into the
root. -/
theorem restored_around (l : Layers τ κ ν) (tag : τ) {as : List (Action τ κ ν)}
    (has : Balanced as) {key : κ} (hkey : key ∉ as.filterMap Action.rootKey?) :
    (l.after (around tag as)).get? key = l.get? key ∧
      (l.after (around tag as)).getRoot? key = l.getRoot? key ∧
      (l.after (around tag as)).contains key = l.contains key ∧
      (l.after (around tag as)).depth = l.depth := by
  have hinside := kept_after (l := l.enter tag) (List.cons_ne_nil _ _) has
  have hroot : ((l.enter tag).after as).leave.getRoot? key = l.getRoot? key :=
    hinside.root key hkey
  have hafter : l.after (around tag as) = ((l.enter tag).after as).leave := by
    rw [around, after_cons, after_append]
    rfl
  rw [hafter, contains, contains, get?, get?, depth, depth, hinside.inner_leave, hroot]
  exact ⟨rfl, rfl, rfl, rfl⟩

end Layers

/-- A layered store answers every row of actions as a nonempty row of finite maps does. So do frames
in an arena: no index is ever out of bounds, and the loops come to an end. In both of them a layer
with balanced actions in it changes no look-up, but those of keys written into the root. -/
theorem layered_stores_agree :
    (∀ as : List (Action τ κ ν),
      answers Layers.perform .empty as = answers Maps.perform .empty as ∧
      answersOf Arena.perform .empty as = Part.some (answers Maps.perform .empty as)) ∧
    ∀ (tag : τ) (as : List (Action τ κ ν)) (key : κ),
      Balanced as → key ∉ as.filterMap Action.rootKey? →
      (∀ l : Layers τ κ ν,
        (l.after (around tag as)).get? key = l.get? key ∧
        (l.after (around tag as)).getRoot? key = l.getRoot? key ∧
        (l.after (around tag as)).contains key = l.contains key ∧
        (l.after (around tag as)).depth = l.depth) ∧
      ∀ before : List (Action τ κ ν), ∃ a a',
        Arena.empty.after before = Part.some a ∧
        Arena.empty.after (before ++ around tag as) = Part.some a' ∧
        a'.get? key = a.get? key ∧ a'.getRoot? key = a.getRoot? key ∧
        a'.contains key = a.contains key ∧ a'.depth = a.depth := by
  refine ⟨fun as => ⟨?_, ?_⟩, fun tag as key has hkey => ⟨fun l => ?_, fun before => ?_⟩⟩
  · exact (answers_eq Layers.maps_perform .empty as).symm
  · exact answersOf_eq Arena.perform_arena .empty as
  · exact l.restored_around tag has hkey
  · let l := (Layers.empty : Layers τ κ ν).after before
    obtain ⟨hget, hroot, hcontains, hdepth⟩ := l.restored_around tag has hkey
    refine ⟨l.maps.arena, (l.after (around tag as)).maps.arena,
      Arena.after_arena .empty before, ?_, ?_, ?_, ?_, ?_⟩
    · rw [← Layers.after_append]
      exact Arena.after_arena .empty _
    · rw [Arena.get?_arena, Arena.get?_arena, Layers.get?_maps, Layers.get?_maps, hget]
    · rw [Arena.getRoot?_arena, Arena.getRoot?_arena, Layers.getRoot?_maps, Layers.getRoot?_maps,
        hroot]
    · rw [Arena.contains_arena, Arena.contains_arena, Layers.contains_maps, Layers.contains_maps,
        hcontains]
    · rw [Arena.depth_arena, Arena.depth_arena, Layers.depth_maps, Layers.depth_maps, hdepth]

/-- A layer inside another one, in which a name is hidden and another written into the root. -/
theorem layered_stores_agree_nested :
    let before : List (Action Unit String Nat) := [.set "x" 1, .enter ()]
    let as : List (Action Unit String Nat) :=
      [.set "x" 2, .enter (), .setRoot "y" 3, .set "x" 4, .leave, .get "x"]
    Balanced as ∧ "x" ∉ as.filterMap Action.rootKey? ∧
      (Layers.empty.after (before ++ around () as)).get? "x" = some 1 ∧
      ∃ a a', Arena.empty.after before = Part.some a ∧
        Arena.empty.after (before ++ around () as) = Part.some a' ∧
        a'.get? "x" = a.get? "x" ∧ a'.getRoot? "x" = a.getRoot? "x" ∧
        a'.contains "x" = a.contains "x" ∧ a'.depth = a.depth := by
  intro before as
  have has : Balanced as :=
    .cons rfl (.layer () (.cons rfl (.cons rfl .nil)) (.cons rfl .nil))
  have hkey : "x" ∉ as.filterMap Action.rootKey? := by decide
  obtain ⟨hlayers, harena⟩ := layered_stores_agree.2 () as "x" has hkey
  refine ⟨has, hkey, ?_, harena before⟩
  rw [Layers.after_append, (hlayers (Layers.empty.after before)).1]
  rfl

end LispLua
