import LispLua.Command.Files
import Mathlib.Data.List.Basic

/-!
# What a write does to the files

A write that succeeds puts its content where the path leads to, and nothing else changes. The null
device drops what is written to it.
-/

namespace LispLua.Command.Files

/-- A content has been stored: the path leads to a place that holds it, and all other places hold what
they held before. -/
structure Stored (before after : Files) (path : String) (content : ByteArray)
    (place : List String) : Prop where
  resolve : after.resolve path = .ok place
  lookup_self : after.lookup place = some content
  lookup_of_ne : ∀ {other}, other ≠ place → after.lookup other = before.lookup other

/-- Wherever a directory is it stays, and where anything lies something lies afterwards. -/
structure Keeps (before after : Files) : Prop where
  directory : ∀ {path}, before.node? path = some .directory → after.node? path = some .directory
  isSome : ∀ {path}, (before.node? path).isSome → (after.node? path).isSome

variable {files after : Files} {path : List String} {content : ByteArray}

/-! ### Putting a content at a place -/

theorem lookup_put_self : (files.put path content).lookup path = some content := by
  rw [put, List.lookup_cons_self]

theorem lookup_put_of_ne {other : List String} (h : other ≠ path) :
    (files.put path content).lookup other = files.lookup other := by
  rw [put, List.lookup_cons, beq_false_of_ne h]
  show List.lookup other (files.filter fun f => f.1 != path) = _
  induction files with
  | nil => rfl
  | cons f files ih =>
    by_cases hf : f.1 = path
    · have hne : (other == f.1) = false := beq_false_of_ne (hf ▸ h)
      rw [List.filter_cons_of_neg (by simp [hf]), ih, List.lookup_cons, hne]
    · rw [List.filter_cons_of_pos (by simp [hf]), List.lookup_cons, List.lookup_cons, ih]

/-! ### What lies at a path -/

/-- Whether a path leads to a directory, unless a file or a device lies there. -/
def isAbove (files : Files) (path : List String) : Bool :=
  isFixed path || files.any fun f => path.isPrefixOf f.1 && path != f.1

theorem node?_of_some (h : files.lookup path = some content) :
    files.node? path = some (.file content) := by
  rw [node?, h]

theorem node?_of_none (h : files.lookup path = none) :
    files.node? path =
      if path = nullPath then some .nullDevice
      else if files.isAbove path = true then some .directory else none := by
  rw [node?, h]
  simp only [beq_iff_eq]
  rfl

theorem node?_eq_directory_iff :
    files.node? path = some .directory ↔
      files.lookup path = none ∧ path ≠ nullPath ∧ files.isAbove path = true := by
  cases hlookup : files.lookup path with
  | some content => simp [node?_of_some hlookup]
  | none =>
    rw [node?_of_none hlookup]
    by_cases hnull : path = nullPath <;> simp [hnull]

theorem isSome_node?_iff :
    (files.node? path).isSome ↔
      (files.lookup path).isSome ∨ path = nullPath ∨ files.isAbove path = true := by
  cases hlookup : files.lookup path with
  | some content => simp [node?_of_some hlookup]
  | none =>
    rw [node?_of_none hlookup]
    by_cases hnull : path = nullPath
    · simp [hnull]
    · by_cases habove : files.isAbove path = true <;> simp [hnull, habove]

theorem eq_nullPath_of_node? (h : files.node? path = some .nullDevice) : path = nullPath := by
  by_contra hnull
  cases hlookup : files.lookup path with
  | some content => simp [node?_of_some hlookup] at h
  | none => simp [node?_of_none hlookup, hnull] at h

/-- What lies above a file is a directory, whichever file that is. -/
theorem isAbove_put {p : List String} (h : files.isAbove p = true) :
    (files.put path content).isAbove p = true := by
  rw [isAbove, Bool.or_eq_true] at h ⊢
  refine h.imp_right fun h => ?_
  obtain ⟨f, hf, hp⟩ := List.any_eq_true.1 h
  by_cases hpath : f.1 = path
  · refine List.any_eq_true.2 ⟨(path, content), List.mem_cons_self, ?_⟩
    rwa [← hpath]
  · refine List.any_eq_true.2 ⟨f, List.mem_cons_of_mem _ (List.mem_filter.2 ⟨hf, ?_⟩), hp⟩
    simpa using hpath

theorem keeps_put (h : files.node? path ≠ some .directory) :
    files.Keeps (files.put path content) := by
  constructor
  · intro p hp
    have hne : p ≠ path := by
      rintro rfl
      exact h hp
    obtain ⟨hlookup, hnull, habove⟩ := node?_eq_directory_iff.1 hp
    refine node?_eq_directory_iff.2 ⟨?_, hnull, isAbove_put habove⟩
    rw [lookup_put_of_ne hne, hlookup]
  · intro p hp
    rw [isSome_node?_iff] at hp ⊢
    by_cases hne : p = path
    · left
      rw [hne, lookup_put_self]
      rfl
    · rw [lookup_put_of_ne hne]
      exact hp.imp_right fun hp => hp.imp_right isAbove_put

/-! ### Where paths lead to -/

/-- One name leads from a directory to a place. -/
inductive Leads (files : Files) (start : List String) : String → List String → Prop
  | stay {name : String} : name = "" ∨ name = "." → files.Leads start name start
  | up : files.Leads start ".." (parent start)
  | down {name : String} : ¬ (name = "" ∨ name = ".") → name ≠ ".." → name.utf8ByteSize ≤ 255 →
      (files.node? (start ++ [name])).isSome → files.Leads start name (start ++ [name])

/-- Names are followed one by one, each from a directory. -/
theorem follow_cons_eq_ok_iff {start place names : List String} {name : String} :
    files.follow start (name :: names) = .ok place ↔
      files.node? start = some .directory ∧
        ∃ next, files.Leads start name next ∧ files.follow next names = .ok place := by
  constructor
  · intro h
    rw [follow] at h
    split at h
    · cases h
    · cases h
    · cases h
    rename_i hstart
    refine ⟨hstart, ?_⟩
    split at h
    · rename_i hname
      exact ⟨start, .stay hname, h⟩
    rename_i hname
    split at h
    · rename_i hup
      exact ⟨parent start, hup ▸ .up, h⟩
    rename_i hup
    split at h
    · cases h
    rename_i hlong
    split at h
    · cases h
    rename_i hsome
    refine ⟨start ++ [name], .down hname hup (Nat.le_of_not_lt hlong) ?_, h⟩
    simpa [Option.isSome_iff_ne_none] using hsome
  · rintro ⟨hstart, next, hnext, h⟩
    rw [follow, hstart]
    cases hnext with
    | stay hname => simpa only [if_pos hname] using h
    | up => exact h
    | down hname hup hlong hsome =>
      have hthere : ¬ (files.node? (start ++ [name])).isNone = true := by
        simpa [Option.isSome_iff_ne_none] using hsome
      simpa only [if_neg hname, if_neg hup, if_neg (Nat.not_lt.2 hlong), if_neg hthere] using h

theorem follow_append {start place names : List String} (more : List String)
    (h : files.follow start names = .ok place) {last : List String}
    (hmore : files.follow place more = .ok last) : files.follow start (names ++ more) = .ok last := by
  induction names generalizing start with
  | nil =>
    cases h
    exact hmore
  | cons name names ih =>
    obtain ⟨hstart, next, hnext, h⟩ := follow_cons_eq_ok_iff.1 h
    exact follow_cons_eq_ok_iff.2 ⟨hstart, next, hnext, ih h⟩

theorem Keeps.leads (h : files.Keeps after) {start next : List String} {name : String}
    (hleads : files.Leads start name next) : after.Leads start name next := by
  cases hleads with
  | stay hname => exact .stay hname
  | up => exact .up
  | down hname hup hlong hsome => exact .down hname hup hlong (h.isSome hsome)

/-- A path that leads somewhere still leads there. -/
theorem Keeps.follow (h : files.Keeps after) {start place names : List String}
    (hfollow : files.follow start names = .ok place) : after.follow start names = .ok place := by
  induction names generalizing start with
  | nil => exact hfollow
  | cons name names ih =>
    obtain ⟨hstart, next, hnext, hfollow⟩ := follow_cons_eq_ok_iff.1 hfollow
    exact follow_cons_eq_ok_iff.2 ⟨h.directory hstart, next, h.leads hnext, ih hfollow⟩

/-! ### Writes -/

/-- The parts of a write that succeeds: the path is that of a name in a directory, where no directory
lies, and the content is put there unless the null device is. -/
theorem write_eq_ok {path : String} (h : files.write path content = .ok after) :
    ∃ front name directory, checkPath path = .ok () ∧ splitPath path = front ++ [name] ∧
      files.follow (startOf path) front = .ok directory ∧
      files.node? directory = some .directory ∧
      ¬ (name = "" ∨ name = ".") ∧ name ≠ ".." ∧ name.utf8ByteSize ≤ 255 ∧
      ((files.node? (directory ++ [name]) = some .nullDevice ∧ after = files) ∨
        (files.node? (directory ++ [name]) ≠ some .directory ∧
          after = files.put (directory ++ [name]) content)) := by
  rw [write] at h
  cases hopen : checkOpen path with
  | error e =>
    rw [hopen] at h
    cases h
  | ok u =>
  rw [hopen] at h
  have hcheck : checkPath path = .ok () := by
    rw [checkOpen] at hopen
    cases hc : checkPath path with
    | error e =>
      rw [hc] at hopen
      cases hopen
    | ok u => rfl
  cases hlast : (splitPath path).getLast? with
  | none => simp [hlast, bind, Except.bind] at h
  | some name =>
  obtain ⟨front, hsplit⟩ := List.getLast?_eq_some_iff.1 hlast
  simp only [hlast, bind, Except.bind] at h
  split at h
  · cases h
  rename_i directory hfollow
  split at h
  · rename_i hdirectory
    split at h
    · cases h
    rename_i hname
    have hempty : name ≠ "" := fun hempty => hname (.inl hempty)
    rw [if_neg hempty, hsplit, List.dropLast_concat] at hfollow
    split at h
    · cases h
    rename_i hlong
    refine ⟨front, name, directory, hcheck, hsplit, hfollow, hdirectory, fun h => hname ?_,
      fun h => hname (.inr (.inr h)), Nat.le_of_not_lt hlong, ?_⟩
    · exact h.imp_right .inl
    · split at h
      · cases h
      · rename_i hnull
        cases h
        exact .inl ⟨hnull, rfl⟩
      · rename_i hnot _
        cases h
        exact .inr ⟨hnot, rfl⟩
  · cases h
  · cases h
  · cases h

/-- A write that succeeds stores its content where the path leads to, or drops it if that is the null
device. -/
theorem stored_of_write {path : String} (h : files.write path content = .ok after) :
    (after = files ∧ files.resolve path = .ok nullPath) ∨
      ∃ place, files.Stored after path content place := by
  obtain ⟨front, name, directory, hcheck, hsplit, hfront, hdirectory, hname, hup, hlong, hcases⟩ :=
    write_eq_ok h
  have hresolve {files' : Files} (hkeep : files.Keeps files')
      (hsome : (files'.node? (directory ++ [name])).isSome) :
      files'.resolve path = .ok (directory ++ [name]) := by
    have hlast : files'.follow directory [name] = .ok (directory ++ [name]) :=
      follow_cons_eq_ok_iff.2
        ⟨hkeep.directory hdirectory, _, .down hname hup hlong hsome, rfl⟩
    rw [resolve, hcheck, hsplit]
    exact follow_append [name] (hkeep.follow hfront) hlast
  rcases hcases with ⟨hnull, rfl⟩ | ⟨hnot, rfl⟩
  · left
    refine ⟨rfl, ?_⟩
    rw [hresolve ⟨id, id⟩ (by rw [hnull]; rfl), eq_nullPath_of_node? hnull]
  · right
    refine ⟨directory ++ [name], hresolve (keeps_put hnot) ?_, lookup_put_self,
      fun hne => lookup_put_of_ne hne⟩
    rw [node?_of_some lookup_put_self]
    rfl

end LispLua.Command.Files
