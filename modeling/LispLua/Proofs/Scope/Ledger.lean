import LispLua.Proofs.Scope.Maps
import LispLua.Proofs.Scope.Moves
import LispLua.Term.Reader

/-!
# The ledger of a session

A session written out in full: the standard names are entries of the root like all others, and
whether a layer is pure is kept in a row of its own beside the layers. Nothing in the ledger itself
ties the two rows together, keeps a special form at the root or a name under its own key. That it is
so is an invariant, which each move keeps and so every run of moves. The ledger of a session moves
as the session does, and a generation is a row of moves; so the invariant holds of the ledger of
every session that can be reached, whether generations on the way succeed or fail.
-/

namespace LispLua

namespace Meaning

/-- The name as it is written. -/
def surface : Meaning → String
  | declared b => b.surface
  | standard e => e.surface

/-- The name as it is emitted. -/
def emitted : Meaning → String
  | declared b => b.emitted
  | standard e => e.emitted

/-- Where a name is visible. Standard names are emitted as they are, like those of a block. -/
def reach : Meaning → Reach
  | declared b => b.reach
  | standard _ => .block

/-- A meaning is that of a standard name. -/
def IsStandard (name : String) (m : Meaning) : Prop :=
  ∃ e, Standard.find? name = some e ∧ m = .standard e

/-- What can stand under a name, at the root and in the layers inside. -/
structure Fits (atRoot : Bool) (name : String) (m : Meaning) : Prop where
  surface_eq : m.surface = name
  reach_eq : atRoot = false → m.reach = .block
  of_form : m.isForm = true ∨ m.function?.isSome = true → atRoot = true ∧ m.IsStandard name
  emitted_eq : m.IsStandard name ∨ m.emitted = m.surface ∨ m.emitted = mangle m.surface

/-- A declared name fits the root, and if it is local to a block every layer. -/
theorem fits_declare {atRoot : Bool} (name : String) (kind : Kind) {reach : Reach}
    (preserve : Bool) (h : atRoot = false → reach = .block) :
    Fits atRoot name (.declared (.declare name kind reach preserve)) where
  surface_eq := rfl
  reach_eq := h
  of_form hform := by simp [isForm, form?, function?] at hform
  emitted_eq := by
    cases preserve with
    | true => exact .inr (.inl rfl)
    | false => exact .inr (.inr rfl)

end Meaning

namespace Standard

/-- No name is listed twice. -/
theorem nodup_surfaces : (table.map Entry.surface).Nodup := by
  decide +kernel

theorem find?_eq_some_iff {name : String} {e : Entry} :
    find? name = some e ↔ e ∈ table ∧ e.surface = name := by
  have hfound {e' : Entry} (h : find? name = some e') : e' ∈ table ∧ e'.surface = name :=
    ⟨List.mem_of_find?_eq_some h,
      eq_of_beq (List.find?_some (p := fun e : Entry => e.surface == name) h)⟩
  refine ⟨hfound, fun ⟨he, hname⟩ => ?_⟩
  obtain ⟨e', he'⟩ : ∃ e', find? name = some e' :=
    Option.isSome_iff_exists.1 (List.find?_isSome.2 ⟨e, he, beq_iff_eq.2 hname⟩)
  have hsurface : e'.surface = e.surface := (hfound he').2.trans hname.symm
  rw [he', List.inj_on_of_nodup_map nodup_surfaces (hfound he').1 he hsurface]

end Standard

theorem Meaning.fits_standard {e : Standard.Entry} (he : e ∈ Standard.table) :
    Fits true e.surface (.standard e) where
  surface_eq := rfl
  reach_eq h := absurd h.symm Bool.false_ne_true
  of_form _ := ⟨rfl, e, Standard.find?_eq_some_iff.2 ⟨he, rfl⟩, rfl⟩
  emitted_eq := .inl ⟨e, Standard.find?_eq_some_iff.2 ⟨he, rfl⟩, rfl⟩

/-! ### Ledgers and their moves -/

/-- A session in full: the names in scope, whether each layer is pure, the innermost first, the
expression of the package and the name of the module. -/
@[ext]
structure Ledger where
  names : Maps String Meaning
  flags : List Bool
  package : String
  moduleName : Option String

namespace Ledger

/-- The standard names at the root. -/
def standardNames : Maps String Meaning :=
  Standard.table.foldl (fun m e => m.set e.surface (.standard e)) .empty

def start : Ledger :=
  ⟨standardNames, [false], localPackage, none⟩

def isPure (l : Ledger) : Bool :=
  l.flags.head?.getD false

def enter (l : Ledger) (pure? : Option Bool) : Ledger :=
  { l with names := l.names.enter, flags := pure?.getD l.isPure :: l.flags }

def leave (l : Ledger) : Ledger :=
  if 1 < l.flags.length then { l with names := l.names.leave, flags := l.flags.tail } else l

def register (l : Ledger) (token : Token) (kind : Kind) (reach : Reach) (preserve : Bool) :
    Except Fault (Binding × Ledger) :=
  let b := Binding.declare token.text kind reach preserve
  match reach with
  | .block => .ok (b, { l with names := l.names.set token.text (.declared b) })
  | .everywhere => .ok (b, { l with names := l.names.setRoot token.text (.declared b) })
  | .package =>
    if (l.names.getRoot? token.text).any (·.reach == .package) then
      .error ⟨.redeclared token.text, token.span⟩
    else .ok (b, { l with names := l.names.setRoot token.text (.declared b) })

def nameModule (l : Ledger) (options : Options) (name : String) : Ledger :=
  { l with
    moduleName := some name
    package := if options.publish then publishedPackage name else l.package }

def publish (l : Ledger) (job : Job) : Ledger :=
  { l with
    package := if job.options.publish then publishedPackage job.fallbackModule else l.package }

open Session (Move)

/-- The ledger behind a move. -/
def perform (options : Options) (l : Ledger) : Move → Ledger
  | .enter pure? => l.enter pure?
  | .leave => l.leave
  | .register token kind reach preserve =>
    match l.register token kind reach preserve with
    | .error _ => l
    | .ok (_, l') => l'
  | .nameModule name => l.nameModule options name
  | .publish sourceName => l.publish ⟨options, sourceName, ""⟩
  | .tell _ => l

/-- The ledger behind moves in a row. -/
def performAll (options : Options) (l : Ledger) (ms : List Move) : Ledger :=
  ms.foldl (perform options) l

/-! ### The invariant -/

/-- All entries of a layer fit. -/
def Fit (atRoot : Bool) (row : Finmap fun _ : String => Meaning) : Prop :=
  ∀ name m, row.lookup name = some m → m.Fits atRoot name

theorem fit_empty (atRoot : Bool) : Fit atRoot ∅ := by
  intro name m h
  rw [Finmap.lookup_empty] at h
  cases h

theorem Fit.insert {atRoot : Bool} {row : Finmap fun _ : String => Meaning} (h : Fit atRoot row)
    {name : String} {m : Meaning} (hm : m.Fits atRoot name) : Fit atRoot (row.insert name m) := by
  intro name' m' hlookup
  by_cases heq : name' = name
  · subst heq
    rw [Finmap.lookup_insert] at hlookup
    cases hlookup
    exact hm
  · rw [Finmap.lookup_insert_of_ne _ heq] at hlookup
    exact h name' m' hlookup

/-- The invariant of a ledger: one flag for each layer, of which that of the root says no; entries
that fit their layer; and a package that is not published is reached through its table. -/
structure Sound (options : Options) (l : Ledger) : Prop where
  flags_length : l.flags.length = l.names.depth
  flags_bottom : l.flags.getLast? = some false
  root_fit : Fit true l.names.root
  inner_fit : ∀ row ∈ l.names.inner, Fit false row
  package_eq : options.publish = false → l.package = localPackage

namespace Sound

variable {options : Options} {l : Ledger}

/-- A pure layer is never the root. -/
theorem depth_of_isPure (h : l.Sound options) (hpure : l.isPure = true) : 1 < l.names.depth := by
  rw [← h.flags_length]
  have hbottom := h.flags_bottom
  rw [isPure] at hpure
  match hflags : l.flags with
  | [] => simp [hflags] at hpure
  | [flag] => simp_all
  | _ :: _ :: _ => simp

theorem enter (h : l.Sound options) (pure? : Option Bool) : (l.enter pure?).Sound options := by
  obtain ⟨names, flags, package, moduleName⟩ := l
  rw [Maps.eq_ofRoot names] at h ⊢
  obtain ⟨hlength, hbottom, hroot, hinner, hpackage⟩ := h
  constructor
  · simpa [Ledger.enter] using hlength
  · simp only [Ledger.enter, List.getLast?_cons, hbottom, Option.getD_some]
  · simpa [Ledger.enter] using hroot
  · simpa [Ledger.enter, fit_empty] using hinner
  · exact hpackage

/-- The flags tell when the root is left, and so the layers stay in step with them. -/
theorem leave (h : l.Sound options) : l.leave.Sound options := by
  rw [Ledger.leave]
  split
  · rename_i hlong
    obtain ⟨names, flags, package, moduleName⟩ := l
    rw [Maps.eq_ofRoot names] at h ⊢
    obtain ⟨hlength, hbottom, hroot, hinner, hpackage⟩ := h
    simp only [Maps.depth_ofRoot, Maps.root_ofRoot, Maps.inner_ofRoot] at hlength hroot hinner hlong
    constructor
    · simp only [Maps.leave_ofRoot, Maps.depth_ofRoot, List.length_tail]
      omega
    · rw [List.getLast?_tail, if_neg (Nat.ne_of_gt hlong)]
      exact hbottom
    · rwa [Maps.leave_ofRoot, Maps.root_ofRoot]
    · rw [Maps.leave_ofRoot, Maps.inner_ofRoot]
      exact fun row hrow => hinner row (List.mem_of_mem_tail hrow)
    · exact hpackage
  · exact h

/-- A write at the root of what fits there. -/
theorem setRoot (h : l.Sound options) {name : String} {m : Meaning} (hm : m.Fits true name) :
    Sound options { l with names := l.names.setRoot name m } := by
  obtain ⟨names, flags, package, moduleName⟩ := l
  rw [Maps.eq_ofRoot names] at h ⊢
  obtain ⟨hlength, hbottom, hroot, hinner, hpackage⟩ := h
  simp only [Maps.depth_ofRoot, Maps.root_ofRoot, Maps.inner_ofRoot] at hlength hroot hinner
  refine ⟨?_, hbottom, ?_, ?_, hpackage⟩
  · rwa [Maps.setRoot_ofRoot, Maps.depth_ofRoot]
  · rw [Maps.setRoot_ofRoot, Maps.root_ofRoot]
    exact hroot.insert hm
  · rwa [Maps.setRoot_ofRoot, Maps.inner_ofRoot]

/-- A write into the innermost layer of what fits anywhere. -/
theorem set (h : l.Sound options) {name : String} {m : Meaning} (hm : ∀ b, m.Fits b name) :
    Sound options { l with names := l.names.set name m } := by
  obtain ⟨names, flags, package, moduleName⟩ := l
  rw [Maps.eq_ofRoot names] at h ⊢
  obtain ⟨hlength, hbottom, hroot, hinner, hpackage⟩ := h
  simp only [Maps.depth_ofRoot, Maps.root_ofRoot, Maps.inner_ofRoot] at hlength hroot hinner
  cases hrows : names.inner with
  | nil =>
    rw [hrows] at hlength
    refine ⟨?_, hbottom, ?_, ?_, hpackage⟩
    · rwa [Maps.set_ofRoot_nil, Maps.depth_ofRoot]
    · rw [Maps.set_ofRoot_nil, Maps.root_ofRoot]
      exact hroot.insert (hm true)
    · simp
  | cons row outer =>
    rw [hrows] at hlength hinner
    refine ⟨?_, hbottom, ?_, ?_, hpackage⟩
    · rwa [Maps.set_ofRoot_cons, Maps.depth_ofRoot]
    · rwa [Maps.set_ofRoot_cons, Maps.root_ofRoot]
    · rw [Maps.set_ofRoot_cons, Maps.inner_ofRoot]
      intro row' hrow'
      rcases List.mem_cons.1 hrow' with rfl | houter
      · exact (hinner row (List.mem_cons_self ..)).insert (hm false)
      · exact hinner row' (List.mem_cons_of_mem _ houter)

theorem register (h : l.Sound options) {l' : Ledger} {token : Token} {kind : Kind}
    {reach : Reach} {preserve : Bool} {b : Binding}
    (hregister : l.register token kind reach preserve = .ok (b, l')) : l'.Sound options := by
  cases reach with
  | block =>
    cases hregister
    exact h.set fun _ => Meaning.fits_declare _ kind preserve fun _ => rfl
  | everywhere =>
    cases hregister
    exact h.setRoot (Meaning.fits_declare _ kind preserve nofun)
  | package =>
    simp only [Ledger.register] at hregister
    split at hregister
    · cases hregister
    · cases hregister
      exact h.setRoot (Meaning.fits_declare _ kind preserve nofun)

/-- A package that is not published keeps its table. -/
theorem withPackage (h : l.Sound options) (package : String) (moduleName : Option String) :
    Sound options { l with
      moduleName := moduleName
      package := if options.publish then package else l.package } := by
  refine ⟨h.flags_length, h.flags_bottom, h.root_fit, h.inner_fit, fun hpublish => ?_⟩
  show (if options.publish then package else l.package) = localPackage
  rw [hpublish, if_neg Bool.false_ne_true]
  exact h.package_eq hpublish

/-- Each move keeps the invariant. -/
theorem perform (h : l.Sound options) (m : Move) : (l.perform options m).Sound options := by
  cases m with
  | enter pure? => exact h.enter pure?
  | leave => exact h.leave
  | register token kind reach preserve =>
    rw [Ledger.perform]
    cases hregister : l.register token kind reach preserve with
    | error f => exact h
    | ok r => exact h.register hregister
  | nameModule name => exact h.withPackage _ _
  | publish sourceName => exact h.withPackage _ _
  | tell event => exact h

theorem performAll (h : l.Sound options) (ms : List Move) :
    (l.performAll options ms).Sound options := by
  induction ms generalizing l with
  | nil => exact h
  | cons m ms ih => exact ih (h.perform m)

end Sound

/-- Standard names, written one after the other at the root, fit there. -/
theorem fit_standard (es : List Standard.Entry) (hes : ∀ e ∈ es, e ∈ Standard.table)
    {root : Finmap fun _ : String => Meaning} (hroot : Fit true root) :
    ∃ root', Fit true root' ∧
      es.foldl (fun m e => m.set e.surface (.standard e)) (Maps.ofRoot root []) =
        .ofRoot root' [] := by
  induction es generalizing root with
  | nil => exact ⟨root, hroot, rfl⟩
  | cons e es ih =>
    have he := Meaning.fits_standard (hes e (List.mem_cons_self ..))
    rw [List.foldl_cons, Maps.set_ofRoot_nil]
    exact ih (fun e' he' => hes e' (List.mem_cons_of_mem _ he')) (hroot.insert he)

theorem sound_start (options : Options) : start.Sound options := by
  obtain ⟨root, hroot, hnames⟩ :=
    fit_standard Standard.table (fun _ he => he) (fit_empty true)
  have hstart : start.names = .ofRoot root [] := hnames
  constructor
  · rw [hstart]
    rfl
  · rfl
  · rwa [hstart, Maps.root_ofRoot]
  · rw [hstart, Maps.inner_ofRoot]
    intro row hrow
    cases hrow
  · intro _
    rfl

end Ledger

/-! ### The ledger of a session -/

namespace Session

/-- Entries of declared names. -/
def meaningsOf (entries : List (String × Binding)) : List (String × Meaning) :=
  entries.map fun e => (e.1, .declared e.2)

/-- The standard names as entries, the last listed first. -/
def standardEntries : List (String × Meaning) :=
  Standard.table.reverse.map fun e => (e.surface, .standard e)

/-- The names in scope, with the standard names at the bottom of the root. -/
def meanings (s : Session) : Layers Bool String Meaning :=
  ⟨meaningsOf s.scope.root ++ standardEntries,
    s.scope.inner.map fun layer => ⟨layer.tag, meaningsOf layer.entries⟩⟩

/-- The ledger of a session. -/
def ledger (s : Session) : Ledger :=
  ⟨s.meanings.maps, s.scope.inner.map Layer.tag ++ [false], s.package, s.moduleName⟩

theorem lookup_meaningsOf (entries : List (String × Binding)) (name : String) :
    (meaningsOf entries).lookup name = (entries.lookup name).map .declared := by
  induction entries with
  | nil => rfl
  | cons e entries ih =>
    obtain ⟨key, b⟩ := e
    rw [meaningsOf, List.map_cons, List.lookup_cons, List.lookup_cons, ← meaningsOf]
    cases name == key with
    | true => rfl
    | false => exact ih

/-- Since no name is listed twice, it does not matter from which end one looks. -/
theorem lookup_reverse {es : List Standard.Entry} (hes : (es.map Standard.Entry.surface).Nodup)
    (name : String) :
    (es.reverse.map fun e => (e.surface, Meaning.standard e)).lookup name =
      (es.find? fun e => e.surface == name).map .standard := by
  induction es with
  | nil => rfl
  | cons e es ih =>
    obtain ⟨hnew, hrest⟩ := List.nodup_cons.1 hes
    rw [List.reverse_cons, List.map_append, List.lookup_append, ih hrest, List.find?_cons]
    by_cases hname : e.surface = name
    · have hnone : (es.find? fun e => e.surface == name) = none := by
        refine List.find?_eq_none.2 fun e' he' => ?_
        rw [beq_iff_eq]
        intro hname'
        exact hnew (List.mem_map.2 ⟨e', he', hname'.trans hname.symm⟩)
      simp [hnone, hname]
    · have hflip : (name == e.surface) = false := beq_false_of_ne (Ne.symm hname)
      simp [beq_false_of_ne hname, hflip, List.lookup_cons]

theorem lookup_standardEntries (name : String) :
    standardEntries.lookup name = (Standard.find? name).map .standard :=
  lookup_reverse Standard.nodup_surfaces name

variable (s : Session)

/-! #### What the ledger answers -/

/-- A name means in the ledger what it means in the session. -/
theorem get?_ledger (name : String) : s.ledger.names.get? name = s.find? name := by
  have hinner : (s.meanings.inner.findSome? fun layer => layer.entries.lookup name) =
      (s.scope.inner.findSome? fun layer => layer.entries.lookup name).map .declared := by
    rw [meanings, List.findSome?_map, List.map_findSome?]
    congr 1
    funext layer
    exact lookup_meaningsOf layer.entries name
  rw [ledger, Layers.get?_maps, Layers.get?, Layers.getRoot?, hinner, meanings, List.lookup_append,
    lookup_meaningsOf, lookup_standardEntries, find?, Layers.get?, Layers.getRoot?]
  cases s.scope.inner.findSome? fun layer => layer.entries.lookup name with
  | some b => rfl
  | none =>
    cases s.scope.root.lookup name with
    | some b => rfl
    | none => rfl

theorem isPure_ledger : s.ledger.isPure = s.isPure := by
  obtain ⟨⟨root, _ | ⟨layer, outer⟩⟩, package, moduleName, log⟩ := s
  · rfl
  · rfl

theorem depth_ledger : s.ledger.names.depth = s.scope.depth := by
  rw [ledger, Layers.depth_maps, Layers.depth, Layers.depth, meanings, List.length_map]

/-- A standard name is not one of the package. -/
theorem getRoot?_ledger (name : String) :
    (s.ledger.names.getRoot? name).any (·.reach == .package) =
      (s.scope.getRoot? name).any (·.reach == .package) := by
  rw [ledger, Layers.getRoot?_maps, Layers.getRoot?, Layers.getRoot?, meanings,
    List.lookup_append, lookup_meaningsOf, lookup_standardEntries]
  cases s.scope.root.lookup name with
  | some b => rfl
  | none =>
    cases Standard.find? name with
    | some e => rfl
    | none => rfl

/-! #### How the ledger moves -/

/-- Written one after the other, standard names come to stand in reverse. -/
theorem foldl_set_maps (es : List Standard.Entry) (rows : List (String × Meaning)) :
    es.foldl (fun m e => m.set e.surface (.standard e))
        (Layers.maps ⟨rows, ([] : List (Layer Bool String Meaning))⟩) =
      Layers.maps ⟨(es.reverse.map fun e => (e.surface, .standard e)) ++ rows,
        ([] : List (Layer Bool String Meaning))⟩ := by
  induction es generalizing rows with
  | nil => rfl
  | cons e es ih =>
    rw [List.reverse_cons, List.map_append, List.append_assoc]
    exact ih ((e.surface, .standard e) :: rows)

theorem ledger_start : start.ledger = .start := by
  have hmeanings : start.meanings = ⟨standardEntries ++ [], []⟩ := by
    rw [List.append_nil]
    rfl
  have hnames : start.ledger.names = Ledger.standardNames := by
    rw [ledger, hmeanings, standardEntries, ← foldl_set_maps]
    rfl
  exact Ledger.ext hnames rfl rfl rfl

theorem ledger_enter (pure? : Option Bool) : (s.enter pure?).ledger = s.ledger.enter pure? := by
  rw [Ledger.enter, isPure_ledger]
  rfl

theorem ledger_leave : s.leave.ledger = s.ledger.leave := by
  obtain ⟨⟨root, _ | ⟨layer, outer⟩⟩, package, moduleName, log⟩ := s
  · rfl
  · have hlong : 1 < (ledger ⟨⟨root, layer :: outer⟩, package, moduleName, log⟩).flags.length := by
      simp [ledger]
    rw [Ledger.leave, if_pos hlong]
    exact Ledger.ext (Layers.maps_leave (meanings ⟨⟨root, layer :: outer⟩, _, _, _⟩)) rfl rfl rfl

theorem ledger_set (key : String) (b : Binding) :
    ledger { s with scope := s.scope.set key b } =
      { s.ledger with names := s.ledger.names.set key (.declared b) } := by
  obtain ⟨⟨root, _ | ⟨layer, outer⟩⟩, package, moduleName, log⟩ := s
  · rfl
  · rfl

theorem ledger_setRoot (key : String) (b : Binding) :
    ledger { s with scope := s.scope.setRoot key b } =
      { s.ledger with names := s.ledger.names.setRoot key (.declared b) } :=
  Ledger.ext (Layers.maps_setRoot s.meanings key (.declared b)) rfl rfl rfl

/-- A declaration has the same result in the ledger. -/
theorem register_ledger (token : Token) (kind : Kind) (reach : Reach) (preserve : Bool) :
    s.ledger.register token kind reach preserve =
      (s.register token kind reach preserve).map fun r => (r.1, r.2.ledger) := by
  cases reach with
  | block => simp only [Ledger.register, register, Except.map, ledger_set]
  | everywhere => simp only [Ledger.register, register, Except.map, ledger_setRoot]
  | package =>
    simp only [Ledger.register, register, getRoot?_ledger]
    split
    · rfl
    · simp only [Except.map, ledger_setRoot]

/-- Each move does to the ledger of a session what it does to the session. -/
theorem ledger_perform (options : Options) (m : Move) :
    (s.perform options m).ledger = s.ledger.perform options m := by
  cases m with
  | enter pure? => exact ledger_enter s pure?
  | leave => exact ledger_leave s
  | register token kind reach preserve =>
    rw [perform, Ledger.perform, register_ledger]
    cases s.register token kind reach preserve with
    | error f => rfl
    | ok r => rfl
  | nameModule | publish | tell => rfl

theorem ledger_performAll (options : Options) (ms : List Move) :
    (s.performAll options ms).ledger = s.ledger.performAll options ms := by
  induction ms generalizing s with
  | nil => rfl
  | cons m ms ih =>
    rw [performAll_cons, ih, ledger_perform]
    rfl

end Session

open Session

/-- The invariant holds of whatever can be reached by moves and generations, in any order and
whether they succeed or fail. The ledger is that of the same moves from the start on; each layer has
one flag, and a pure layer is never the root; entries stand under their own name, names of the
package and of all packages at the root; a special form, and what has a function in its place, is
the standard one of its name, at the root; other names are emitted as written or mangled; and a
package that is not published is reached through its table. What a name means is read off the
ledger. -/
theorem reached_ledger_sound {options : Options} {s : Session} (h : Reached options s) :
    s.ledger.Sound options ∧
    (∃ ms, s = start.performAll options ms ∧ s.ledger = Ledger.start.performAll options ms) ∧
    (s.ledger.isPure = true → 1 < s.ledger.names.depth) ∧
    s.ledger.isPure = s.isPure ∧ s.ledger.names.depth = s.scope.depth ∧
    ∀ name, s.ledger.names.get? name = s.find? name := by
  obtain ⟨ms, rfl⟩ := h.exists_moves
  have hledger : (start.performAll options ms).ledger = Ledger.start.performAll options ms := by
    rw [ledger_performAll, ledger_start]
  have hsound : (start.performAll options ms).ledger.Sound options := by
    rw [hledger]
    exact (Ledger.sound_start options).performAll ms
  exact ⟨hsound, ⟨ms, rfl, hledger⟩, hsound.depth_of_isPure, isPure_ledger _, depth_ledger _,
    get?_ledger _⟩

/-- A function whose body refers to a name that is not declared. -/
def unboundBody : Program :=
  (parse "(defn f [x] (fn [y] z))").toOption.getD []

/-- The session behind its lowering, which fails two layers deep inside an open one. -/
def Session.afterFailure : Session :=
  ((Gen.statements unboundBody).exec ⟨.library, "test.crn", ""⟩ (start.enter (some false))).2

/-- The function stays declared, and the ledger is sound with the open layer only. -/
theorem reached_ledger_sound_failed :
    Reached .library afterFailure ∧ afterFailure.ledger.Sound .library ∧
      afterFailure.ledger.names.depth = 2 ∧
      afterFailure.ledger.names.get? "f" =
        some (.declared (.declare "f" .function .package false)) := by
  have hreached : Reached .library afterFailure :=
    .generate ⟨.library, "test.crn", ""⟩ rfl (.statements unboundBody)
      (.move (.enter (some false)) .start)
  obtain ⟨hsound, -, -, -, hdepth, hget⟩ := reached_ledger_sound hreached
  refine ⟨hreached, hsound, ?_, ?_⟩
  · rw [hdepth]
    decide +kernel
  · rw [hget]
    decide +kernel

end LispLua
