import LispLua.Proofs.Lowering.Machine
import LispLua.Proofs.Lowering.Sound
import LispLua.Proofs.Operators.Meaning

/-!
# Values of patterns

A pattern of `let` becomes one declaration for each of its names, with the code of the value in each
of them. An import declares its names before it loads the module. Both give the names the parts of
the value outside, as long as the code of the value does not use a name that is declared before it,
and, for `let`, as long as the value can be computed again for each name.
-/

namespace LispLua

open Lua

/-! ### The names of a pattern -/

mutual

/-- The names of a pattern, each with the path to its part of the value. -/
def Term.places : Term → List (Token × List Nat)
  | .name t => [(t, [])]
  | .list items _ => placesFrom items 0
  | _ => []

/-- The names of patterns for the items from `index` on. -/
def Term.placesFrom : List Term → Nat → List (Token × List Nat)
  | [], _ => []
  | t :: ts, index => t.places.map (fun p => (p.1, index :: p.2)) ++ placesFrom ts (index + 1)

end

mutual

theorem Term.places_fst : ∀ t : Term, t.places.map Prod.fst = t.binders
  | .name _ => rfl
  | .list items _ => placesFrom_fst items 0
  | .table .. | .call .. | .path _ | .number _ | .string _ | .symbol _ | .wildcard _ => rfl

theorem Term.placesFrom_fst : ∀ (ts : List Term) (index : Nat),
    (placesFrom ts index).map Prod.fst = bindersAll ts
  | [], _ => rfl
  | t :: ts, index => by
    rw [placesFrom, List.map_append, List.map_map, placesFrom_fst ts, bindersAll,
      ← places_fst t]
    rfl

end

example : Term.places (.list [.list [.name ⟨"a", .none⟩, .name ⟨"b", .none⟩] .none,
    .name ⟨"c", .none⟩] .none) =
      [(⟨"a", .none⟩, [0, 0]), (⟨"b", .none⟩, [0, 1]), (⟨"c", .none⟩, [1])] :=
  rfl

namespace Term

/-- The paths of a pattern, in the order of its names. -/
def paths (t : Term) : List (List Nat) :=
  t.places.map Prod.snd

/-- The emitted names with their paths. -/
def slots (t : Term) : List (String × List Nat) :=
  t.places.map fun p => (mangle p.1.text, p.2)

theorem slots_fst (t : Term) : t.slots.map Prod.fst = t.emitted := by
  rw [slots, emitted, ← places_fst, List.map_map, List.map_map]
  rfl

theorem slots_snd (t : Term) : t.slots.map Prod.snd = t.paths := by
  rw [slots, paths, List.map_map]
  rfl

theorem isMangled_of_mem_slots {t : Term} : ∀ p ∈ t.slots, isMangled p.1 = true := by
  intro p hp
  obtain ⟨q, -, rfl⟩ := List.mem_map.1 hp
  exact isMangled_mangle q.1.text

end Term

namespace Gen

variable {job : Job} {s s' : Session} {u : List Step}

mutual

theorem gives_destructure : ∀ (t : Term) {value : Code} {bs : List Code} {s s' : Session}
    {u : List Step}, (destructure t value).Gives job s bs u s' →
      bs = t.places.map fun p => .bind (mangle p.1.text) (p.2.foldl .item value)
  | .list items _, _, _, _, _, _, h => gives_destructureItems items 0 h
  | .name t, _, _, _, _, _, h => by
    obtain ⟨c, hc, rfl⟩ := gives_map.1 h
    obtain ⟨rfl, rfl, rfl⟩ := gives_bindLocal.1 hc
    rfl
  | .table .., _, _, _, _, _, h | .call .., _, _, _, _, _, h | .path _, _, _, _, _, _, h
  | .number _, _, _, _, _, _, h | .string _, _, _, _, _, _, h | .symbol _, _, _, _, _, _, h
  | .wildcard _, _, _, _, _, _, h => (not_gives_refuse h).elim

theorem gives_destructureItems : ∀ (ts : List Term) (index : Nat) {value : Code} {bs : List Code}
    {s s' : Session} {u : List Step}, (destructureItems ts value index).Gives job s bs u s' →
      bs = (Term.placesFrom ts index).map fun p =>
        .bind (mangle p.1.text) (p.2.foldl .item value)
  | [], _, _, _, _, _, _, h => by
    obtain ⟨rfl, rfl, rfl⟩ := gives_pure.1 h
    rfl
  | t :: ts, index, _, _, _, _, _, h => by
    obtain ⟨bs, v, s₁, w, ht, hrest, rfl⟩ := gives_bind.1 h
    obtain ⟨cs, hts, rfl⟩ := gives_map.1 hrest
    rw [gives_destructure t ht, gives_destructureItems ts (index + 1) hts, Term.placesFrom,
      List.map_append, List.map_map]
    rfl

end

/-- Each declaration of a pair holds the access to its part of the value. -/
theorem gives_bindPair {left : Term} {value : Code} {bs : List Code}
    (h : (bindPair left value).Gives job s bs u s') :
    ∃ part : List Nat → Code, bs = left.slots.map (fun p => .bind p.1 (part p.2)) ∧
      ∀ (m : Machine), ∀ p ∈ left.slots, ∀ ρ,
        m.eval (part p.2) ρ = m.eval value ρ >>= m.project p.2 := by
  cases left with
  | name t =>
    -- A name takes the value as it is, whether or not it can stand in front of an index.
    refine ⟨fun path => path.foldl .item value, gives_destructure (.name t) h, fun m p hp ρ => ?_⟩
    rw [List.mem_singleton.1 hp]
    exact (bind_pure _).symm
  | list items span =>
    refine ⟨fun path => path.foldl .item (indexable value), ?_, fun m p _ ρ => ?_⟩
    · rw [gives_destructureItems items 0 h, Term.slots, List.map_map]
      rfl
    · rw [Machine.eval_part (Machine.takesIndex_indexable value), Machine.eval_indexable]
  | _ => exact (not_gives_refuse h).elim

/-! ### What emitted code binds -/

/-- A row of code is written as statements that bind the names of a pattern to parts of a value.
Every machine computes the value where the row starts, anew for each name, if the code of the value
does not use the names declared before the last one. So they get the parts of the one value that the
code has there, if it is repeatable. -/
def BindsParts (left : Term) (value : Code) (row : List Code) : Prop :=
  ∃ stmts : List Statement, row.map Code.render = stmts.map Statement.text ∧
    ∀ (m : Machine) (ρ : Locals m.Value), (∀ name ∈ left.emitted.dropLast, name ∉ value.free) →
      (m.execAll stmts ρ = do
        return ρ.extend left.emitted (← m.partsAnew value ρ left.paths)) ∧
      ∀ (w w₁ : m.World) (xs : List m.Value), m.Repeatable value ρ left.paths w →
        (m.parts value ρ left.paths).run w = some (xs, w₁) →
        ∃ ρ' w', (m.execAll stmts ρ).run w = some (ρ', w') ∧ Locals.Binds left.emitted xs ρ ρ'

/-- Code is written as statements that bind names to the members of a module, in every machine where
the module has these members. The code of its source must use none of the names. -/
def BindsMembers (tokens : List Token) (source code : Code) : Prop :=
  ∃ stmts : List Statement, code.render = String.join (stmts.map Statement.text) ∧
    ∀ (m : Machine) (ρ : Locals m.Value) (w w' : m.World) (xs : List m.Value),
      (∀ t ∈ tokens, mangle t.text ∉ source.free) →
      (m.members (.call (.word "require") [source]) ρ (tokens.map Token.text)).run w =
        some (xs, w') →
      ∃ ρ', (m.execAll stmts ρ).run w = some (ρ', w') ∧
        Locals.Binds (tokens.map fun t => mangle t.text) xs ρ ρ'

theorem bindsParts_of_gives {left : Term} {value : Code} {row : List Code}
    (h : (bindPair left value).Gives job s row u s') : BindsParts left value row := by
  obtain ⟨part, rfl, hpart⟩ := gives_bindPair h
  refine ⟨left.slots.map fun p => .bind p.1 (part p.2), ?_, ?_⟩
  · rw [List.map_map, List.map_map]
    exact List.map_congr_left fun p _ => Code.render_bind p.1 (part p.2)
  · intro m ρ hfree
    have hexec := Machine.execAll_binds (hpart m) Term.isMangled_of_mem_slots
      (by rwa [Term.slots_fst]) fun _ => .refl value ρ
    rw [Term.slots_fst, Term.slots_snd] at hexec
    have hlength : left.paths.length = left.emitted.length := by
      rw [← Term.slots_fst, ← Term.slots_snd, List.length_map, List.length_map]
    exact ⟨hexec, fun w w₁ xs hrepeatable hparts =>
      Machine.exists_binds_of_parts hlength hexec hrepeatable hparts⟩

theorem bindsMembers_loadMembers (tokens : List Token) (source : Code) :
    BindsMembers tokens source
      (.loadMembers (tokens.map fun t => (mangle t.text, t.text)) source) := by
  refine ⟨_, Code.render_eq_text (by simp [Code.statements]), ?_⟩
  intro m ρ w w' xs hfree hmembers
  have hkeys : (tokens.map fun t => (mangle t.text, t.text)).map Prod.snd =
      tokens.map Token.text := by
    rw [List.map_map]
    rfl
  have hnames : (tokens.map fun t => (mangle t.text, t.text)).map Prod.fst =
      tokens.map fun t => mangle t.text := by
    rw [List.map_map]
    rfl
  rw [← hnames]
  rw [← hkeys] at hmembers
  apply Machine.exists_binds_of_members _ _ hmembers
  · intro n hn
    obtain ⟨t, -, rfl⟩ := List.mem_map.1 hn
    exact isMangled_mangle t.text
  · intro n hn
    obtain ⟨t, ht, rfl⟩ := List.mem_map.1 hn
    exact hfree t ht

variable (job) in
/-- Pairs of patterns and values are declared in order. A value is lowered before the names of its
pattern are registered, and each pattern is bound to the parts of its value. -/
inductive Initialised : List Term → Session → List (List Code) → Session → Prop
  | done {ts : List Term} {s : Session} : ts.length < 2 → Initialised ts s [] s
  | pair {left right : Term} {ts : List Term} {s s₁ s₂ s' : Session} {value : Stmt} {u v : List Step}
      {row : List Code} {rows : List (List Code)} :
      (term right).Gives job s value u s₁ → (bindPair left value.code).Gives job s₁ row v s₂ →
      BindsParts left value.code row → Initialised ts s₂ rows s' →
      Initialised (left :: right :: ts) s (row :: rows) s'

theorem initialised_of_gives : ∀ {ts : List Term} {cs : List Code} {s : Session} {u : List Step},
    (bindPairs term ts).Gives job s cs u s' →
      ∃ rows, cs = rows.flatten ∧ Initialised job ts s rows s'
  | [], _, _, _, h => by
    obtain ⟨rfl, rfl, rfl⟩ := gives_pure.1 h
    exact ⟨[], rfl, .done (by decide)⟩
  | [_], _, _, _, h => by
    obtain ⟨rfl, rfl, rfl⟩ := gives_pure.1 h
    exact ⟨[], rfl, .done (by simp)⟩
  | left :: right :: ts, _, _, _, h => by
    obtain ⟨value, u, s₁, _, hvalue, hk, rfl⟩ := gives_bind.1 h
    obtain ⟨stmt, hstmt, rfl⟩ := gives_map.1 hvalue
    obtain ⟨row, v, s₂, _, hrow, hk', rfl⟩ := gives_bind.1 hk
    obtain ⟨cs, hcs, rfl⟩ := gives_map.1 hk'
    obtain ⟨rows, rfl, hrows⟩ := initialised_of_gives hcs
    exact ⟨row :: rows, rfl, .pair hstmt hrow (bindsParts_of_gives hrow) hrows⟩

/-- The names in the patterns of `let`, and those of an import, are bound to the parts that the
value of the pattern, or the module, has where the form starts, under the conditions of `BindsParts`
and `BindsMembers`. -/
theorem patterns_bind_parts_of_outer_value {c : Call} {stmt : Stmt}
    (h : (term c.term).Gives job s stmt u s') :
    (s.form? c = some .bindings →
      ∃ pairs span ts rows body s₁, c.args = .list pairs span :: ts ∧
        stmt.code = .thunk job.options.variadic (.scope rows.flatten body) ∧
        Initialised job pairs (s.enter none) rows s₁) ∧
    (s.form? c = some .importModule → ∀ items span word source,
      c.args = [.list items span, word, source] →
      ∃ value v s₁, (term source).Gives job s value v s₁ ∧
        BindsMembers (Term.bindersAll items) value.code stmt.code) := by
  constructor
  · intro hform
    obtain ⟨v, hlet, -⟩ := gives_form hform rfl h
    unfold bindings at hlet
    split at hlet
    · rename_i pairs span ts hargs
      obtain ⟨-, hlayer⟩ := gives_guard.1 hlet
      obtain ⟨v, s₁, hinside, -, -⟩ := gives_inLayer.1 hlayer
      obtain ⟨bs, _, s₂, _, hbs, hrest, -⟩ := gives_bind.1 hinside
      obtain ⟨cs, _, s₃, _, -, hthunk, -⟩ := gives_bind.1 hrest
      obtain ⟨hcode, -, -⟩ := gives_thunk.1 hthunk
      obtain ⟨rows, rfl, hrows⟩ := initialised_of_gives hbs
      exact ⟨pairs, span, ts, rows, .lines cs, s₂, hargs, hcode, hrows⟩
    · exact (not_gives_refuse hlet).elim
    · exact (not_gives_refuse hlet).elim
  · intro hform items span word source hargs
    obtain ⟨v, himport, -⟩ := gives_form hform rfl h
    rw [hargs] at himport
    obtain ⟨_, _, _, _, hword, hk, -⟩ := gives_bind.1 himport
    obtain ⟨rfl, rfl⟩ := quiet_importWord hword
    obtain ⟨d, v, s₁, _, hd, hk', -⟩ := gives_bind.1 hk
    obtain ⟨value, hvalue, rfl⟩ := gives_map.1 hd
    obtain ⟨names, hnames, hcode⟩ := gives_map.1 hk'
    refine ⟨value, v, s₁, hvalue, ?_⟩
    obtain ⟨-, -, tokens, rfl, rfl⟩ := binds_importMembers hnames
    rw [hcode, Term.bindersAll_map_name]
    exact bindsMembers_loadMembers tokens value.code

theorem code_of_gives_local {t : Token} {stmt : Stmt} (ht : s.IsLocal t.text)
    (h : (term (.name t)).Gives job s stmt u s') : stmt.code = .word (mangle t.text) := by
  have hvalue : (value (.name t)).Gives job s stmt.code u s' := gives_map.2 ⟨stmt, h, rfl⟩
  obtain ⟨hexec, -⟩ := gives_iff.1 hvalue
  rw [exec_value_local ht] at hexec
  exact (Except.ok.inj (congrArg Prod.fst hexec)).symm

theorem exists_gives {α : Type} {g : Gen α} (h : (g.exec job s).1.toOption.isSome = true) :
    ∃ a u s', g.Gives job s a u s' := by
  rcases hexec : g.exec job s with ⟨f | a, s'⟩
  · rw [hexec] at h
    cases h
  · exact ⟨a, g.steps job s, s', gives_iff.2 ⟨hexec, rfl⟩⟩

/-- A job whose text does not matter. -/
def blankJob : Job :=
  ⟨.library, "test.crn", ""⟩

/-- A session where `v` is local. -/
def holding : Session :=
  Session.start.withLocal ⟨"v", .none⟩

/-- `(let [[[a b] v] v] a)` -/
def unpacking : Call :=
  .named "let" .none [.list [.list [.list [.name ⟨"a", .none⟩, .name ⟨"b", .none⟩] .none,
    .name ⟨"v", .none⟩] .none, .name ⟨"v", .none⟩] .none, .name ⟨"a", .none⟩]

/-- `(import [x y] :from v)` -/
def fetching : Call :=
  .named "import" .none [.list [.name ⟨"x", .none⟩, .name ⟨"y", .none⟩] .none,
    .symbol ⟨"from", .none⟩, .name ⟨"v", .none⟩]

/-- The data that are unpacked. -/
def packed : Locals Datum :=
  [(mangle "v", .pair (.pair (.text "1") (.text "2")) (.text "3"))]

theorem patterns_bind_parts_of_outer_value_unpacking :
    (∃ stmt u s' row body stmts ρ' w,
      (term unpacking.term).Gives blankJob holding stmt u s' ∧
      stmt.code = .thunk false (.scope row body) ∧ row.map Code.render = stmts.map Statement.text ∧
      (Machine.data.execAll stmts packed).run [] = some (ρ', w) ∧
      ρ'.lookup (mangle "a") = some (.text "1") ∧ ρ'.lookup (mangle "b") = some (.text "2") ∧
      ρ'.lookup (mangle "v") = some (.text "3")) ∧
    (∃ stmt u s' stmts ρ' w,
      (term fetching.term).Gives blankJob holding stmt u s' ∧
      stmt.code.render = String.join (stmts.map Statement.text) ∧
      (Machine.data.execAll stmts [(mangle "v", .text "m")]).run [] = some (ρ', w) ∧
      ρ'.lookup (mangle "x") = some (.text "m.x") ∧ ρ'.lookup (mangle "y") = some (.text "m.y") ∧
      ρ'.lookup (mangle "v") = some (.text "m")) := by
  constructor
  · obtain ⟨stmt, u, s', h⟩ := exists_gives
      (show ((term unpacking.term).exec blankJob holding).1.toOption.isSome = true by decide +kernel)
    have hform : holding.form? unpacking = some .bindings := by decide +kernel
    obtain ⟨pairs, span, ts, rows, body, s₁, hargs, hcode, hinit⟩ :=
      (patterns_bind_parts_of_outer_value h).1 hform
    cases hargs
    cases hinit with
    | done hlength => exact absurd hlength (by decide)
    | pair hvalue _ hbinds hrest =>
      have hlocal : (holding.enter none).IsLocal "v" := ⟨.value, rfl⟩
      rw [code_of_gives_local hlocal hvalue] at hbinds
      obtain ⟨stmts, htext, hrun⟩ := hbinds
      have hparts : (Machine.data.parts (.word (mangle "v")) packed [[0, 0], [0, 1], [1]]).run [] =
          some ([.text "1", .text "2", .text "3"], []) := by
        decide +kernel
      have hanew : (Machine.data.partsAnew (.word (mangle "v")) packed
          [[0, 0], [0, 1], [1]]).run [] = some ([.text "1", .text "2", .text "3"], []) := by
        decide +kernel
      obtain ⟨ρ', w, hexec, hbound⟩ :=
        (hrun Machine.data packed (by decide +kernel)).2 [] [] _ (.of_run hparts hanew) hparts
      cases hrest with
      | done =>
        refine ⟨stmt, u, s', _, body, stmts, ρ', w, h, hcode, ?_, hexec, ?_, ?_, ?_⟩
        · rwa [List.flatten_singleton]
        · exact (hbound.lookup _).trans (by decide +kernel)
        · exact (hbound.lookup _).trans (by decide +kernel)
        · exact (hbound.lookup _).trans (by decide +kernel)
  · obtain ⟨stmt, u, s', h⟩ := exists_gives
      (show ((term fetching.term).exec blankJob holding).1.toOption.isSome = true by decide +kernel)
    have hform : holding.form? fetching = some .importModule := by decide +kernel
    obtain ⟨value, v, s₁, hvalue, hbinds⟩ :=
      (patterns_bind_parts_of_outer_value h).2 hform _ _ _ _ rfl
    have hlocal : holding.IsLocal "v" := ⟨.value, rfl⟩
    rw [code_of_gives_local hlocal hvalue] at hbinds
    obtain ⟨stmts, htext, hrun⟩ := hbinds
    have hmembers : (Machine.data.members (.call (.word "require") [.word (mangle "v")])
        [(mangle "v", .text "m")] ["x", "y"]).run [] = some ([.text "m.x", .text "m.y"], []) := by
      decide +kernel
    obtain ⟨ρ', hexec, hbound⟩ := hrun Machine.data _ [] [] _ (by decide +kernel) hmembers
    refine ⟨stmt, u, s', stmts, ρ', [], h, htext, hexec, ?_, ?_, ?_⟩
    · exact (hbound.lookup _).trans (by decide +kernel)
    · exact (hbound.lookup _).trans (by decide +kernel)
    · exact (hbound.lookup _).trans (by decide +kernel)

/-! ### Values that are lost -/

/-- The declarations that code starts with; those of a block stand inside its function. -/
def declarations : Code → List Statement
  | .thunk _ (.scope bs _) => bs.flatMap Code.statements
  | c => c.statements

/-- What a name stands for behind the declarations of a program, in the machine for data. -/
def boundBy (job : Job) (input : List Datum) (name : String) : Option Datum := do
  let p ← (parse job.code).toOption
  let stmts ← ((statements p).exec job (Session.start.publish job)).1.toOption
  let (ρ, _) ← (Machine.data.execAll (stmts.flatMap fun stmt => declarations stmt.code) []).run input
  ρ.lookup (mangle name)

/-- A pattern that starts with the name of its value. -/
def shadowing : Job :=
  ⟨.library, "test.crn", "(let [v [[1 2] 3] [v w] v] w)"⟩

/-- An import of the name of its own source. -/
def reloading : Job :=
  ⟨.library, "test.crn", "(import [lib] :from \"m\") (import [lib x] :from lib)"⟩

/-- A pattern for what is read from an input. -/
def reading : Job :=
  ⟨.library, "test.crn", "(declare read) (let [[a b] (read)] b)"⟩

/-- The second name of a pattern gets a part of the first, a module is sought under a name that has
no value yet, and the second name of a pattern gets a part of another value. -/
theorem outer_value_lost :
    (boundBy shadowing [] "w" = some (.text "2") ∧
      (Machine.data.parts (.word (mangle "v")) packed [[0], [1]]).run [] =
        some ([.pair (.text "1") (.text "2"), .text "3"], [])) ∧
    (boundBy reloading [] "x" = none ∧
      (Machine.data.members (.call (.word "require") [.word (mangle "lib")])
        [(mangle "lib", .text "m.lib")] ["lib", "x"]).run [] =
          some ([.text "m.lib.lib", .text "m.lib.x"], [])) ∧
    (boundBy reading [.pair (.text "1") (.text "2"), .pair (.text "3") (.text "4")] "b" =
        some (.text "4") ∧
      (Machine.data.parts (.call (.word "read") []) [] [[0], [1]]).run
        [.pair (.text "1") (.text "2"), .pair (.text "3") (.text "4")] =
          some ([.text "1", .text "2"], [.pair (.text "3") (.text "4")])) := by
  decide +kernel

end Gen

end LispLua
