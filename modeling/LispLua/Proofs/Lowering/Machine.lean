import LispLua.Proofs.Lowering.Locals

/-!
# Running declarations

What the declarations and assignments of emitted code do to the local names in view, for any machine
that knows Lua's rules for the names, the parentheses and the accesses in them.

A machine need not give a value to all code: what Lua refuses has none. A local name stands for a
value and not for a place in memory, which is enough because emitted code assigns to a local name
only once, right behind its declaration.
-/

namespace LispLua.Lua

/-! ### Local names in view -/

/-- The local names in view, innermost first. -/
abbrev Locals (Value : Type) := List (String × Value)

namespace Locals

variable {Value : Type} {ρ ρ' : Locals Value} {name : String} {v : Value} {c : Code}

/-- Code finds the same in both: of the emitted names only those that are free in it matter. -/
def AgreeOn (c : Code) (ρ ρ' : Locals Value) : Prop :=
  ∀ name, (isMangled name = true → name ∈ c.free) → ρ.lookup name = ρ'.lookup name

theorem AgreeOn.refl (c : Code) (ρ : Locals Value) : AgreeOn c ρ ρ :=
  fun _ _ => rfl

theorem AgreeOn.cons (h : AgreeOn c ρ ρ') (hname : isMangled name = true) (hfree : name ∉ c.free) :
    AgreeOn c ((name, v) :: ρ) ρ' := by
  intro x hx
  have hne : x ≠ name := by
    rintro rfl
    exact hfree (hx hname)
  rw [List.lookup_cons, beq_false_of_ne hne]
  exact h x hx

/-- Give a local name another value. Of two with the same name the inner one is meant. -/
def assign (name : String) (v : Value) : Locals Value → Locals Value
  | [] => []
  | (x, y) :: ρ => if x = name then (x, v) :: ρ else (x, y) :: assign name v ρ

/-- Give local names other values, in order. -/
def assignEach (ρ : Locals Value) (pairs : List (String × Value)) : Locals Value :=
  pairs.foldl (fun ρ p => ρ.assign p.1 p.2) ρ

/-- Bind names to values, in order. -/
def extend (ρ : Locals Value) (names : List String) (values : List Value) : Locals Value :=
  (names.zip values).reverse ++ ρ

theorem extend_cons (ρ : Locals Value) (name : String) (names : List String) (v : Value)
    (values : List Value) :
    ρ.extend (name :: names) (v :: values) = extend ((name, v) :: ρ) names values := by
  simp [extend]

theorem AgreeOn.extend {names : List String} (h : AgreeOn c ρ ρ')
    (hnames : ∀ name ∈ names, isMangled name = true) (hfree : ∀ name ∈ names, name ∉ c.free)
    (values : List Value) : AgreeOn c (ρ.extend names values) ρ' := by
  induction names generalizing ρ values with
  | nil => exact h
  | cons name names ih =>
    obtain ⟨hname, hnames'⟩ := List.forall_mem_cons.1 hnames
    obtain ⟨hnot, hfree'⟩ := List.forall_mem_cons.1 hfree
    cases values with
    | nil => exact h
    | cons v values =>
      rw [extend_cons]
      exact ih (h.cons hname hnot) hnames' hfree' values

/-- An assignment to a name in view looks like another declaration of it. -/
theorem lookup_assign (h : (ρ.lookup name).isSome = true) (x : String) :
    (ρ.assign name v).lookup x = List.lookup x ((name, v) :: ρ) := by
  induction ρ with
  | nil => cases h
  | cons b ρ ih =>
    obtain ⟨y, z⟩ := b
    by_cases hy : y = name
    · subst hy
      rw [assign, if_pos rfl, List.lookup_cons, List.lookup_cons]
      split
      · rfl
      · rename_i hx
        rw [List.lookup_cons, hx]
    · have hname : (ρ.lookup name).isSome = true := by
        rwa [List.lookup_cons, beq_false_of_ne (Ne.symm hy)] at h
      rw [assign, if_neg hy, List.lookup_cons, ih hname, List.lookup_cons, List.lookup_cons,
        List.lookup_cons]
      by_cases hx : x = y
      · subst hx
        rw [beq_self_eq_true, beq_false_of_ne hy]
      · rw [beq_false_of_ne hx]

theorem isSome_lookup_assign {x : String} (h : (ρ.lookup name).isSome = true)
    (hx : (ρ.lookup x).isSome = true) : ((ρ.assign name v).lookup x).isSome = true := by
  rw [lookup_assign h, List.lookup_cons]
  split
  · rfl
  · exact hx

theorem lookup_assignEach {pairs : List (String × Value)}
    (h : ∀ p ∈ pairs, (ρ.lookup p.1).isSome = true) (x : String) :
    (ρ.assignEach pairs).lookup x = (pairs.reverse ++ ρ).lookup x := by
  induction pairs generalizing ρ with
  | nil => rfl
  | cons p pairs ih =>
    obtain ⟨hp, hpairs⟩ := List.forall_mem_cons.1 h
    have hview : ∀ q ∈ pairs, ((ρ.assign p.1 p.2).lookup q.1).isSome = true :=
      fun q hq => isSome_lookup_assign hp (hpairs q hq)
    calc (assignEach ρ (p :: pairs)).lookup x
        = (pairs.reverse ++ ρ.assign p.1 p.2).lookup x := ih hview
      _ = (pairs.reverse ++ (p :: ρ)).lookup x := by
        rw [List.lookup_append, List.lookup_append, lookup_assign hp]
      _ = ((p :: pairs).reverse ++ ρ).lookup x := by
        rw [List.reverse_cons, List.append_assoc, List.singleton_append]

theorem isSome_lookup_zip_iff {names : List String} {values : List Value}
    (hlength : values.length = names.length) (x : String) :
    ((names.zip values).reverse.lookup x).isSome = true ↔ x ∈ names := by
  have hfst : x ∈ (names.zip values).map Prod.fst ↔ x ∈ names := by
    rw [List.map_fst_zip hlength.ge]
  rw [List.lookup_isSome_iff, ← hfst]
  simp only [List.mem_reverse, beq_iff_eq, List.mem_map]
  exact exists_congr fun p => and_congr_right fun _ => eq_comm

theorem isSome_lookup_extend {names : List String} {values : List Value} {x : String}
    (hlength : values.length = names.length) (hx : x ∈ names) :
    ((ρ.extend names values).lookup x).isSome = true := by
  rw [extend, List.lookup_append, Option.isSome_or, (isSome_lookup_zip_iff hlength x).2 hx,
    Bool.true_or]

/-- In `ρ'` the names stand for the values, the last of equal names winning, and every other name
stands for what it does in `ρ`. -/
structure Binds (names : List String) (values : List Value) (ρ ρ' : Locals Value) : Prop where
  length : values.length = names.length
  lookup : ∀ x, ρ'.lookup x = (ρ.extend names values).lookup x

/-- To declare names first and to assign to them later binds them. -/
theorem binds_assignEach {names : List String} {before values : List Value}
    (hbefore : before.length = names.length) (hlength : values.length = names.length) :
    Binds names values ρ ((ρ.extend names before).assignEach (names.zip values)) := by
  refine ⟨hlength, fun x => ?_⟩
  have hview : ∀ p ∈ names.zip values, ((ρ.extend names before).lookup p.1).isSome = true :=
    fun p hp => isSome_lookup_extend hbefore (List.of_mem_zip hp).1
  rw [lookup_assignEach hview, extend, extend, List.lookup_append, List.lookup_append,
    List.lookup_append]
  by_cases hx : x ∈ names
  · obtain ⟨v, hv⟩ := Option.isSome_iff_exists.1 ((isSome_lookup_zip_iff hlength x).2 hx)
    rw [hv, Option.some_or, Option.some_or]
  · have hnone : (names.zip before).reverse.lookup x = none := by
      rw [← Option.not_isSome_iff_eq_none, isSome_lookup_zip_iff hbefore]
      exact hx
    rw [hnone, Option.none_or]

end Locals

/-! ### Machines -/

/-- Code that can stand in front of an index: a word, something in parentheses, or an item of
such. -/
def Code.takesIndex : Code → Bool
  | .paren _ => true
  | .item owner i => Gen.isWord (Code.item owner i).render || owner.takesIndex
  | c => Gen.isWord c.render

/-- A machine that computes the values of code. -/
structure Machine where
  Value : Type
  /-- All that a computation can read or change, apart from local names. -/
  World : Type
  /-- The value of a local name that is declared without one. -/
  nil : Value
  /-- The value of code, if it has one. -/
  eval : Code → Locals Value → StateT World Option Value
  /-- The item of a value. -/
  index : Nat → Value → StateT World Option Value
  /-- The member of a value under a string key. -/
  member : String → Value → StateT World Option Value
  eval_congr : ∀ {c ρ ρ'}, Locals.AgreeOn c ρ ρ' → eval c ρ = eval c ρ'
  eval_paren : ∀ c ρ, eval (.paren c) ρ = eval c ρ
  eval_item : ∀ {c : Code}, c.takesIndex = true → ∀ i ρ, eval (.item c i) ρ = eval c ρ >>= index i
  eval_member : ∀ {table ρ v}, isMangled table = false → ρ.lookup table = some v → ∀ key,
    eval (.member table key) ρ = member key v

/-! ### Statements -/

/-- A statement that declares local names or assigns to them. -/
inductive Statement where
  /-- `local name;` -/
  | declare (name : String)
  /-- `local name = value` -/
  | bind (name : String) (value : Code)
  /-- A block with a local name of its own, and assignments in it. -/
  | block (name : String) (value : Code) (assignments : List (String × Code))

namespace Statement

/-- The text of a statement. -/
def text : Statement → String
  | declare name => "local " ++ name ++ ";\n"
  | bind name value => "local " ++ name ++ " = " ++ value.render
  | block name value assignments =>
    "do local " ++ name ++ " = " ++ value.render ++ "; " ++
      String.join (assignments.map fun a => a.1 ++ " = " ++ a.2.render ++ ";") ++ " end"

end Statement

namespace Code

/-- The statements that a declaration consists of. -/
def statements : Code → List Statement
  | bind name value => [.bind name value]
  | loadMembers names source =>
    names.map (fun n => .declare n.1) ++ [.block "__package" (.call (.word "require") [source])
      (names.map fun n => (n.1, .member "__package" n.2))]
  | _ => []

theorem render_bind (name : String) (value : Code) :
    (bind name value).render = "local " ++ name ++ " = " ++ value.render := by
  rw [render.eq_def]

theorem render_member (table key : String) :
    (member table key).render = table ++ "[\"" ++ key ++ "\"]" := by
  rw [render.eq_def]

theorem render_call_singleton (callee arg : Code) :
    (call callee [arg]).render = callee.render ++ "(" ++ arg.render ++ ")" := by
  rw [render.eq_def]
  rfl

theorem render_loadMembers (names : List (String × String)) (source : Code) :
    (loadMembers names source).render =
      memberDeclarations names ++ "do local __package = require(" ++ source.render ++ "); " ++
        memberAssignments names ++ " end" := by
  rw [render.eq_def]

/-- Code is written as the statements it consists of. -/
theorem render_eq_text {c : Code} (h : c.statements ≠ []) :
    c.render = String.join (c.statements.map Statement.text) := by
  cases c with
  | bind name value =>
    rw [render_bind, statements, List.map_singleton, Statement.text, String.join_cons,
      String.join_nil, String.append_empty]
  | loadMembers names source =>
    -- The printer has in one piece what belongs to a statement and to the code in it.
    have hload (text : String) :
        "do local __package = " ++ ("require(" ++ text) = "do local __package = require(" ++ text :=
      String.append_assoc.symm
    have hkey (text : String) :
        " = " ++ ("__package[\"" ++ text) = " = __package[\"" ++ text :=
      String.append_assoc.symm
    have hword : (word "require").render = "require" := rfl
    rw [render_loadMembers, memberDeclarations, memberAssignments]
    simp only [String.append_assoc, statements, List.map_append, List.map_map, Function.comp_def,
      Statement.text, List.map_cons, render_call_singleton, hword, render_member, List.map_nil,
      String.join_append, String.join_cons, String.join_nil, String.append_empty,
      String.reduceAppend, hload, hkey]
  | _ => exact absurd rfl h

end Code

/-! ### Runs -/

namespace Machine

variable (m : Machine)

/-- Assignments in a row. They reach local names only. -/
def assignAll : List (String × Code) → Locals m.Value → StateT m.World Option (Locals m.Value)
  | [], ρ => return ρ
  | (name, c) :: assignments, ρ => do
    let v ← m.eval c ρ
    if (ρ.lookup name).isSome then assignAll assignments (ρ.assign name v) else failure

/-- What a statement does to the local names in view. -/
def exec : Statement → Locals m.Value → StateT m.World Option (Locals m.Value)
  | .declare name, ρ => return (name, m.nil) :: ρ
  | .bind name c, ρ => return (name, ← m.eval c ρ) :: ρ
  | .block name c assignments, ρ => do
    let v ← m.eval c ρ
    let ρ' ← m.assignAll assignments ((name, v) :: ρ)
    -- Assignments add no name, so the block's own is still the innermost.
    return ρ'.tail

/-- What statements in a row do. -/
def execAll (row : List Statement) (ρ : Locals m.Value) :
    StateT m.World Option (Locals m.Value) :=
  row.foldlM (fun ρ stmt => m.exec stmt ρ) ρ

/-- The part of a value at a path of indices. -/
def project : List Nat → m.Value → StateT m.World Option m.Value
  | [], v => return v
  | i :: path, v => m.index i v >>= project path

/-- The parts of the value of code. -/
def parts (c : Code) (ρ : Locals m.Value) (paths : List (List Nat)) :
    StateT m.World Option (List m.Value) := do
  let v ← m.eval c ρ
  paths.mapM fun path => m.project path v

/-- The parts of the values of code that is computed anew for each. -/
def partsAnew (c : Code) (ρ : Locals m.Value) (paths : List (List Nat)) :
    StateT m.World Option (List m.Value) :=
  paths.mapM fun path => m.eval c ρ >>= m.project path

/-- To compute code anew for each part gives the parts of its value. -/
def Repeatable (c : Code) (ρ : Locals m.Value) (paths : List (List Nat)) (w : m.World) : Prop :=
  ∀ xs w₁, (m.parts c ρ paths).run w = some (xs, w₁) →
    ∃ w₂, (m.partsAnew c ρ paths).run w = some (xs, w₂)

/-- The members of the value of code. -/
def members (c : Code) (ρ : Locals m.Value) (keys : List String) :
    StateT m.World Option (List m.Value) := do
  let v ← m.eval c ρ
  keys.mapM fun key => m.member key v

variable {m} {c : Code} {ρ ρ₀ : Locals m.Value}

theorem execAll_cons (stmt : Statement) (row : List Statement) (ρ : Locals m.Value) :
    m.execAll (stmt :: row) ρ = m.exec stmt ρ >>= m.execAll row :=
  List.foldlM_cons

theorem execAll_append (row row' : List Statement) (ρ : Locals m.Value) :
    m.execAll (row ++ row') ρ = m.execAll row ρ >>= m.execAll row' :=
  List.foldlM_append

theorem eval_part (hc : c.takesIndex = true) (path : List Nat) (ρ : Locals m.Value) :
    m.eval (path.foldl .item c) ρ = m.eval c ρ >>= m.project path := by
  induction path generalizing c with
  | nil => exact (bind_pure _).symm
  | cons i path ih =>
    have hitem : (Code.item c i).takesIndex = true := by rw [Code.takesIndex, hc, Bool.or_true]
    rw [List.foldl_cons, ih hitem, m.eval_item hc, bind_assoc]
    rfl

theorem takesIndex_indexable (c : Code) : (Gen.indexable c).takesIndex = true := by
  unfold Gen.indexable
  split
  · rename_i hword
    cases c with
    | paren => rfl
    | item owner i => rw [Code.takesIndex, hword, Bool.true_or]
    | _ => exact hword
  · rfl

theorem eval_indexable (c : Code) (ρ : Locals m.Value) :
    m.eval (Gen.indexable c) ρ = m.eval c ρ := by
  unfold Gen.indexable
  split
  · rfl
  · exact m.eval_paren c ρ

/-- Declarations in a row, each of a part of one value, compute the value anew for each name. -/
theorem execAll_binds {part : List Nat → Code} {row : List (String × List Nat)}
    (hpart : ∀ p ∈ row, ∀ ρ, m.eval (part p.2) ρ = m.eval c ρ >>= m.project p.2)
    (hrow : ∀ p ∈ row, isMangled p.1 = true)
    (hfree : ∀ name ∈ (row.map Prod.fst).dropLast, name ∉ c.free)
    (hagree : row ≠ [] → ρ.AgreeOn c ρ₀) :
    m.execAll (row.map fun p => .bind p.1 (part p.2)) ρ = do
      return ρ.extend (row.map Prod.fst) (← m.partsAnew c ρ₀ (row.map Prod.snd)) := by
  induction row generalizing ρ with
  | nil => rfl
  | cons p row ih =>
    obtain ⟨hp, hrow'⟩ := List.forall_mem_cons.1 hrow
    obtain ⟨hfirst, hpart'⟩ := List.forall_mem_cons.1 hpart
    have hvalue : m.eval (part p.2) ρ = m.eval c ρ₀ >>= m.project p.2 := by
      rw [hfirst, m.eval_congr (hagree (List.cons_ne_nil _ _))]
    -- The last name may hide one that the value uses, for nothing is computed behind it.
    have hrest (v : m.Value) :
        m.execAll (row.map fun p => .bind p.1 (part p.2)) ((p.1, v) :: ρ) = do
          return Locals.extend ((p.1, v) :: ρ) (row.map Prod.fst)
            (← m.partsAnew c ρ₀ (row.map Prod.snd)) := by
      apply ih hpart' hrow'
      · intro name hname
        apply hfree name
        cases row with
        | nil => cases hname
        | cons q row => exact List.mem_cons_of_mem _ hname
      · intro hne
        apply (hagree (List.cons_ne_nil _ _)).cons hp
        apply hfree
        rw [List.map_cons, List.dropLast_cons_of_ne_nil (by simpa using hne)]
        exact List.mem_cons_self
    simp only [List.map_cons, execAll_cons, exec, hvalue, bind_assoc, pure_bind, hrest, partsAnew,
      List.mapM_cons, Locals.extend_cons]

/-! ### Members of modules -/

variable (m) in
/-- The local names in view where names are declared without values. -/
def declared (names : List String) (ρ : Locals m.Value) : Locals m.Value :=
  ρ.extend names (names.map fun _ => m.nil)

theorem execAll_declare (names : List String) (ρ : Locals m.Value) :
    m.execAll (names.map .declare) ρ = pure (m.declared names ρ) := by
  induction names generalizing ρ with
  | nil => rfl
  | cons name names ih =>
    rw [List.map_cons, execAll_cons, exec, pure_bind, ih, declared, declared, List.map_cons,
      Locals.extend_cons]

/-- Assignments of members keep to the value that the block has under its own name. -/
theorem assignAll_members {names : List (String × String)} (v : m.Value)
    (hnames : ∀ n ∈ names, isMangled n.1 = true)
    (hview : ∀ n ∈ names, (ρ.lookup n.1).isSome = true) :
    m.assignAll (names.map fun n => (n.1, .member "__package" n.2)) (("__package", v) :: ρ) = do
      let xs ← (names.map Prod.snd).mapM fun key => m.member key v
      return ("__package", v) :: ρ.assignEach ((names.map Prod.fst).zip xs) := by
  induction names generalizing ρ with
  | nil => rfl
  | cons n names ih =>
    obtain ⟨hn, hnames'⟩ := List.forall_mem_cons.1 hnames
    obtain ⟨hin, hview'⟩ := List.forall_mem_cons.1 hview
    have hne : "__package" ≠ n.1 := by
      rintro heq
      rw [← heq] at hn
      exact absurd hn (by decide)
    have hlookup : (List.lookup n.1 (("__package", v) :: ρ)).isSome = true := by
      rwa [List.lookup_cons, beq_false_of_ne hne.symm]
    have hassign (x : m.Value) :
        Locals.assign n.1 x (("__package", v) :: ρ) = ("__package", v) :: ρ.assign n.1 x := by
      rw [Locals.assign, if_neg hne]
    have hkept (x : m.Value) : ∀ n' ∈ names, ((ρ.assign n.1 x).lookup n'.1).isSome = true :=
      fun n' hn' => Locals.isSome_lookup_assign hin (hview' n' hn')
    rw [List.map_cons, assignAll, m.eval_member (by decide) List.lookup_cons_self]
    simp only [hlookup, if_true, hassign, ih hnames' (hkept _), List.map_cons, List.mapM_cons,
      bind_assoc, pure_bind, List.zip_cons_cons]
    rfl

/-- Between the declarations and the assignments the module is loaded once. -/
theorem execAll_loadMembers {names : List (String × String)} {source : Code}
    (hnames : ∀ n ∈ names, isMangled n.1 = true) (hfree : ∀ n ∈ names, n.1 ∉ source.free)
    (ρ : Locals m.Value) :
    m.execAll (Code.loadMembers names source).statements ρ = do
      let xs ← m.members (.call (.word "require") [source]) ρ (names.map Prod.snd)
      return (m.declared (names.map Prod.fst) ρ).assignEach ((names.map Prod.fst).zip xs) := by
  have hdeclare : names.map (fun n => Statement.declare n.1) =
      (names.map Prod.fst).map .declare := by
    rw [List.map_map]
    rfl
  have hagree : Locals.AgreeOn (.call (.word "require") [source])
      (m.declared (names.map Prod.fst) ρ) ρ := by
    apply (Locals.AgreeOn.refl _ ρ).extend
    · exact List.forall_mem_map.2 hnames
    · intro name hname
      obtain ⟨n, hn, rfl⟩ := List.mem_map.1 hname
      have hsource : (Code.call (.word "require") [source]).free = source.free := by
        rw [Code.free, Code.freeAll_singleton]
        rfl
      rw [hsource]
      exact hfree n hn
  have hview : ∀ n ∈ names, ((m.declared (names.map Prod.fst) ρ).lookup n.1).isSome = true :=
    fun n hn => Locals.isSome_lookup_extend (List.length_map _) (List.mem_map_of_mem hn)
  rw [Code.statements, execAll_append, hdeclare, execAll_declare, pure_bind, execAll_cons]
  simp only [exec, m.eval_congr hagree, assignAll_members _ hnames hview, members, bind_assoc,
    pure_bind, List.tail_cons]
  rfl

/-! ### Results -/

theorem Repeatable.of_run {paths : List (List Nat)} {w w₁ w₂ : m.World} {xs : List m.Value}
    (h : (m.parts c ρ paths).run w = some (xs, w₁))
    (hanew : (m.partsAnew c ρ paths).run w = some (xs, w₂)) : m.Repeatable c ρ paths w := by
  intro ys w' hys
  cases h.symm.trans hys
  exact ⟨w₂, hanew⟩

theorem length_of_mapM {α β : Type} {σ : Type} {f : α → StateT σ Option β} {as : List α}
    {bs : List β} {w w' : σ} (h : (as.mapM f).run w = some (bs, w')) : bs.length = as.length := by
  induction as generalizing bs w with
  | nil =>
    cases h
    rfl
  | cons a as ih =>
    rw [List.mapM_cons] at h
    obtain ⟨⟨b, w₁⟩, -, h⟩ := Option.bind_eq_some_iff.1 h
    obtain ⟨⟨bs', w₂⟩, hbs, h⟩ := Option.bind_eq_some_iff.1 h
    cases h
    rw [List.length_cons, List.length_cons, ih hbs]

/-- Names that get parts of a value computed anew get those of the value, if it is repeatable. -/
theorem exists_binds_of_parts {stmts : List Statement} {names : List String}
    {paths : List (List Nat)} (hlength : paths.length = names.length)
    (hexec : m.execAll stmts ρ = do return ρ.extend names (← m.partsAnew c ρ paths))
    {w w₁ : m.World} {xs : List m.Value} (hrepeatable : m.Repeatable c ρ paths w)
    (h : (m.parts c ρ paths).run w = some (xs, w₁)) :
    ∃ ρ' w', (m.execAll stmts ρ).run w = some (ρ', w') ∧ Locals.Binds names xs ρ ρ' := by
  obtain ⟨w₂, hanew⟩ := hrepeatable xs w₁ h
  refine ⟨ρ.extend names xs, w₂, ?_, (length_of_mapM hanew).trans hlength, fun _ => rfl⟩
  rw [hexec, StateT.run_bind, hanew]
  rfl

/-- A load of members binds them. -/
theorem exists_binds_of_members {names : List (String × String)} {source : Code}
    (hnames : ∀ n ∈ names, isMangled n.1 = true) (hfree : ∀ n ∈ names, n.1 ∉ source.free)
    {w w' : m.World} {xs : List m.Value}
    (h : (m.members (.call (.word "require") [source]) ρ (names.map Prod.snd)).run w =
      some (xs, w')) :
    ∃ ρ', (m.execAll (Code.loadMembers names source).statements ρ).run w = some (ρ', w') ∧
      Locals.Binds (names.map Prod.fst) xs ρ ρ' := by
  have hlength : xs.length = (names.map Prod.fst).length := by
    obtain ⟨⟨v, w₁⟩, -, hxs⟩ := Option.bind_eq_some_iff.1 h
    rw [length_of_mapM hxs, List.length_map, List.length_map]
  refine ⟨(m.declared (names.map Prod.fst) ρ).assignEach ((names.map Prod.fst).zip xs), ?_,
    Locals.binds_assignEach (List.length_map _) hlength⟩
  rw [execAll_loadMembers hnames hfree, StateT.run_bind, h]
  rfl

end Machine

/-! ### A machine for data -/

/-- Texts, and lists of data. -/
inductive Datum where
  | nil
  | text (text : String)
  | cons (head tail : Datum)
  deriving DecidableEq

namespace Datum

/-- A list of two. -/
def pair (first second : Datum) : Datum :=
  cons first (cons second nil)

/-- The item of a list. -/
def index : Nat → Datum → StateT (List Datum) Option Datum
  | 0, cons head _ => return head
  | i + 1, cons _ tail => index i tail
  | _, _ => failure

/-- The member of a module, which is its name. -/
def member (key : String) : Datum → StateT (List Datum) Option Datum
  | text name => return text (name ++ "." ++ key)
  | _ => failure

/-- A module, by its name. -/
def load : Datum → StateT (List Datum) Option Datum
  | text name => return text name
  | _ => failure

/-- The next datum of the input. -/
def next : StateT (List Datum) Option Datum
  | [] => none
  | d :: ds => some (d, ds)

mutual

/-- The value of code that is about data. A call without arguments reads from the input, and names
from elsewhere stand for themselves. -/
def eval : Code → Locals Datum → StateT (List Datum) Option Datum
  | .word name, ρ => return (ρ.lookup name).getD (if isMangled name then nil else text name)
  | .paren c, ρ => eval c ρ
  | .item c i, ρ => eval c ρ >>= index i
  | .member table key, ρ =>
    if isMangled table then failure else
      match ρ.lookup table with
      | some d => d.member key
      | none => failure
  | .list cs, ρ => if Code.declaredAll cs = [] then evalAll cs ρ else failure
  | .call _ [], _ => next
  | .call (.word callee) [c], ρ => if callee = "require" then eval c ρ >>= load else failure
  | _, _ => failure

/-- The list of the values of some code. -/
def evalAll : List Code → Locals Datum → StateT (List Datum) Option Datum
  | [], _ => return nil
  | c :: cs, ρ => return cons (← eval c ρ) (← evalAll cs ρ)

end

mutual

theorem eval_congr {ρ ρ' : Locals Datum} (c : Code) (h : Locals.AgreeOn c ρ ρ') :
    eval c ρ = eval c ρ' := by
  cases c with
  | word name =>
    have hname : ρ.lookup name = ρ'.lookup name :=
      h name fun hmangled => by simp [Code.free, hmangled]
    rw [eval, eval, hname]
  | paren c =>
    rw [eval, eval]
    exact eval_congr c h
  | item c i =>
    have hc := eval_congr c h
    rw [eval, eval, hc]
  | member table key =>
    rw [eval, eval]
    split
    · rfl
    · rename_i hplain
      rw [h table fun hmangled => absurd hmangled hplain]
  | list cs =>
    rw [eval, eval]
    split
    · rename_i hdeclared
      refine evalAll_congr cs fun c hc name hname => h name fun hmangled => ?_
      exact Code.mem_freeAll hdeclared hc (hname hmangled)
    · rfl
  | call callee cs =>
    cases cs with
    | nil => rw [eval, eval]
    | cons c cs =>
      cases cs with
      | nil =>
        cases callee with
        | word callee =>
          have hc : eval c ρ = eval c ρ' := by
            refine eval_congr c fun name hname => h name fun hmangled => ?_
            rw [Code.free, Code.freeAll_singleton]
            exact List.mem_append_right _ (hname hmangled)
          rw [eval, eval, hc]
        | _ => rfl
      | cons => cases callee <;> rfl
  | _ => rfl

theorem evalAll_congr {ρ ρ' : Locals Datum} (cs : List Code)
    (h : ∀ c ∈ cs, Locals.AgreeOn c ρ ρ') : evalAll cs ρ = evalAll cs ρ' := by
  cases cs with
  | nil => rfl
  | cons c cs =>
    obtain ⟨hc, hcs⟩ := List.forall_mem_cons.1 h
    rw [evalAll, evalAll, eval_congr c hc, evalAll_congr cs hcs]

end

end Datum

/-- A machine for data, with an input that calls read from. -/
abbrev Machine.data : Machine where
  Value := Datum
  World := List Datum
  nil := .nil
  eval := Datum.eval
  index := Datum.index
  member := Datum.member
  eval_congr h := Datum.eval_congr _ h
  eval_paren c ρ := by rw [Datum.eval]
  eval_item _ i ρ := by rw [Datum.eval]
  eval_member htable hlookup key := by
    rw [Datum.eval, if_neg (Bool.eq_false_iff.1 htable), hlookup]

end LispLua.Lua
