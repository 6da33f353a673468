import LispLua.Proofs.Scope.Moves
import LispLua.Term.Reader

/-!
# Redeclared names of a package

A name of the package can be declared once. What is remembered for it is the entry at the root, and
that entry is also written by a declaration for every package and by a local one outside all layers.
Such a declaration releases the name, and the package can declare it again. So declarations are not
bounded by one, but by the releases before: the two can be counted against each other exactly.
-/

namespace LispLua

namespace Session

/-- The entry of a name at the root is one of the package. -/
def holds (s : Session) (name : String) : Bool :=
  (s.scope.getRoot? name).any (·.reach == .package)

/-- A move that declares a name for the package. -/
def Move.declares (name : String) : Move → Bool
  | .register token _ .package _ => token.text == name
  | _ => false

/-- A move that puts another declaration of a name at the root. -/
def Move.replaces (s : Session) (name : String) : Move → Bool
  | .register token _ .everywhere _ => token.text == name
  | .register token _ .block _ => s.scope.inner.isEmpty && token.text == name
  | _ => false

/-- A declaration of a name for the package that is accepted. -/
def takes (name : String) (s : Session) (m : Move) : Bool :=
  m.declares name && (s.fault? m).isNone

/-- A declaration that replaces a name of the package. -/
def releases (name : String) (s : Session) (m : Move) : Bool :=
  s.holds name && m.replaces s name

/-- The number of moves of a kind, each judged in the session before it. -/
def tally (options : Options) (p : Session → Move → Bool) : Session → List Move → Nat
  | _, [] => 0
  | s, m :: ms => (p s m).toNat + tally options p (s.perform options m) ms

/-- How often a name is declared for the package. -/
def declared (options : Options) (name : String) : Session → List Move → Nat :=
  tally options (takes name)

/-- How often a name of the package is replaced. -/
def released (options : Options) (name : String) : Session → List Move → Nat :=
  tally options (releases name)

variable {options : Options} {s : Session} {name : String}

/-! ### What one move does to a name of the package -/

theorem holds_setRoot (key : String) (b : Binding) :
    holds { s with scope := s.scope.setRoot key b } name =
      if key = name then b.reach == .package else s.holds name := by
  by_cases h : key = name
  · subst h
    rw [if_pos rfl, holds, Layers.getRoot?_setRoot_self]
    rfl
  · rw [if_neg h, holds, Layers.getRoot?_setRoot_of_ne _ _ (Ne.symm h)]
    rfl

/-- A write into a layer other than the root does not touch the names of the package. -/
theorem holds_set (key : String) (b : Binding) :
    holds { s with scope := s.scope.set key b } name =
      if s.scope.inner.isEmpty && key == name then b.reach == .package else s.holds name := by
  obtain ⟨⟨root, _ | ⟨layer, outer⟩⟩, package, moduleName, log⟩ := s
  · simp only [List.isEmpty_nil, Bool.true_and, beq_iff_eq]
    exact holds_setRoot (s := ⟨⟨root, []⟩, package, moduleName, log⟩) key b
  · rfl

/-- A name of the package is refused if it is held. -/
theorem register_package (token : Token) (kind : Kind) (preserve : Bool) :
    s.register token kind .package preserve =
      if s.holds token.text then .error ⟨.redeclared token.text, token.span⟩
      else
        let b := Binding.declare token.text kind .package preserve
        .ok (b, { s with scope := s.scope.setRoot token.text b }) := rfl

/-- A declaration that reaches the root decides whether the name is held. -/
theorem holds_perform_register (options : Options) (token : Token) (kind : Kind) (reach : Reach)
    (preserve : Bool) :
    (s.perform options (.register token kind reach preserve)).holds name =
      if token.text = name ∧ (reach = .block → s.scope.inner.isEmpty) then reach == .package
      else s.holds name := by
  cases reach with
  | block =>
    rw [perform, register, holds_set]
    simp [Binding.declare, and_comm]
  | everywhere =>
    rw [perform, register, holds_setRoot]
    simp [Binding.declare]
  | package =>
    rw [perform, register_package]
    by_cases hname : token.text = name
    · subst hname
      cases hheld : s.holds token.text with
      | true => simp [hheld]
      | false => simp [holds_setRoot, Binding.declare]
    · cases s.holds token.text with
      | true => simp [hname]
      | false => simp [holds_setRoot, hname]

/-- A name is taken if it is declared for the package and not held. -/
theorem takes_package (token : Token) (kind : Kind) (preserve : Bool) :
    s.takes name (.register token kind .package preserve) =
      (token.text == name && !s.holds name) := by
  rw [takes, Move.declares, fault?, register_package]
  by_cases hname : token.text = name
  · subst hname
    cases s.holds token.text with
    | true => simp
    | false => simp
  · rw [beq_false_of_ne hname, Bool.false_and, Bool.false_and]

/-- Each move balances: taking a name makes it held, and releasing it makes it free. -/
theorem takes_add_holds (options : Options) (name : String) (s : Session) (m : Move) :
    (s.takes name m).toNat + (s.holds name).toNat =
      (s.releases name m).toNat + ((s.perform options m).holds name).toNat := by
  cases m with
  | enter | leave | nameModule | publish | tell =>
    show (false && _).toNat + _ = (s.holds name && false).toNat + (s.holds name).toNat
    rw [Bool.false_and, Bool.and_false]
  | register token kind reach preserve =>
    rw [holds_perform_register, releases]
    cases reach with
    | package =>
      rw [takes_package]
      by_cases hname : token.text = name
      · cases s.holds name with
        | true => simp [hname, Move.replaces]
        | false => simp [hname, Move.replaces]
      · simp [hname, Move.replaces]
    | everywhere =>
      by_cases hname : token.text = name
      · simp [hname, takes, Move.declares, Move.replaces]
      · simp [hname, takes, Move.declares, Move.replaces]
    | block =>
      by_cases hname : token.text = name
      · cases hroot : s.scope.inner.isEmpty with
        | true => simp [hname, hroot, takes, Move.declares, Move.replaces]
        | false => simp [hname, hroot, takes, Move.declares, Move.replaces]
      · simp [hname, takes, Move.declares, Move.replaces]

/-! ### What moves in a row do -/

/-- What moves declare and release, against what is held before and behind them. -/
theorem declared_add_holds (options : Options) (name : String) (s : Session) (ms : List Move) :
    declared options name s ms + (s.holds name).toNat =
      released options name s ms + ((s.performAll options ms).holds name).toNat := by
  induction ms generalizing s with
  | nil => rfl
  | cons m ms ih =>
    have hstep := takes_add_holds options name s m
    have hrest := ih (s.perform options m)
    simp only [declared, released, tally, performAll_cons] at hrest ⊢
    omega

/-- From the start on, nothing is held but what has been declared. -/
theorem declared_start (ms : List Move) :
    declared options name start ms =
      released options name start ms + ((start.performAll options ms).holds name).toNat :=
  declared_add_holds options name start ms

/-- What is held stays held until it is released. -/
theorem holds_performAll (hs : s.holds name) {ms : List Move}
    (hms : released options name s ms = 0) : (s.performAll options ms).holds name := by
  have hrun := declared_add_holds options name s ms
  rw [hs, hms, Bool.toNat_true] at hrun
  have hle := Bool.toNat_le ((s.performAll options ms).holds name)
  exact Bool.toNat_eq_one.1 (by omega)

/-- Behind a declaration for the package the name is held, whether it was accepted or not. -/
theorem holds_perform_package (options : Options) (token : Token) (kind : Kind)
    (preserve : Bool) :
    (s.perform options (.register token kind .package preserve)).holds token.text := by
  simp [holds_perform_register]

/-- Of moves that are all accepted, each declaration counts. -/
theorem declared_of_accepts {ms : List Move} (h : s.Accepts options ms) :
    declared options name s ms = ms.countP (Move.declares name) := by
  induction ms generalizing s with
  | nil => rfl
  | cons m ms ih =>
    have htakes : s.takes name m = m.declares name := by
      rw [takes, h.1, Option.isNone_none, Bool.and_true]
    have hrest := ih h.2
    rw [declared] at hrest ⊢
    rw [tally, htakes, hrest, List.countP_cons, Nat.add_comm]
    cases m.declares name
    · rfl
    · rfl

end Session

open Session Gen

/-- A declaration that is refused leaves the session as it was. -/
theorem Gen.exec_register_package_iff (job : Job) (s : Session) (token : Token) (kind : Kind)
    (preserve : Bool) :
    (register token kind .package preserve).exec job s =
        (.error ⟨.redeclared token.text, token.span⟩, s) ↔ s.holds token.text := by
  rw [exec_register, register_package]
  cases s.holds token.text with
  | true => simp
  | false => simp

/-- A name of the package is held from its declaration on until a declaration of another reach
replaces it at the root, and refused with a type error as long as it is held. From the start on, the
accepted declarations are the releases and one more if the name is held; so a declaration is refused
exactly if the declarations before it outnumber the releases, and it then leaves the session as it
was. The same account holds of the moves of a program. -/
theorem package_names_held_until_released (job : Job) (token : Token) (kind : Kind)
    (preserve : Bool) :
    (∀ ms : List Move, declared job.options token.text .start ms =
      released job.options token.text .start ms +
        ((start.performAll job.options ms).holds token.text).toNat) ∧
    (∀ ms : List Move, (register token kind .package preserve).exec job
          (start.performAll job.options ms) =
        (.error ⟨.redeclared token.text, token.span⟩, start.performAll job.options ms) ↔
      released job.options token.text .start ms < declared job.options token.text .start ms) ∧
    (Cause.redeclared token.text).category = .mistyped ∧
    (∀ (before between : List Move) (first : Token) (kind' : Kind) (preserve' : Bool),
      first.text = token.text →
      released job.options token.text (start.performAll job.options
        (before ++ [.register first kind' .package preserve'])) between = 0 →
      let s := start.performAll job.options
        (before ++ [.register first kind' .package preserve'] ++ between)
      (register token kind .package preserve).exec job s =
        (.error ⟨.redeclared token.text, token.span⟩, s)) ∧
    ∀ p : Program, (∃ ms, Performs job (program p) .start ms) ∧
      ∀ ms, Performs job (program p) .start ms →
        ((program p).exec job .start).2 = start.performAll job.options ms ∧
        ∀ c, ((program p).exec job .start).1 = .ok c →
          ms.countP (Move.declares token.text) =
            released job.options token.text .start ms +
              (((program p).exec job .start).2.holds token.text).toNat := by
  refine ⟨declared_start, fun ms => ?_, rfl, ?_, fun p => ⟨exists_performs_program p _, ?_⟩⟩
  · rw [exec_register_package_iff, declared_start, ← Bool.toNat_eq_one]
    have hle := Bool.toNat_le ((start.performAll job.options ms).holds token.text)
    omega
  · intro before between first kind' preserve' hfirst hreleased
    rw [exec_register_package_iff, performAll_append _ between]
    refine holds_performAll ?_ hreleased
    rw [performAll_append, ← hfirst]
    exact holds_perform_package job.options first kind' preserve'
  · intro ms hms
    refine ⟨hms.performAll_eq, fun c hc => ?_⟩
    rw [← declared_of_accepts (hms.accepts hc), hms.performAll_eq, declared_start]

/-- A name of the package that is declared again, once another package may use it. -/
def releasing : Job :=
  ⟨.library, "test.crn", "(def x 1) (declare x :global) (def x 2)"⟩

/-- A local name of a layer does not release a name of the package. -/
theorem package_names_held_until_released_layer :
    let x : Token := ⟨"x", default⟩
    let before : List Move := [.enter (some true), .register x .value .everywhere false, .leave]
    let between : List Move := [.enter none, .register x .function .block false, .leave]
    let s := start.performAll releasing.options
      (before ++ [.register x .value .package false] ++ between)
    released releasing.options "x" (start.performAll releasing.options
        (before ++ [.register x .value .package false])) between = 0 ∧
      (register x .function .package true).exec releasing s =
        (.error ⟨.redeclared "x", default⟩, s) := by
  have hreleased : released releasing.options "x" (start.performAll releasing.options
      ([.enter (some true), .register ⟨"x", default⟩ .value .everywhere false, .leave] ++
        [.register ⟨"x", default⟩ .value .package false]))
      [.enter none, .register ⟨"x", default⟩ .function .block false, .leave] = 0 := by
    decide
  refine ⟨hreleased, ?_⟩
  exact (package_names_held_until_released releasing ⟨"x", default⟩ .function true).2.2.2.1
    [.enter (some true), .register ⟨"x", default⟩ .value .everywhere false, .leave] _
    ⟨"x", default⟩ .value false rfl hreleased

/-- A declaration for every package releases the name. The moves hold two accepted declarations for
the package, and a program that makes them is accepted. -/
theorem package_name_declared_twice :
    declared releasing.options "x" .start
        [.register ⟨"x", default⟩ .value .package false,
          .register ⟨"x", default⟩ .value .everywhere true,
          .register ⟨"x", default⟩ .value .package false] = 2 ∧
      (parse releasing.code).toOption.map (fun p =>
          let (result, s) := (program p).exec releasing .start
          (result.toOption.isSome, s.scope.root.map fun e => (e.1, e.2.reach))) =
        some (true, [("x", .package), ("x", .everywhere), ("x", .package)]) := by
  decide +kernel

end LispLua
