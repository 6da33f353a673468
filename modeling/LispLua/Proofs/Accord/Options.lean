import LispLua.Proofs.Accord.Forms
import LispLua.Proofs.Lowering.Literal
import LispLua.Proofs.Pairing.Weakening

/-!
# Options

Options change the text of a program that is accepted, and nothing else. What a target changes are
powers only, and the name of a source shows up only in packages that are published.

A program without the name `^` cannot reach the operator. That is not a fact about one form: the
name could come up anywhere. So the operator is hidden first by a declaration of that name at the
root, which such a program does not notice, and with the name hidden no session leads to the
operator.
-/

namespace LispLua

open Lua

/-- The version of a target behind the point; the number in front of it is always 5. -/
def Target.minor : Target → Nat
  | lua51 => 1
  | lua52 => 2
  | lua53 => 3
  | lua54 => 4

theorem Target.powerIsCall_eq (t : Target) : t.powerIsCall = decide (t.minor < 3) := by
  cases t <;> rfl

/-- How the statements of a program are lowered by a compilation. -/
def lowering (source sourceName : String) (options : Options) (p : Program) :
    Except Fault (List Stmt) × Session :=
  (Gen.statements p).exec ⟨options, sourceName, source⟩
    (Session.start.publish ⟨options, sourceName, source⟩)

/-- The result of a compilation, by how its statements are lowered. -/
theorem fst_compile {source : String} {p : Program} (hp : parse source = .ok p)
    (sourceName : String) (options : Options) :
    (compile source sourceName options).1 =
      ((lowering source sourceName options p).1.map fun stmts =>
        (Chunk.mk options (lowering source sourceName options p).2.package stmts).render).mapError
        fun f => .compilation sourceName source (f.failure source) := by
  simp only [compile, hp, Gen.exec_program, lowering]
  rcases (Gen.statements p).exec ⟨options, sourceName, source⟩
    (Session.start.publish ⟨options, sourceName, source⟩) with ⟨f | stmts, s⟩
  · rfl
  · obtain ⟨log, hchunk⟩ := Gen.exec_chunk stmts ⟨options, sourceName, source⟩ s
    simp only [hchunk]
    rfl

theorem fst_compile_of_unreadable {source : String} {f : Fault} (hp : parse source = .error f)
    (sourceName : String) (options : Options) :
    (compile source sourceName options).1 =
      .error (.compilation sourceName source (f.failure source)) := by
  simp only [compile, hp]

namespace Gen

/-! ### Sessions that declare the same -/

/-- Two sessions have declared the same names. If the code is to be the same they reach the package
in the same way, and a hidden operator `^` stays hidden. -/
structure Alike (exact shadowed : Prop) (s s' : Session) : Prop where
  scope : s'.scope = s.scope
  package : exact → s'.package = s.package
  hidden : shadowed → (s.scope.getRoot? "^").isSome = true

namespace Alike

variable {exact shadowed : Prop} {s s' : Session}

theorem isPure_eq (h : Alike exact shadowed s s') : s'.isPure = s.isPure := by
  rw [Session.isPure, Session.isPure, h.scope]

theorem find?_eq (h : Alike exact shadowed s s') (n : String) : s'.find? n = s.find? n := by
  rw [Session.find?, Session.find?, h.scope]

theorem enter (h : Alike exact shadowed s s') (pure? : Option Bool) :
    Alike exact shadowed (s.enter pure?) (s'.enter pure?) := by
  refine ⟨?_, h.package, h.hidden⟩
  rw [Session.enter, Session.enter, h.isPure_eq, h.scope]

theorem leave (h : Alike exact shadowed s s') : Alike exact shadowed s.leave s'.leave :=
  ⟨congrArg Layers.leave h.scope, h.package, h.hidden⟩

theorem isSome_lookup_cons {entries : List (String × Binding)} {key : String}
    (h : (entries.lookup key).isSome = true) (entry : String × Binding) :
    ((entry :: entries).lookup key).isSome = true := by
  rw [List.lookup_cons]
  split
  · rfl
  · exact h

theorem setRoot (h : Alike exact shadowed s s') (n : String) (b : Binding) :
    Alike exact shadowed { s with scope := s.scope.setRoot n b }
      { s' with scope := s'.scope.setRoot n b } :=
  ⟨congrArg (Layers.setRoot · n b) h.scope, h.package,
    fun hshadowed => isSome_lookup_cons (h.hidden hshadowed) _⟩

theorem set (h : Alike exact shadowed s s') (n : String) (b : Binding) :
    Alike exact shadowed { s with scope := s.scope.set n b }
      { s' with scope := s'.scope.set n b } := by
  refine ⟨congrArg (Layers.set · n b) h.scope, h.package, fun hshadowed => ?_⟩
  have hroot := h.hidden hshadowed
  obtain ⟨⟨root, inner⟩, _⟩ := s
  cases inner with
  | nil => exact isSome_lookup_cons hroot _
  | cons layer outer => exact hroot

theorem nameModule {o o' : Options} (h : Alike exact shadowed s s')
    (hpublish : exact → o'.publish = o.publish) (n : String) :
    Alike exact shadowed (s.nameModule o n) (s'.nameModule o' n) := by
  refine ⟨h.scope, fun he => ?_, h.hidden⟩
  rw [Session.nameModule, Session.nameModule, hpublish he, h.package he]

end Alike

/-- With the name declared at the root, no name refers to the operator. -/
theorem ne_power_of_hidden {s : Session} {n : String} {m : Meaning}
    (h : (s.scope.getRoot? "^").isSome = true) (hfind : s.find? n = some m) :
    m.form? ≠ some (.operator .pow) := by
  intro hform
  have hname : ∀ e ∈ Standard.table, (Meaning.standard e).form? = some (.operator .pow) →
      e.surface = "^" := by
    decide +kernel
  unfold Session.find? at hfind
  split at hfind
  · cases hfind
    cases hform
  · rename_i hget
    obtain ⟨e, he, rfl⟩ := Option.map_eq_some_iff.1 hfind
    have hsurface : e.surface = n := by simpa using List.find?_some he
    rw [← hsurface, hname e (Standard.mem_table_of_find? he) hform, Layers.get?,
      Option.orElse_eq_orElse, Option.orElse_eq_or, Option.or_eq_none_iff] at hget
    rw [hget.2] at h
    cases h

/-- What two jobs have in common. The code is the same if nothing that it depends on differs, or if
the operator `^` is all that is affected and is hidden. -/
def jobAccord (exact shadowed : Prop) (job job' : Job)
    (hvariadic : exact → job'.options.variadic = job.options.variadic)
    (hpublish : exact → job'.options.publish = job.options.publish)
    (hpower : exact → shadowed ∨ job'.options.target.powerIsCall = job.options.target.powerIsCall) :
    Accord where
  exact := exact
  excused _ := False
  job := job
  job' := job'
  session := Alike exact shadowed
  variadic_eq := hvariadic
  find?_eq n h := h.find?_eq n
  getRoot?_eq n h := by rw [h.scope]
  isPure_eq h := .inl h.isPure_eq
  package_eq he h := h.package he
  power_eq he h hfind hform := by
    rcases hpower he with hshadowed | heq
    · exact absurd hform (ne_power_of_hidden (h.hidden hshadowed) hfind)
    · funext base exponent
      rw [power, power, heq]
  session_enter pure? h := h.enter pure?
  session_leave h := h.leave
  session_set n b h := h.set n b
  session_setRoot n b h := h.setRoot n b
  session_nameModule n h := h.nameModule hpublish n
  session_log _ _ _ h := ⟨h.scope, h.package, h.hidden⟩

variable {o o' : Options} {p : Program}

/-- Whether the statements of a program can be lowered does not depend on options and names, and if
they cannot the fault is the same. -/
theorem lowering_agrees (source sourceName otherName : String) (o o' : Options) (p : Program) :
    (∃ stmts stmts', (lowering source sourceName o p).1 = .ok stmts ∧
        (lowering source otherName o' p).1 = .ok stmts') ∨
      ∃ f, (lowering source sourceName o p).1 = .error f ∧
        (lowering source otherName o' p).1 = .error f := by
  let A := jobAccord False False ⟨o, sourceName, source⟩ ⟨o', otherName, source⟩ False.elim
    False.elim False.elim
  have hruns : A.Runs A.Same (statements p) (statements p) := Accord.runs_statements p
  have hstart : Alike False False (Session.start.publish A.job) (Session.start.publish A.job') :=
    ⟨rfl, False.elim, False.elim⟩
  exact (hruns hstart).agree fun _ => id

/-- The statements of a program are the same under jobs that agree on what the code depends on. -/
theorem statements_eq (p : Program) (job job' : Job) {s s' : Session}
    (hvariadic : job'.options.variadic = job.options.variadic)
    (hpublish : job'.options.publish = job.options.publish)
    (hpower : (s.scope.getRoot? "^").isSome = true ∨
      job'.options.target.powerIsCall = job.options.target.powerIsCall)
    (hscope : s'.scope = s.scope) (hpackage : s'.package = s.package) :
    ((statements p).exec job' s').1 = ((statements p).exec job s).1 ∧
      ((statements p).exec job' s').2.package = ((statements p).exec job s).2.package := by
  let A := jobAccord True ((s.scope.getRoot? "^").isSome = true) job job' (fun _ => hvariadic)
    (fun _ => hpublish) fun _ => hpower
  have hruns : A.Runs A.Same (statements p) (statements p) := Accord.runs_statements p
  obtain ⟨heq, hs⟩ := (hruns ⟨hscope, fun _ => hpackage, id⟩).eq trivial fun _ => id
  exact ⟨heq, hs.package trivial⟩

/-- A program without the name `^` does not notice that the operator is hidden. -/
theorem statements_hidden (hp : ∀ c ∈ p, "^" ∉ c.term.names) (job : Job) (s : Session)
    (b : Binding) :
    ((statements p).exec job (s.put 0 "^" (some b))).1 = ((statements p).exec job s).1 ∧
      ((statements p).exec job (s.put 0 "^" (some b))).2.package =
        ((statements p).exec job s).2.package := by
  have hname : "^" ∉ impliedNames := by decide
  have hterms := hereditary_names 0 hname
  have haccounts := (weakeningPairing 0 hname).accounts_of_cause (fun _ => trivial) term
  have hruns := Pairing.runs_statements haccounts
    (List.forall₂_same.2 fun c hc => hterms.terms (hp c hc))
  obtain ⟨heq, hs⟩ := ignores_of_runs hname hruns job s _ (s.differAt_put 0 "^" (some b))
  exact ⟨heq, hs.package⟩

/-- Where only the target differs, and powers are written alike or cannot occur, the statements are
the same. -/
theorem lowering_of_target (source sourceName : String)
    (ho : o' = { o with target := o'.target })
    (h : (o.target.minor < 3 ↔ o'.target.minor < 3) ∨ ∀ c ∈ p, "^" ∉ c.term.names) :
    (lowering source sourceName o' p).1 = (lowering source sourceName o p).1 ∧
      (lowering source sourceName o' p).2.package = (lowering source sourceName o p).2.package := by
  have hvariadic : o'.variadic = o.variadic := by rw [ho]
  have hpublish : o'.publish = o.publish := by rw [ho]
  have hstart : Session.start.publish ⟨o', sourceName, source⟩ =
      Session.start.publish ⟨o, sourceName, source⟩ := by
    rw [Session.publish, Session.publish, hpublish]
    rfl
  rw [lowering, lowering, hstart]
  rcases h with h | h
  · have hpower : o'.target.powerIsCall = o.target.powerIsCall := by
      rw [Target.powerIsCall_eq, Target.powerIsCall_eq, decide_eq_decide]
      exact h.symm
    exact statements_eq p _ _ hvariadic hpublish (.inr hpower) rfl rfl
  · -- Both runs are compared with those in which the operator is hidden.
    let s := Session.start.publish ⟨o, sourceName, source⟩
    have hroot : ((s.put 0 "^" (some default)).scope.getRoot? "^").isSome = true := rfl
    obtain ⟨heq, hpackage⟩ := statements_hidden h ⟨o, sourceName, source⟩ s default
    obtain ⟨heq', hpackage'⟩ := statements_hidden h ⟨o', sourceName, source⟩ s default
    obtain ⟨hsame, hsame'⟩ := statements_eq p ⟨o, sourceName, source⟩ ⟨o', sourceName, source⟩
      hvariadic hpublish (.inl hroot) rfl rfl
    exact ⟨(heq'.symm.trans hsame).trans heq, (hpackage'.symm.trans hsame').trans hpackage⟩

/-- A package that is not published is reached without the name of the source. -/
theorem lowering_of_name (hpublish : o.publish = false) (source sourceName otherName : String)
    (p : Program) :
    (lowering source otherName o p).1 = (lowering source sourceName o p).1 ∧
      (lowering source otherName o p).2.package = (lowering source sourceName o p).2.package := by
  refine statements_eq p _ _ rfl rfl (.inr rfl) rfl ?_
  simp only [Session.publish, hpublish]
  rfl

end Gen

open Gen

/-- Under any two options a source is accepted or refused alike, and refused with the same
failure. -/
theorem compile_agrees (source sourceName : String) (o o' : Options) :
    (∃ text text', (compile source sourceName o).1 = .ok text ∧
        (compile source sourceName o').1 = .ok text') ∨
      ∃ f, (compile source sourceName o).1 = .error f ∧
        (compile source sourceName o').1 = .error f := by
  cases hparse : parse source with
  | error f =>
    exact .inr ⟨_, fst_compile_of_unreadable hparse _ _, fst_compile_of_unreadable hparse _ _⟩
  | ok p =>
    rw [fst_compile hparse, fst_compile hparse]
    rcases lowering_agrees source sourceName sourceName o o' p with
      ⟨_, _, hok, hok'⟩ | ⟨_, herror, herror'⟩
    · rw [hok, hok']
      exact .inl ⟨_, _, rfl, rfl⟩
    · rw [herror, herror']
      exact .inr ⟨_, rfl, rfl⟩

/-- Where only the target differs, and powers are written alike or cannot occur, the result is the
same. -/
theorem compile_of_target {source : String} (sourceName : String) {o o' : Options}
    (ho : o' = { o with target := o'.target })
    (h : (o.target.minor < 3 ↔ o'.target.minor < 3) ∨
      ∀ p, parse source = .ok p → ∀ c ∈ p, "^" ∉ c.term.names) :
    (compile source sourceName o').1 = (compile source sourceName o).1 := by
  cases hparse : parse source with
  | error f => rw [fst_compile_of_unreadable hparse, fst_compile_of_unreadable hparse]
  | ok p =>
    obtain ⟨heq, hpackage⟩ := lowering_of_target source sourceName ho
      (h.imp_right fun h => h p hparse)
    rw [fst_compile hparse, fst_compile hparse, heq, hpackage, ho]
    rfl

/-- Without a published package the text is the same under every name of the source. -/
theorem compile_of_name {source sourceName text : String} {o : Options} (hpublish : o.publish = false)
    (h : (compile source sourceName o).1 = .ok text) (otherName : String) :
    (compile source otherName o).1 = .ok text := by
  cases hparse : parse source with
  | error f =>
    rw [fst_compile_of_unreadable hparse] at h
    cases h
  | ok p =>
    obtain ⟨heq, hpackage⟩ := lowering_of_name hpublish source sourceName otherName p
    rw [fst_compile hparse] at h ⊢
    rw [heq, hpackage]
    cases hlowering : (lowering source sourceName o p).1 with
    | error f =>
      rw [hlowering] at h
      cases h
    | ok stmts => rwa [hlowering] at h

/-- Options change the text of a program and nothing else. Under any two of them a source is accepted
or refused alike, and refused with the same failure. A target makes no difference but between those
before version 5.3 and the others, and none if the name `^` is not in the program. If the package is
not published the name of the source makes no difference. -/
theorem options_change_text_only (source sourceName : String) (o o' : Options) :
    ((∃ text, (compile source sourceName o).1 = .ok text) ↔
      ∃ text, (compile source sourceName o').1 = .ok text) ∧
    (∀ f, (compile source sourceName o).1 = .error f ↔
      (compile source sourceName o').1 = .error f) ∧
    (o' = { o with target := o'.target } →
      ((o.target.minor < 3 ↔ o'.target.minor < 3) ∨
        ∀ p, parse source = .ok p → ∀ c ∈ p, "^" ∉ c.term.names) →
      (compile source sourceName o').1 = (compile source sourceName o).1) ∧
    (o.publish = false → ∀ otherName text, (compile source sourceName o).1 = .ok text ↔
      (compile source otherName o).1 = .ok text) := by
  have hname (hpublish : o.publish = false) (otherName text : String) :
      (compile source sourceName o).1 = .ok text ↔ (compile source otherName o).1 = .ok text :=
    ⟨fun h => compile_of_name hpublish h _, fun h => compile_of_name hpublish h _⟩
  refine ⟨?_, ?_, compile_of_target sourceName, hname⟩
  · rcases compile_agrees source sourceName o o' with ⟨_, _, hok, hok'⟩ | ⟨f, herror, herror'⟩
    · exact ⟨fun _ => ⟨_, hok'⟩, fun _ => ⟨_, hok⟩⟩
    · rw [herror, herror']
  · intro f
    rcases compile_agrees source sourceName o o' with ⟨_, _, hok, hok'⟩ | ⟨f', herror, herror'⟩
    · simp [hok, hok']
    · rw [herror, herror']

/-- A sum of two blocks for two targets between which powers change, and under other names. -/
theorem options_change_text_only_sum :
    ∃ text, (compile "(def x (+ (do 1) 2))" "a.crn" .library).1 = .ok text ∧
      (compile "(def x (+ (do 1) 2))" "a.crn" { Options.library with target := .lua51 }).1 =
        .ok text ∧
      ∀ name, (compile "(def x (+ (do 1) 2))" name .library).1 = .ok text := by
  obtain ⟨-, -, htarget, hname⟩ := options_change_text_only "(def x (+ (do 1) 2))" "a.crn" .library
    { Options.library with target := .lua51 }
  have hnames : ∀ p, parse "(def x (+ (do 1) 2))" = .ok p → ∀ c ∈ p, "^" ∉ c.term.names := by
    have hall : (parse "(def x (+ (do 1) 2))").toOption.all
        (·.all fun c => decide ("^" ∉ c.term.names)) = true := by
      decide +kernel
    intro p hp
    simpa [hp, Except.toOption] using hall
  have haccepted : (compile "(def x (+ (do 1) 2))" "a.crn" .library).1.toOption.isSome := by
    decide +kernel
  cases htext : (compile "(def x (+ (do 1) 2))" "a.crn" .library).1 with
  | error f =>
    rw [htext] at haccepted
    cases haccepted
  | ok text =>
    exact ⟨text, rfl, (htarget rfl (.inr hnames)).trans htext, fun name => (hname rfl name text).1 htext⟩

end LispLua
