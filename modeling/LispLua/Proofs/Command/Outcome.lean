import LispLua.Command.Run
import LispLua.Proofs.Command.Storage

/-!
# How a command ends

A command line is refused, fails or succeeds. A command that does not succeed prints nothing on its
output and leaves the files alone. One that succeeds changes at most the file it was asked to write,
and that file then holds the Lua text of the program that was read.

Reading and lowering a program is the work of a command, and the work is a parameter of `runWith`. A
command that ends in the same way whatever the work is has not looked at the program.
-/

namespace LispLua.Command

/-! ### What the arguments select -/

namespace Arguments

/-- The options of code generation that the arguments select. -/
def options (a : Arguments) : Options where
  variadic := a.value? .preset == some "cli"
  embedLibrary := a.has .embedLibrary
  omitLibrary := a.has .omitLibrary
  publish := a.has .publish
  target := ((a.value? .target).bind Target.ofString?).getD .lua53

/-- The given path of the output, or one made from the first free argument, or a fixed one. -/
def outputPath (a : Arguments) : String :=
  (a.value? .output).getD ((a.free.head?.map luaPath).getD "out.lua")

/-- The name of the source. -/
def sourceName (a : Arguments) : String :=
  a.free.head?.getD "stdin"

/-- The bytes of the program: those of the file of the first free argument, or of the standard
input. -/
def input (a : Arguments) (stdin : ByteArray) (files : Files) : Except FileError ByteArray :=
  match a.free.head? with
  | some path => files.read path
  | none => .ok stdin

/-- The preset and the version of Lua are known, and the options for the library do not exclude each
other. -/
structure Consistent (a : Arguments) : Prop where
  preset : ∀ {p}, a.value? .preset = some p → p = "cli" ∨ p = "module"
  target : ∀ {t}, a.value? .target = some t → t = "5.1" ∨ t = "5.2" ∨ t = "5.3" ∨ t = "5.4"
  library : ¬ (a.has .embedLibrary = true ∧ a.has .omitLibrary = true)

end Arguments

/-- A command line is refused for its options, or, unless it asks for help, for a preset or a version
of Lua that is not known, for options that exclude each other, or for an input that is no text. -/
inductive Refused (args : List String) (stdin : ByteArray) (files : Files) : Prop
  | scan {e : ArgumentError} : Arguments.scan args = .error e → Refused args stdin files
  | preset {a : Arguments} {p : String} : Arguments.scan args = .ok a → a.has .help = false →
      a.value? .preset = some p → p ≠ "cli" → p ≠ "module" → Refused args stdin files
  | target {a : Arguments} {t : String} : Arguments.scan args = .ok a → a.has .help = false →
      a.value? .target = some t → t ≠ "5.1" → t ≠ "5.2" → t ≠ "5.3" → t ≠ "5.4" →
      Refused args stdin files
  | library {a : Arguments} : Arguments.scan args = .ok a → a.has .help = false →
      a.has .embedLibrary = true → a.has .omitLibrary = true → Refused args stdin files
  | input {a : Arguments} : Arguments.scan args = .ok a → a.has .help = false →
      (∀ text : String, a.input stdin files ≠ .ok text.toUTF8) → Refused args stdin files

theorem isSome_ofString?_iff {text : String} : (Target.ofString? text).isSome = true ↔
    text = "5.1" ∨ text = "5.2" ∨ text = "5.3" ∨ text = "5.4" := by
  constructor
  · intro h
    by_contra hnot
    simp only [not_or] at hnot
    obtain ⟨h₁, h₂, h₃, h₄⟩ := hnot
    have hnone : Target.ofString? text = none := by
      rw [Target.ofString?]
      all_goals assumption
    rw [hnone] at h
    cases h
  · rintro (rfl | rfl | rfl | rfl) <;> rfl

theorem presetOptions_cases (preset : Option String) :
    presetOptions preset = .ok { Options.library with variadic := preset == some "cli" } ∧
        (∀ p, preset = some p → p = "cli" ∨ p = "module") ∨
      ∃ p m, preset = some p ∧ p ≠ "cli" ∧ p ≠ "module" ∧ presetOptions preset = .error m := by
  cases preset with
  | none => exact .inl ⟨rfl, fun _ h => nomatch h⟩
  | some p =>
    by_cases hcli : p = "cli"
    · subst hcli
      exact .inl ⟨by decide, fun p h => .inl (Option.some.inj h).symm⟩
    by_cases hmodule : p = "module"
    · subst hmodule
      exact .inl ⟨by decide, fun p h => .inr (Option.some.inj h).symm⟩
    · refine .inr ⟨p, "Unknown preset `" ++ p ++ "`, expected cli or module", rfl, hcli, hmodule, ?_⟩
      rw [presetOptions]
      · exact hmodule
      · exact hcli

/-- The version of Lua, if it is known. -/
theorem readTarget_cases (text : String) :
    (∃ target, Target.ofString? text = some target ∧ readTarget text = .ok target) ∨
      Target.ofString? text = none ∧ readTarget text = .error (targetFailure text) := by
  rw [readTarget]
  cases Target.ofString? text with
  | some target => exact .inl ⟨target, rfl, rfl⟩
  | none => exact .inr ⟨rfl, rfl⟩

/-- The last check of the options is that of the library. -/
theorem libraryCheck_cases {a : Arguments} (message : String)
    (h : ¬ (a.has .embedLibrary = true ∧ a.has .omitLibrary = true) → a.Consistent) :
    (a.Consistent ∧ (if (a.has .embedLibrary && a.has .omitLibrary) = true then
      Except.error message else .ok a.options) = .ok a.options) ∨
    ¬ a.Consistent ∧ ∃ m, (if (a.has .embedLibrary && a.has .omitLibrary) = true then
      Except.error message else .ok a.options) = .error m := by
  by_cases hboth : (a.has .embedLibrary && a.has .omitLibrary) = true
  · rw [if_pos hboth]
    exact .inr ⟨fun h => h.library (Bool.and_eq_true_iff.1 hboth), message, rfl⟩
  · rw [if_neg hboth]
    exact .inl ⟨h (mt Bool.and_eq_true_iff.2 hboth), rfl⟩

/-- The options are those that the arguments select, unless one of the checks fails. -/
theorem optionsOf_cases (color : Bool) (a : Arguments) :
    (a.Consistent ∧ optionsOf color a = .ok a.options) ∨
      ¬ a.Consistent ∧ ∃ m, optionsOf color a = .error m := by
  rw [optionsOf]
  rcases presetOptions_cases (a.value? .preset) with
    ⟨hoptions, hpreset⟩ | ⟨p, m, hp, hcli, hmodule, herror⟩
  · have hlibrary
        (htarget : ∀ {t}, a.value? .target = some t → t = "5.1" ∨ t = "5.2" ∨ t = "5.3" ∨ t = "5.4") :=
      libraryCheck_cases "--embed-runtime and --no-runtime are mutually exclusive"
        fun hlibrary => ⟨hpreset _, htarget, hlibrary⟩
    rw [hoptions]
    cases ht : a.value? .target with
    | none =>
      have hselected : a.options = ⟨a.value? .preset == some "cli", a.has .embedLibrary,
          a.has .omitLibrary, a.has .publish, .lua53⟩ := by
        rw [Arguments.options, ht]
        rfl
      have hend := hlibrary (by simp [ht])
      rwa [hselected] at hend ⊢
    | some t =>
      rcases readTarget_cases t with ⟨target, hknown, hread⟩ | ⟨hunknown, hread⟩
      · have hselected : a.options = ⟨a.value? .preset == some "cli", a.has .embedLibrary,
            a.has .omitLibrary, a.has .publish, target⟩ := by
          rw [Arguments.options, ht, Option.bind_some, hknown]
          rfl
        have hend := hlibrary (by
          intro u hu
          cases ht.symm.trans hu
          rw [← isSome_ofString?_iff, hknown]
          rfl)
        simp only [hread]
        rwa [hselected] at hend ⊢
      · refine .inr ⟨fun h => ?_, (targetFailure t).display color, ?_⟩
        · have hknown := isSome_ofString?_iff.2 (h.target ht)
          rw [hunknown] at hknown
          cases hknown
        · simp only [hread]
          rfl
  · refine .inr ⟨fun h => ?_, m, ?_⟩
    · rcases h.preset hp with h | h
      · exact hcli h
      · exact hmodule h
    · rw [herror]
      rfl

theorem decodeText_eq_ok_iff {bytes : ByteArray} {text : String} :
    decodeText bytes = .ok text ↔ bytes = text.toUTF8 := by
  rw [decodeText, String.fromUTF8?]
  constructor
  · intro h
    split at h
    · rename_i found hfound
      cases h
      split at hfound
      · cases hfound
        rfl
      · cases hfound
    · cases h
  · rintro rfl
    have hvalid : text.toUTF8.IsValidUTF8 := text.isValidUTF8
    rw [dif_pos hvalid]
    rfl

theorem outputOf_eq (a : Arguments) : outputOf a = a.outputPath := by
  rw [outputOf, Arguments.outputPath]
  cases a.value? .output <;> cases a.free.head? <;> rfl

/-! ### The command and its work -/

/-- The command, with what it does to a program as a parameter. -/
def runWith (work : Task → Action → Files → Report (Option String)) (color : Bool)
    (args : List String) (stdin : ByteArray) (files : Files) : Ending × Files :=
  match Plan.ofArgs color args with
  | .error ending => (ending, files)
  | .ok plan =>
    match plan.program stdin files with
    | .error e => (unreadEnding plan.path e.text, files)
    | .ok program =>
      let report := work (plan.task program) plan.action files
      (endingOf color report.result, report.files)

theorem run_eq_runWith : run = runWith Task.perform := rfl

section

variable {args : List String} {stdin : ByteArray} {files : Files} {a : Arguments}

theorem ofArgs_of_consistent (color : Bool) (hscan : Arguments.scan args = .ok a)
    (hhelp : a.has .help = false)
    (h : a.Consistent) :
    Plan.ofArgs color args = .ok ⟨a.free.head?, a.outputPath, a.options, actionOf a⟩ := by
  have hoptions : optionsOf color a = .ok a.options := by
    rcases optionsOf_cases color a with ⟨-, h'⟩ | ⟨hnot, -⟩
    · exact h'
    · exact absurd h hnot
  rw [Plan.ofArgs, hscan, ← outputOf_eq]
  simp only [Except.mapError, bind, Except.bind, hhelp, hoptions]
  rfl

theorem ofArgs_of_not_consistent (color : Bool) (hscan : Arguments.scan args = .ok a)
    (hhelp : a.has .help = false) (h : ¬ a.Consistent) :
    ∃ m, Plan.ofArgs color args = .error (.refused m) := by
  rcases optionsOf_cases color a with ⟨h', -⟩ | ⟨-, m, hm⟩
  · exact absurd h' h
  · refine ⟨m, ?_⟩
    rw [Plan.ofArgs, hscan]
    simp only [Except.mapError, bind, Except.bind, hhelp, hm]
    rfl

theorem refused_of_not_consistent (hscan : Arguments.scan args = .ok a)
    (hhelp : a.has .help = false) (h : ¬ a.Consistent) : Refused args stdin files := by
  by_contra hnot
  refine h ⟨?_, ?_, ?_⟩
  · intro p hp
    by_contra hunknown
    obtain ⟨hcli, hmodule⟩ := not_or.1 hunknown
    exact hnot (.preset hscan hhelp hp hcli hmodule)
  · intro t ht
    by_contra hunknown
    simp only [not_or] at hunknown
    obtain ⟨h₁, h₂, h₃, h₄⟩ := hunknown
    exact hnot (.target hscan hhelp ht h₁ h₂ h₃ h₄)
  · rintro ⟨hembed, homit⟩
    exact hnot (.library hscan hhelp hembed homit)

/-- The program of a plan is the text that the input is the form of. -/
theorem program_cases (stdin : ByteArray) (files : Files) (plan : Plan)
    (hpath : plan.path = a.free.head?) :
    (∃ program, plan.program stdin files = .ok program ∧
        a.input stdin files = .ok program.toUTF8) ∨
      ∃ e, plan.program stdin files = .error e ∧
        ∀ text : String, a.input stdin files ≠ .ok text.toUTF8 := by
  have hbytes : plan.program stdin files = a.input stdin files >>= decodeText := by
    rw [Plan.program, Arguments.input, hpath]
    cases a.free.head? with
    | none => rfl
    | some path => rfl
  rw [hbytes]
  cases a.input stdin files with
  | error e => exact .inr ⟨e, rfl, fun _ h => nomatch h⟩
  | ok bytes =>
    show (∃ program, decodeText bytes = .ok program ∧ _) ∨ ∃ e, decodeText bytes = .error e ∧ _
    cases hdecode : decodeText bytes with
    | ok program => exact .inl ⟨program, rfl, by rw [decodeText_eq_ok_iff.1 hdecode]⟩
    | error e =>
      refine .inr ⟨e, rfl, fun text h => ?_⟩
      rw [decodeText_eq_ok_iff.2 (Except.ok.inj h)] at hdecode
      cases hdecode

/-- A command is refused, shows the help text, or comes to its work. -/
theorem runWith_cases (color : Bool) (args : List String) (stdin : ByteArray) (files : Files) :
    (Refused args stdin files ∧
      ∃ m, ∀ work, runWith work color args stdin files = (⟨2, "", m⟩, files)) ∨
    (∃ a, Arguments.scan args = .ok a ∧ a.has .help = true ∧
      ∀ work, runWith work color args stdin files = (⟨0, usage, ""⟩, files)) ∨
    ∃ a program, Arguments.scan args = .ok a ∧ a.has .help = false ∧ a.Consistent ∧
      a.input stdin files = .ok program.toUTF8 ∧
      ∀ work, runWith work color args stdin files =
        (endingOf color
          (work ⟨a.sourceName, program, a.outputPath, a.options⟩ (actionOf a) files).result,
        (work ⟨a.sourceName, program, a.outputPath, a.options⟩ (actionOf a) files).files) := by
  cases hscan : Arguments.scan args with
  | error e =>
    have hplan : Plan.ofArgs color args = .error (.refused e.message) := by
      rw [Plan.ofArgs, hscan]
      rfl
    refine .inl ⟨.scan hscan, e.message ++ "\n", fun work => ?_⟩
    rw [runWith, hplan]
    rfl
  | ok a =>
  by_cases hhelp : a.has .help = true
  · have hplan : Plan.ofArgs color args = .error ⟨0, usage, ""⟩ := by
      rw [Plan.ofArgs, hscan]
      simp only [Except.mapError, bind, Except.bind, hhelp]
      rfl
    refine .inr (.inl ⟨a, rfl, hhelp, fun work => ?_⟩)
    rw [runWith, hplan]
  · replace hhelp : a.has .help = false := by simpa using hhelp
    by_cases hconsistent : a.Consistent
    · have hplan := ofArgs_of_consistent color hscan hhelp hconsistent
      rcases program_cases stdin files
        ⟨a.free.head?, a.outputPath, a.options, actionOf a⟩ rfl with
        ⟨program, hprogram, hinput⟩ | ⟨e, hprogram, hinput⟩
      · refine .inr (.inr ⟨a, program, rfl, hhelp, hconsistent, hinput, fun work => ?_⟩)
        rw [runWith, hplan]
        simp only [hprogram]
        rfl
      · have hending : ∃ m, unreadEnding a.free.head? e.text = ⟨2, "", m⟩ := by
          cases a.free.head? with
          | none => exact ⟨_, rfl⟩
          | some path => exact ⟨_, rfl⟩
        obtain ⟨m, hm⟩ := hending
        refine .inl ⟨.input hscan hhelp hinput, m, fun work => ?_⟩
        rw [runWith, hplan]
        simp only [hprogram, hm]
    · obtain ⟨m, hplan⟩ := ofArgs_of_not_consistent color hscan hhelp hconsistent
      refine .inl ⟨refused_of_not_consistent hscan hhelp hconsistent, m ++ "\n", fun work => ?_⟩
      rw [runWith, hplan]
      rfl

theorem not_refused_of_help (hscan : Arguments.scan args = .ok a) (hhelp : a.has .help = true) :
    ¬ Refused args stdin files := by
  intro h
  cases h with
  | scan h => cases hscan.symm.trans h
  | preset h hno _ _ _ | target h hno _ _ _ _ _ | library h hno _ _ | input h hno _ =>
    cases hscan.symm.trans h
    rw [hhelp] at hno
    cases hno

theorem not_refused_of_consistent {program : String} (hscan : Arguments.scan args = .ok a)
    (h : a.Consistent) (hinput : a.input stdin files = .ok program.toUTF8) :
    ¬ Refused args stdin files := by
  intro hrefused
  cases hrefused with
  | scan h => cases hscan.symm.trans h
  | preset h' _ hp hcli hmodule =>
    cases hscan.symm.trans h'
    rcases h.preset hp with h | h
    · exact hcli h
    · exact hmodule h
  | target h' _ ht h₁ h₂ h₃ h₄ =>
    cases hscan.symm.trans h'
    rcases h.target ht with h | h | h | h
    · exact h₁ h
    · exact h₂ h
    · exact h₃ h
    · exact h₄ h
  | library h' _ hembed homit =>
    cases hscan.symm.trans h'
    exact h.library ⟨hembed, homit⟩
  | input h' _ hnone =>
    cases hscan.symm.trans h'
    exact hnone program hinput

end

/-- An action can be done: the program can be read, or lowered, or lowered and written. -/
def Task.CanDo (t : Task) (files : Files) : Action → Prop
  | .parse => ∃ p, LispLua.parse t.program = .ok p
  | .print => ∃ text, (compile t.program t.source t.options).1 = .ok text
  | .write | .run => ∃ text after, (compile t.program t.source t.options).1 = .ok text ∧
      files.write t.output text.toUTF8 = .ok after

/-- An action that runs nothing fails and leaves the files alone, shows a text and leaves them alone,
or writes the Lua text. -/
theorem perform_cases (t : Task) {action : Action} (files : Files) (hrun : action ≠ .run) :
    (¬ t.CanDo files action ∧ (∃ f, (t.perform action files).result = .error f) ∧
      (t.perform action files).files = files) ∨
    (t.CanDo files action ∧ action ≠ .write ∧
      (∃ text, (t.perform action files).result = .ok (some text)) ∧
      (t.perform action files).files = files) ∨
    (t.CanDo files action ∧ action = .write ∧ (t.perform action files).result = .ok none ∧
      ∃ text, (compile t.program t.source t.options).1 = .ok text ∧
        files.write t.output text.toUTF8 = .ok (t.perform action files).files) := by
  cases action with
  | run => exact absurd rfl hrun
  | parse =>
    rw [Task.perform, Task.prepare, Task.CanDo]
    cases LispLua.parse t.program with
    | error f =>
      refine .inl ⟨?_, ⟨_, rfl⟩, rfl⟩
      rintro ⟨p, h⟩
      cases h
    | ok p => exact .inr (.inl ⟨⟨p, rfl⟩, by decide, ⟨_, rfl⟩, rfl⟩)
  | print =>
    rw [Task.perform, Task.prepare, Task.CanDo]
    rcases compile t.program t.source t.options with ⟨f | text, events⟩
    · refine .inl ⟨?_, ⟨_, rfl⟩, rfl⟩
      rintro ⟨text, h⟩
      cases h
    · exact .inr (.inl ⟨⟨text, rfl⟩, by decide, ⟨_, rfl⟩, rfl⟩)
  | write =>
    rw [Task.CanDo]
    rcases hcompile : compile t.program t.source t.options with ⟨f | text, events⟩
    · left
      rw [Task.perform, Task.prepare, hcompile]
      refine ⟨?_, ⟨_, rfl⟩, rfl⟩
      rintro ⟨text, after, h, -⟩
      cases h
    · cases hwrite : files.write t.output text.toUTF8 with
      | error e =>
        have hreport : t.perform .write files = ⟨.error (t.writeFailure e), events, files⟩ := by
          simp only [Task.perform, Task.prepare, hcompile, Except.map, Task.write, hwrite]
        rw [hreport]
        refine .inl ⟨?_, ⟨_, rfl⟩, rfl⟩
        rintro ⟨text', after, htext, hafter⟩
        cases htext
        cases hwrite.symm.trans hafter
      | ok after =>
        have hreport : t.perform .write files =
            ⟨.ok none, events ++ [.compiled t.source t.output], after⟩ := by
          simp only [Task.perform, Task.prepare, hcompile, Except.map, Task.write, hwrite]
          rfl
        rw [hreport]
        exact .inr (.inr ⟨⟨text, after, rfl, hwrite⟩, rfl, rfl, text, rfl, hwrite⟩)

theorem actionOf_eq_write_iff {a : Arguments} (hrun : a.has .run = false) :
    actionOf a = .write ↔ a.has .printTree = false ∧ a.has .printLua = false := by
  rw [actionOf, hrun]
  cases a.has .printTree <;> cases a.has .printLua <;> decide

theorem actionOf_ne_run {a : Arguments} (hrun : a.has .run = false) : actionOf a ≠ .run := by
  rw [actionOf, hrun]
  cases a.has .printTree <;> cases a.has .printLua <;> decide

/-! ### The end of a command -/

/-- A command line that asks for help, or for something that can be done. -/
def Succeeds (args : List String) (stdin : ByteArray) (files : Files) : Prop :=
  ∃ a, Arguments.scan args = .ok a ∧ (a.has .help = true ∨ (a.Consistent ∧
    ∃ program : String, a.input stdin files = .ok program.toUTF8 ∧
      Task.CanDo ⟨a.sourceName, program, a.outputPath, a.options⟩ files (actionOf a)))

/-- How the end of a command and the files afterwards agree with its arguments, its input and the
files before. -/
structure Accounted (args : List String) (stdin : ByteArray) (files : Files) (ending : Ending)
    (after : Files) : Prop where
  failed : ending.code ≠ 0 → ending.stdout = "" ∧ after = files
  shown : ∀ {a}, Arguments.scan args = .ok a →
    a.has .help = true ∨ a.has .printTree = true ∨ a.has .printLua = true → after = files
  written : ending.code = 0 → ∃ a, Arguments.scan args = .ok a ∧
    (a.has .help = false → a.has .printTree = false → a.has .printLua = false →
      ∃ program text, a.input stdin files = .ok program.toUTF8 ∧
        (compile program a.sourceName a.options).1 = .ok text ∧
        ((after = files ∧ files.resolve a.outputPath = .ok Files.nullPath) ∨
          ∃ place, files.Stored after a.outputPath text.toUTF8 place))
  refused : ending.code = 2 ↔ Refused args stdin files
  succeeded : ending.code = 0 ↔ Succeeds args stdin files

section

variable {args : List String} {stdin : ByteArray} {files : Files} {a : Arguments}

theorem not_succeeds_of_refused (h : Refused args stdin files) : ¬ Succeeds args stdin files := by
  rintro ⟨a, hscan, hhelp | ⟨hready, program, hinput, -⟩⟩
  · exact not_refused_of_help hscan hhelp h
  · exact not_refused_of_consistent hscan hready hinput h

theorem accounted_of_refused (h : Refused args stdin files) (m : String) :
    Accounted args stdin files ⟨2, "", m⟩ files where
  failed _ := ⟨rfl, rfl⟩
  shown _ _ := rfl
  written hcode := nomatch hcode
  refused := ⟨fun _ => h, fun _ => rfl⟩
  succeeded := ⟨fun hcode => (nomatch hcode), fun hdone => absurd hdone (not_succeeds_of_refused h)⟩

theorem accounted_of_help (hscan : Arguments.scan args = .ok a) (hhelp : a.has .help = true) :
    Accounted args stdin files ⟨0, usage, ""⟩ files where
  failed hcode := absurd rfl hcode
  shown _ _ := rfl
  written _ := by
    refine ⟨a, hscan, fun hno => ?_⟩
    rw [hhelp] at hno
    cases hno
  refused := ⟨fun hcode => (nomatch hcode), fun h => absurd h (not_refused_of_help hscan hhelp)⟩
  succeeded := ⟨fun _ => ⟨a, hscan, .inl hhelp⟩, fun _ => rfl⟩

/-- The end of a command that comes to its work. -/
theorem accounted_of_perform (color : Bool) {program : String}
    (hscan : Arguments.scan args = .ok a) (hhelp : a.has .help = false) (hready : a.Consistent)
    (hinput : a.input stdin files = .ok program.toUTF8) (hrun : a.has .run = false)
    {t : Task} (ht : t = ⟨a.sourceName, program, a.outputPath, a.options⟩) :
    Accounted args stdin files (endingOf color (t.perform (actionOf a) files).result)
      (t.perform (actionOf a) files).files := by
  have hnot := not_refused_of_consistent hscan hready hinput
  have hwrite := actionOf_eq_write_iff hrun
  have hdone : Succeeds args stdin files ↔ t.CanDo files (actionOf a) := by
    constructor
    · rintro ⟨b, hb, hyes | ⟨-, program', hprogram, hdo⟩⟩
      · cases hscan.symm.trans hb
        rw [hhelp] at hyes
        cases hyes
      · cases hscan.symm.trans hb
        have hsame : program' = program :=
          String.toByteArray_inj.1 (Except.ok.inj (hprogram.symm.trans hinput))
        rwa [ht, ← hsame]
    · intro hdo
      exact ⟨a, hscan, .inr ⟨hready, program, hinput, ht ▸ hdo⟩⟩
  rcases perform_cases t files (actionOf_ne_run hrun) with
    ⟨hcannot, ⟨f, hresult⟩, hfiles⟩ | ⟨hdo, haction, ⟨text, hresult⟩, hfiles⟩ |
      ⟨hdo, haction, hresult, text, htext, hstore⟩
  · rw [hresult, hfiles]
    constructor
    case failed => exact fun _ => ⟨rfl, rfl⟩
    case shown => exact fun _ _ => rfl
    case written => exact fun hcode => nomatch hcode
    case refused => exact ⟨fun hcode => (nomatch hcode), fun h => absurd h hnot⟩
    case succeeded => exact ⟨fun hcode => (nomatch hcode), fun h => absurd (hdone.1 h) hcannot⟩
  · rw [hresult, hfiles]
    constructor
    case failed => exact fun hcode => absurd rfl hcode
    case shown => exact fun _ _ => rfl
    case written =>
      intro _
      refine ⟨a, hscan, fun _ htree hlua => ?_⟩
      exact absurd (hwrite.2 ⟨htree, hlua⟩) haction
    case refused => exact ⟨fun hcode => (nomatch hcode), fun h => absurd h hnot⟩
    case succeeded => exact ⟨fun _ => hdone.2 hdo, fun _ => rfl⟩
  · rw [hresult]
    constructor
    case failed => exact fun hcode => absurd rfl hcode
    case shown =>
      intro b hb hany
      cases hscan.symm.trans hb
      obtain ⟨htree, hlua⟩ := hwrite.1 haction
      simp [hhelp, htree, hlua] at hany
    case written =>
      intro _
      subst ht
      exact ⟨a, hscan, fun _ _ _ => ⟨program, text, hinput, htext, Files.stored_of_write hstore⟩⟩
    case refused => exact ⟨fun hcode => (nomatch hcode), fun h => absurd h hnot⟩
    case succeeded => exact ⟨fun _ => hdone.2 hdo, fun _ => rfl⟩

end

/-- A command that is not asked to run its output leaves the files alone unless it succeeds, and then
changes at most its output, which holds the Lua text of what it has read. It is refused for the stated
reasons only, and before it does anything with the program. -/
theorem command_changes_only_its_output (color : Bool) (args : List String) (stdin : ByteArray)
    (files : Files) (hrun : ∀ a, Arguments.scan args = .ok a → a.has .run = false) :
    Accounted args stdin files (run color args stdin files).1 (run color args stdin files).2 ∧
      ((run color args stdin files).1.code = 2 →
        ∀ work, runWith work color args stdin files = run color args stdin files) := by
  rw [run_eq_runWith]
  rcases runWith_cases color args stdin files with
    ⟨hrefused, m, hall⟩ | ⟨a, hscan, hhelp, hall⟩ | ⟨a, program, hscan, hhelp, hready, hinput, hall⟩
  · rw [hall Task.perform]
    exact ⟨accounted_of_refused hrefused m, fun _ work => hall work⟩
  · rw [hall Task.perform]
    exact ⟨accounted_of_help hscan hhelp, fun _ work => hall work⟩
  · have hend := accounted_of_perform color hscan hhelp hready hinput (hrun a hscan) rfl
    rw [hall Task.perform]
    refine ⟨hend, fun hcode => ?_⟩
    exact absurd (hend.refused.1 hcode) (not_refused_of_consistent hscan hready hinput)

/-- Arguments with a cluster that takes the rest of itself as its value, and with an option that
takes the next argument. -/
def clustered : List String :=
  ["-oa/b.lua", "--target", "5.1", "--preset=cli"]

/-- A directory with a file in it. -/
def occupied : Files :=
  [(["a", "c"], .empty)]

theorem command_changes_only_its_output_cluster :
    (∀ a, Arguments.scan clustered = .ok a → a.has .run = false) ∧
    (run false clustered "(def x 1)".toUTF8 occupied).1.code = 0 ∧
    ∃ place, occupied.Stored (run false clustered "(def x 1)".toUTF8 occupied).2 "a/b.lua"
      ("local charon = require 'charon-runtime';\nlocal __local_package = \x7b\x7d;\n" ++
        "__local_package[\"x\"] = 1;\nreturn __local_package;\n").toUTF8 place := by
  have hscan : Arguments.scan clustered =
      .ok ⟨[⟨.output, "a/b.lua"⟩, ⟨.target, "5.1"⟩, ⟨.preset, "cli"⟩], []⟩ := by
    decide +kernel
  have hrun : ∀ a, Arguments.scan clustered = .ok a → a.has .run = false := by
    intro a ha
    cases hscan.symm.trans ha
    decide
  have hcheck : (compile "(def x 1)" "stdin" ⟨true, false, false, false, .lua51⟩).1.toOption =
      some ("local charon = require 'charon-runtime';\nlocal __local_package = \x7b\x7d;\n" ++
        "__local_package[\"x\"] = 1;\nreturn __local_package;\n") := by
    decide +kernel
  generalize "local charon = require 'charon-runtime';\nlocal __local_package = \x7b\x7d;\n" ++
    "__local_package[\"x\"] = 1;\nreturn __local_package;\n" = text at hcheck ⊢
  have hcompile : (compile "(def x 1)" "stdin" ⟨true, false, false, false, .lua51⟩).1 =
      .ok text := by
    cases h : (compile "(def x 1)" "stdin" ⟨true, false, false, false, .lua51⟩).1 with
    | error => simp [h, Except.toOption] at hcheck
    | ok text' =>
      rw [h] at hcheck
      cases hcheck
      rfl
  have hwrite : ∀ content, occupied.write "a/b.lua" content =
      .ok (occupied.put ["a", "b.lua"] content) := fun _ => rfl
  have hdone : Succeeds clustered "(def x 1)".toUTF8 occupied := by
    refine ⟨_, hscan, .inr ⟨⟨?_, ?_, ?_⟩, "(def x 1)", rfl, text, _, hcompile, hwrite _⟩⟩
    · intro p hp
      cases hp
      exact .inl rfl
    · intro t ht
      cases ht
      exact .inl rfl
    · decide
  have haccounted :=
    (command_changes_only_its_output false clustered "(def x 1)".toUTF8 occupied hrun).1
  have hcode := haccounted.succeeded.2 hdone
  obtain ⟨a, ha, hwritten⟩ := haccounted.written hcode
  cases hscan.symm.trans ha
  obtain ⟨program, text', hinput, hcompile', hstored⟩ := hwritten rfl rfl rfl
  obtain rfl : "(def x 1)" = program := String.toByteArray_inj.1 (Except.ok.inj hinput)
  cases hcompile.symm.trans hcompile'
  refine ⟨hrun, hcode, hstored.resolve_left fun hnull => ?_⟩
  have hplace : occupied.resolve "a/b.lua" = .error .notFound := rfl
  cases hplace.symm.trans hnull.2

end LispLua.Command
