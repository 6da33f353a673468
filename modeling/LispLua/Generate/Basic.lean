import LispLua.Fault
import LispLua.Lua.Printer
import LispLua.Options
import LispLua.Report.Event
import LispLua.Scope.Layers
import LispLua.Scope.Standard
import LispLua.Text.Numeric

/-!
# The generator

Generation runs for a fixed `Job` and carries a `Session` along: what is declared, the expression of
the package table, the name of the module, and the events so far. A run that fails keeps the session
as it was when it failed.

The standard names are not entries of the session: a look-up that finds nothing declared goes on to
the standard table. So no program can make or change a special form, only hide it.

A generation also tells the calls it lowers and the layers it opens. Nothing is decided on that; it
is there so that one can speak about what happens inside a generation and not only about its result.
-/

namespace LispLua

/-- What is fixed during a generation. -/
structure Job where
  options : Options
  sourceName : String
  code : String
  deriving Inhabited

/-- The part of a file name in front of its extension. An extension is made of letters, numerals and
underscores, at least one of them. -/
def stem (name : String) : String :=
  let reversed := name.toList.reverse
  let extension := reversed.takeWhile (· != '.')
  match reversed.drop extension.length with
  | '.' :: front =>
    if !extension.isEmpty && extension.all (fun c => isAlphanumeric c || c == '_') then
      String.ofList front.reverse
    else name
  | _ => name

/-- The name of the module if the program gives it none. -/
def Job.fallbackModule (job : Job) : String :=
  stem job.sourceName

/-- The package table of a module in the global environment. -/
def publishedPackage (name : String) : String :=
  (Lua.Code.member "_G" name).render

/-- The package table of a chunk that returns it. -/
def localPackage : String :=
  "__local_package"

/-- What changes during a generation. -/
structure Session where
  /-- The declared names; the tag of a layer says whether it is pure. -/
  scope : Layers Bool String Binding
  /-- The expression through which the package table is reached. -/
  package : String
  moduleName : Option String
  log : List Event

/-- What a name refers to. -/
inductive Meaning where
  | declared (binding : Binding)
  | standard (entry : Standard.Entry)
  deriving DecidableEq, Inhabited

namespace Meaning

/-- The special form a name refers to. -/
def form? : Meaning → Option Form
  | standard ⟨_, _, .form form _⟩ => some form
  | _ => none

/-- Whether a name refers to a special form. -/
def isForm (m : Meaning) : Bool :=
  m.form?.isSome

/-- The function that stands for a special form as a value. -/
def function? : Meaning → Option String
  | standard ⟨_, _, .form _ function⟩ => function
  | _ => none

/-- Whether a name refers to a function with effects. -/
def isEffect : Meaning → Bool
  | declared b => b.kind == .effect
  | standard e => e.role == .plain .effect

/-- The code that refers to what a name means. -/
def reference (m : Meaning) (package : String) : Lua.Code :=
  match m with
  | declared b => b.reference package
  | standard e => .word e.emitted

end Meaning

namespace Session

/-- The session at the start of a program. -/
def start : Session :=
  ⟨.empty, localPackage, none, []⟩

instance : Inhabited Session := ⟨start⟩

/-- Whether the innermost layer is pure. The root is not. -/
def isPure (s : Session) : Bool :=
  s.scope.tag?.getD false

/-- Open a layer, which is as pure as the one around it unless said otherwise. -/
def enter (s : Session) (pure? : Option Bool) : Session :=
  { s with scope := s.scope.enter (pure?.getD s.isPure) }

/-- Close the innermost layer. -/
def leave (s : Session) : Session :=
  { s with scope := s.scope.leave }

/-- What a name refers to: the innermost declaration, or else the standard name. -/
def find? (s : Session) (name : String) : Option Meaning :=
  match s.scope.get? name with
  | some b => some (.declared b)
  | none => (Standard.find? name).map .standard

/-- Declare a name. A name of the package can be declared once; other names can be declared again.
Names of a block go to the innermost layer and all others to the root. -/
def register (s : Session) (token : Token) (kind : Kind) (reach : Reach) (preserve : Bool) :
    Except Fault (Binding × Session) :=
  let b := Binding.declare token.text kind reach preserve
  match reach with
  | .block => .ok (b, { s with scope := s.scope.set token.text b })
  | .everywhere => .ok (b, { s with scope := s.scope.setRoot token.text b })
  | .package =>
    if (s.scope.getRoot? token.text).any (·.reach == .package) then
      .error ⟨.redeclared token.text, token.span⟩
    else .ok (b, { s with scope := s.scope.setRoot token.text b })

/-- Give the module its name, under which a published package is reached from now on. -/
def nameModule (s : Session) (options : Options) (name : String) : Session :=
  { s with
    moduleName := some name
    package := if options.publish then publishedPackage name else s.package }

/-- Reach a published package through the name of the source, until the module has a name. -/
def publish (s : Session) (job : Job) : Session :=
  { s with
    package := if job.options.publish then publishedPackage job.fallbackModule else s.package }

end Session

/-- Something that happened during a generation, and what happened inside. -/
inductive Step where
  /-- A call was lowered; the session is the one before. -/
  | call (call : Call) (session : Session) (inner : List Step)
  /-- A layer was opened; the session is the one inside. -/
  | layer (session : Session) (inner : List Step)

/-- A value and the steps on the way to it. -/
structure Traced (α : Type) where
  value : α
  steps : List Step

instance : Monad Traced where
  pure a := ⟨a, []⟩
  bind x k :=
    let y := k x.value
    ⟨y.value, x.steps ++ y.steps⟩

instance : LawfulMonad Traced := LawfulMonad.mk' Traced
  (fun x => by simp [Functor.map])
  (fun x f => by simp [bind, pure])
  (fun x f g => by simp [bind])

/-- Generation: it reads the job, it changes the session also when it fails, and it tells its
steps. -/
abbrev Gen := ReaderT Job (ExceptT Fault (StateT Session Traced))

namespace Gen

/-- Run a generation: the result and the session behind it, with the steps. -/
def run {α : Type} (g : Gen α) (job : Job) (s : Session) : Traced (Except Fault α × Session) :=
  (g job : ExceptT Fault (StateT Session Traced) α).run.run s

/-- The result of a generation and the session behind it. -/
def exec {α : Type} (g : Gen α) (job : Job) (s : Session) : Except Fault α × Session :=
  (g.run job s).value

/-- The steps of a generation. -/
def steps {α : Type} (g : Gen α) (job : Job) (s : Session) : List Step :=
  (g.run job s).steps

/-- A generation that is given by its run. -/
def ofRun {α : Type} (r : Job → Session → Traced (Except Fault α × Session)) : Gen α := fun job =>
  ExceptT.mk fun s => r job s

/-- Refuse the program. -/
def refuse {α : Type} (cause : Cause) (span : Span) : Gen α :=
  throw ⟨cause, span⟩

/-- Go on with a result that may be a fault. -/
def ofExcept {α : Type} : Except Fault α → Gen α
  | .ok a => pure a
  | .error f => throw f

/-- Run in a layer of its own, which is left whether the run fails or not. -/
def inLayer {α : Type} (pure? : Option Bool) (g : Gen α) : Gen α :=
  ofRun fun job s =>
    let inside := s.enter pure?
    let ⟨(result, s'), steps⟩ := g.run job inside
    ⟨(result, s'.leave), [.layer inside steps]⟩

/-- Tell that a run lowers a call. -/
def inCall {α : Type} (c : Call) (g : Gen α) : Gen α :=
  ofRun fun job s =>
    let ⟨outcome, steps⟩ := g.run job s
    ⟨outcome, [.call c s steps]⟩

/-- Record an event. -/
def log (event : Event) : Gen Unit :=
  modify fun s => { s with log := s.log ++ [event] }

/-- Record a flaw of the program. -/
def warn (message : String) (span : Span) : Gen Unit := do
  let job ← read
  log (.warning message job.sourceName job.code span)

/-- Whether generation is inside a pure function. -/
def isPure : Gen Bool :=
  return (← get).isPure

/-- Run outside pure functions only. -/
def unlessPure {α : Type} (cause : Cause) (span : Span) (g : Gen α) : Gen α := do
  if ← isPure then refuse cause span else g

/-- What a name refers to. -/
def find? (name : String) : Gen (Option Meaning) :=
  return (← get).find? name

/-- What a name refers to; an unbound name is refused. -/
def resolve (token : Token) : Gen Meaning := do
  match ← find? token.text with
  | some m => return m
  | none => refuse (.unbound token.text) token.span

/-- Declare a name. -/
def register (token : Token) (kind : Kind) (reach : Reach) (preserve : Bool) : Gen Binding := do
  let (b, s) ← ofExcept ((← get).register token kind reach preserve)
  set s
  return b

/-- Declare a value of the innermost block, and give its emitted name. -/
def registerLocal (token : Token) : Gen String :=
  return (← register token .value .block false).emitted

/-- The code that refers to what a name means, as the package table is reached now. -/
def reference (m : Meaning) : Gen Lua.Code :=
  return m.reference (← get).package

/-- A block as an expression. -/
def thunk (body : Lua.Code) : Gen Lua.Code :=
  return .thunk (← read).options.variadic body

/-! ### What a run does -/

variable {α β : Type} (job : Job) (s : Session)

/-- Two generations are the same if they run the same. -/
theorem ext {g h : Gen α} (eq : ∀ job s, g.run job s = h.run job s) : g = h :=
  funext fun job => funext fun s => eq job s

@[simp] theorem exec_pure (a : α) : (pure a : Gen α).exec job s = (.ok a, s) := rfl

@[simp] theorem exec_refuse (cause : Cause) (span : Span) :
    (refuse cause span : Gen α).exec job s = (.error ⟨cause, span⟩, s) := rfl

theorem run_bind (g : Gen α) (k : α → Gen β) :
    (g >>= k).run job s =
      match g.exec job s with
      | (.ok a, s') => ⟨(k a).exec job s', g.steps job s ++ (k a).steps job s'⟩
      | (.error f, s') => ⟨(.error f, s'), g.steps job s⟩ := by
  simp only [run, exec, steps, bind, ReaderT.bind, ExceptT.bind, ExceptT.run, StateT.run,
    StateT.bind, ExceptT.mk]
  rcases g job s with ⟨⟨_ | _, _⟩, _⟩
  · exact congrArg (Traced.mk _) (List.append_nil _)
  · rfl

theorem exec_bind (g : Gen α) (k : α → Gen β) :
    (g >>= k).exec job s =
      match g.exec job s with
      | (.ok a, s') => (k a).exec job s'
      | (.error f, s') => (.error f, s') := by
  rw [exec, run_bind]
  rcases g.exec job s with ⟨_ | _, _⟩ <;> rfl

theorem steps_bind (g : Gen α) (k : α → Gen β) :
    (g >>= k).steps job s =
      match g.exec job s with
      | (.ok a, s') => g.steps job s ++ (k a).steps job s'
      | (.error _, _) => g.steps job s := by
  rw [steps, run_bind]
  rcases g.exec job s with ⟨_ | _, _⟩ <;> rfl

@[simp] theorem exec_get : (get : Gen Session).exec job s = (.ok s, s) := rfl

@[simp] theorem exec_read : (read : Gen Job).exec job s = (.ok job, s) := rfl

@[simp] theorem exec_modify (f : Session → Session) :
    (modify f : Gen PUnit).exec job s = (.ok ⟨⟩, f s) := rfl

@[simp] theorem exec_log (event : Event) :
    (log event).exec job s = (.ok (), { s with log := s.log ++ [event] }) := rfl

@[simp] theorem exec_isPure : isPure.exec job s = (.ok s.isPure, s) := rfl

@[simp] theorem exec_find? (name : String) :
    (find? name).exec job s = (.ok (s.find? name), s) := rfl

@[simp] theorem exec_ofExcept (r : Except Fault α) : (ofExcept r).exec job s = (r, s) := by
  cases r <;> rfl

theorem exec_inLayer (pure? : Option Bool) (g : Gen α) :
    (inLayer pure? g).exec job s =
      ((g.exec job (s.enter pure?)).1, (g.exec job (s.enter pure?)).2.leave) := rfl

theorem exec_inCall (c : Call) (g : Gen α) : (inCall c g).exec job s = g.exec job s := rfl

theorem exec_unlessPure (cause : Cause) (span : Span) (g : Gen α) :
    (unlessPure cause span g).exec job s =
      if s.isPure then (.error ⟨cause, span⟩, s) else g.exec job s := by
  rw [unlessPure, exec_bind, exec_isPure]
  cases s.isPure <;> rfl

theorem exec_resolve (token : Token) :
    (resolve token).exec job s =
      match s.find? token.text with
      | some m => (.ok m, s)
      | none => (.error ⟨.unbound token.text, token.span⟩, s) := by
  rw [resolve, exec_bind, exec_find?]
  cases s.find? token.text <;> rfl

theorem exec_register (token : Token) (kind : Kind) (reach : Reach) (preserve : Bool) :
    (register token kind reach preserve).exec job s =
      match s.register token kind reach preserve with
      | .ok (b, s') => (.ok b, s')
      | .error f => (.error f, s) := by
  simp only [register, exec_bind, exec_get, exec_ofExcept]
  cases s.register token kind reach preserve <;> rfl

/-! ### What steps a run takes -/

@[simp] theorem steps_pure (a : α) : (pure a : Gen α).steps job s = [] := rfl

@[simp] theorem steps_throw (f : Fault) : (throw f : Gen α).steps job s = [] := rfl

@[simp] theorem steps_read : (read : Gen Job).steps job s = [] := rfl

@[simp] theorem steps_modify (f : Session → Session) :
    (modify f : Gen PUnit).steps job s = [] := rfl

@[simp] theorem steps_log (event : Event) : (log event).steps job s = [] := rfl

@[simp] theorem steps_isPure : isPure.steps job s = [] := rfl

@[simp] theorem steps_find? (name : String) : (find? name).steps job s = [] := rfl

@[simp] theorem steps_reference (m : Meaning) : (reference m).steps job s = [] := rfl

@[simp] theorem steps_register (token : Token) (kind : Kind) (reach : Reach) (preserve : Bool) :
    (register token kind reach preserve).steps job s = [] := by
  simp only [register, steps_bind, exec_get, exec_ofExcept]
  cases s.register token kind reach preserve <;> rfl

@[simp] theorem steps_resolve (token : Token) : (resolve token).steps job s = [] := by
  rw [resolve, steps_bind, exec_find?]
  cases s.find? token.text <;> rfl

theorem steps_inLayer (pure? : Option Bool) (g : Gen α) :
    (inLayer pure? g).steps job s =
      [.layer (s.enter pure?) (g.steps job (s.enter pure?))] := rfl

theorem steps_inCall (c : Call) (g : Gen α) :
    (inCall c g).steps job s = [.call c s (g.steps job s)] := rfl

theorem steps_unlessPure (cause : Cause) (span : Span) (g : Gen α) :
    (unlessPure cause span g).steps job s = if s.isPure then [] else g.steps job s := by
  rw [unlessPure, steps_bind, exec_isPure]
  cases s.isPure <;> rfl

end Gen

end LispLua
