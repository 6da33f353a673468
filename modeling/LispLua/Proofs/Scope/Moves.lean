import LispLua.Proofs.Generation.Scoping

/-!
# Moves of a session

A session changes in few ways: a layer is opened or closed, a name is declared, the module is named,
an event is recorded. Every generation is a row of such moves, whether it succeeds or fails. So what
each move keeps is kept by every generation, and no form has to be looked at for it.

The moves are told by a relation and not by the generation itself, since nothing else needs them. An
action without a move is one that leaves the session alone and takes no steps, so a layer that is
opened and closed again is always told.
-/

namespace LispLua

namespace Session

/-- What changes a session. -/
inductive Move where
  | enter (pure? : Option Bool)
  | leave
  | register (token : Token) (kind : Kind) (reach : Reach) (preserve : Bool)
  | nameModule (name : String)
  | publish (sourceName : String)
  | tell (event : Event)

/-- Why a move is refused. -/
def fault? (s : Session) : Move → Option Fault
  | .register token kind reach preserve =>
    match s.register token kind reach preserve with
    | .error f => some f
    | .ok _ => none
  | _ => none

/-- The session behind a move. A move that is refused leaves it as it was. -/
def perform (options : Options) (s : Session) : Move → Session
  | .enter pure? => s.enter pure?
  | .leave => s.leave
  | .register token kind reach preserve =>
    match s.register token kind reach preserve with
    | .error _ => s
    | .ok (_, s') => s'
  | .nameModule name => s.nameModule options name
  | .publish sourceName => s.publish ⟨options, sourceName, ""⟩
  | .tell event => { s with log := s.log ++ [event] }

/-- The session behind moves in a row. -/
def performAll (options : Options) (s : Session) (ms : List Move) : Session :=
  ms.foldl (perform options) s

/-- None of some moves in a row is refused. -/
def Accepts (options : Options) : Session → List Move → Prop
  | _, [] => True
  | s, m :: ms => s.fault? m = none ∧ Accepts options (s.perform options m) ms

variable {options : Options} {s : Session}

@[simp] theorem performAll_nil : s.performAll options [] = s := rfl

@[simp] theorem performAll_cons (m : Move) (ms : List Move) :
    s.performAll options (m :: ms) = (s.perform options m).performAll options ms := rfl

theorem performAll_append (ms ms' : List Move) :
    s.performAll options (ms ++ ms') = (s.performAll options ms).performAll options ms' :=
  List.foldl_append

theorem accepts_append {ms ms' : List Move} :
    s.Accepts options (ms ++ ms') ↔
      s.Accepts options ms ∧ (s.performAll options ms).Accepts options ms' := by
  induction ms generalizing s with
  | nil => simp [Accepts]
  | cons m ms ih => simp [Accepts, ih, and_assoc]

end Session

namespace Gen

open Session (Move Accepts)

/-- The moves that a generation makes from a session on, in order. -/
inductive Performs (job : Job) : {α : Type} → Gen α → Session → List Move → Prop
  | still {α : Type} {g : Gen α} {s : Session} :
      (g.exec job s).2 = s → g.steps job s = [] → Performs job g s []
  | register (token : Token) (kind : Kind) (reach : Reach) (preserve : Bool) (s : Session) :
      Performs job (register token kind reach preserve) s [.register token kind reach preserve]
  | nameModule (name : String) (s : Session) :
      Performs job (do modify (·.nameModule (← read).options name)) s [.nameModule name]
  | publish (s : Session) :
      Performs job (do modify (·.publish (← read))) s [.publish job.sourceName]
  | tell (event : Event) (s : Session) : Performs job (log event) s [.tell event]
  | bind {α β : Type} {g : Gen α} {k : α → Gen β} {s s' : Session} {a : α} {ms ms' : List Move} :
      g.exec job s = (.ok a, s') → Performs job g s ms → Performs job (k a) s' ms' →
      Performs job (g >>= k) s (ms ++ ms')
  | refused {α β : Type} {g : Gen α} {k : α → Gen β} {s s' : Session} {f : Fault}
      {ms : List Move} :
      g.exec job s = (.error f, s') → Performs job g s ms → Performs job (g >>= k) s ms
  | inLayer {α : Type} {g : Gen α} {s : Session} {pure? : Option Bool} {ms : List Move} :
      Performs job g (s.enter pure?) ms →
      Performs job (inLayer pure? g) s (.enter pure? :: (ms ++ [.leave]))
  | inCall {α : Type} {g : Gen α} {s : Session} {c : Call} {ms : List Move} :
      Performs job g s ms → Performs job (inCall c g) s ms

variable {job : Job} {α β : Type} {lower : Lower}

namespace Performs

variable {g : Gen α} {s : Session} {ms : List Move}

/-- The session behind a generation is the one behind its moves. -/
theorem performAll_eq (h : Performs job g s ms) :
    (g.exec job s).2 = s.performAll job.options ms := by
  induction h with
  | still hs _ => exact hs
  | register token kind reach preserve s =>
    rw [exec_register, Session.performAll_cons, Session.perform]
    rcases s.register token kind reach preserve with f | ⟨b, s'⟩
    · rfl
    · rfl
  | nameModule name s => rfl
  | publish s => rfl
  | tell event s => rfl
  | bind hg _ _ ihg ihk =>
    rw [exec_bind, hg, Session.performAll_append, ← ihg, hg]
    exact ihk
  | refused hg _ ihg =>
    rw [exec_bind, hg, ← ihg, hg]
  | inLayer _ ih =>
    rw [exec_inLayer, ih, Session.performAll_cons, Session.performAll_append]
    rfl
  | inCall _ ih => exact ih

/-- No move of a generation that succeeds is refused. -/
theorem accepts (h : Performs job g s ms) {a : α} (hok : (g.exec job s).1 = .ok a) :
    s.Accepts job.options ms := by
  induction h with
  | still | nameModule | publish | tell => simp [Accepts, Session.fault?]
  | register token kind reach preserve s =>
    rw [exec_register] at hok
    rcases hreg : s.register token kind reach preserve with f | ⟨b, s'⟩
    · rw [hreg] at hok
      cases hok
    · exact ⟨by rw [Session.fault?, hreg], trivial⟩
  | bind hg hfirst _ ihg ihk =>
    rw [exec_bind, hg] at hok
    rw [Session.accepts_append, ← hfirst.performAll_eq, hg]
    exact ⟨ihg (by rw [hg]), ihk hok⟩
  | refused hg _ _ =>
    rw [exec_bind, hg] at hok
    cases hok
  | inLayer _ ih =>
    refine ⟨rfl, Session.accepts_append.2 ⟨ih hok, rfl, trivial⟩⟩
  | inCall _ ih => exact ih hok

end Performs

/-! ### Every generation makes moves -/

/-- A sequence makes the moves of its first part, and if that succeeds those of the second. -/
theorem exists_performs_bind {g : Gen α} {k : α → Gen β} {s : Session}
    (hg : ∃ ms, Performs job g s ms)
    (hk : ∀ a s', g.exec job s = (.ok a, s') → ∃ ms, Performs job (k a) s' ms) :
    ∃ ms, Performs job (g >>= k) s ms := by
  obtain ⟨ms, hms⟩ := hg
  rcases hrun : g.exec job s with ⟨f | a, s'⟩
  · exact ⟨ms, .refused hrun hms⟩
  · obtain ⟨ms', hms'⟩ := hk a s' hrun
    exact ⟨ms ++ ms', .bind hrun hms hms'⟩

/-- What is built from actions makes moves if the lowering of terms inside does. -/
theorem Built.performs (hlower : ∀ t s, ∃ ms, Performs job (lower t) s ms) {p : Place} {g : Gen α}
    (h : Built lower p g) (s : Session) : ∃ ms, Performs job g s ms := by
  induction h generalizing s with
  | pure | throw | read | find? | reference => exact ⟨[], .still rfl rfl⟩
  | log event => exact ⟨_, .tell event s⟩
  | nameModule name => exact ⟨_, .nameModule name s⟩
  | lower t => exact hlower t s
  | bind _ _ ihg ihk => exact exists_performs_bind (ihg s) fun a s' _ => ihk a s'
  | register token kind preserve => exact ⟨_, .register token kind .block preserve s⟩
  | registerOutside token kind reach preserve => exact ⟨_, .register token kind reach preserve s⟩
  | inLayer _ ih =>
    obtain ⟨ms, hms⟩ := ih (s.enter none)
    exact ⟨_, .inLayer hms⟩
  | inFunction isPure _ ih =>
    obtain ⟨ms, hms⟩ := ih (s.enter isPure)
    exact ⟨_, .inLayer hms⟩
  | @unlessPure _ _ g cause span _ ih =>
    rw [Gen.unlessPure]
    refine exists_performs_bind ⟨[], .still rfl rfl⟩ fun isPure s' hrun => ?_
    cases hrun
    cases s.isPure with
    | true => exact ⟨[], .still rfl rfl⟩
    | false => exact ih s

/-- A call through a name looks it up, and makes the moves of what it means. -/
theorem exists_performs_dispatch (hlower : ∀ t s, ∃ ms, Performs job (lower t) s ms) (c : Call)
    (s : Session) : ∃ ms, Performs job (dispatch lower c) s ms := by
  by_cases hname : ∃ t, c.target = .name t
  · obtain ⟨t, ht⟩ := hname
    rw [dispatch, ht]
    have hresolve := (built_resolve (p := .naming) t).performs hlower s
    refine exists_performs_bind hresolve fun m s' _ => ?_
    refine exists_performs_bind ⟨[], .still ?_ (steps_permit m c.span job s')⟩ fun _ s'' _ => ?_
    · rw [exec_permit]
      split
      · rfl
      · rfl
    · exact (built_through m c fun _ => rfl).performs hlower s''
  · rcases dispatch_cases lower c job s with ⟨-, h⟩ | ⟨f, h⟩ | ⟨m, hm, -, -⟩
    · exact h.performs hlower s
    · exact ⟨[], .still (by rw [exec, h]) (by rw [steps, h])⟩
    · rw [Session.meaning?, Call.name?] at hm
      split at hm
      · exact absurd ⟨_, ‹_›⟩ hname
      · cases hm

theorem exists_performs_call (hlower : ∀ t s, ∃ ms, Performs job (lower t) s ms) (c : Call)
    (s : Session) : ∃ ms, Performs job (call lower c) s ms := by
  obtain ⟨ms, hms⟩ := exists_performs_dispatch hlower c s
  exact ⟨ms, .inCall hms⟩

theorem exists_performs_within (depth : Nat) (t : Term) (s : Session) :
    ∃ ms, Performs job (within depth t) s ms := by
  induction depth generalizing t s with
  | zero => exact ⟨[], .still rfl rfl⟩
  | succ depth ih =>
    rw [within]
    rcases step_cases (within depth) t with h | ⟨c, -, h⟩
    · exact h.performs ih s
    · rw [h]
      exact exists_performs_call ih c s

theorem exists_performs_term (t : Term) (s : Session) : ∃ ms, Performs job (term t) s ms :=
  exists_performs_within t.rank t s

theorem exists_performs_chunk (ss : List Lua.Stmt) (s : Session) :
    ∃ ms, Performs job (chunk ss) s ms := by
  refine exists_performs_bind ⟨[], .still rfl rfl⟩ fun job' s' _ => ?_
  refine exists_performs_bind ⟨[], .still rfl rfl⟩ fun s₁ s'' _ => ?_
  split
  · exact exists_performs_bind ⟨_, .tell _ s''⟩ fun _ _ _ => ⟨[], .still rfl rfl⟩
  · exact ⟨[], .still rfl rfl⟩

theorem exists_performs_program (p : Program) (s : Session) :
    ∃ ms, Performs job (program p) s ms := by
  rw [program, ← bind_assoc]
  refine exists_performs_bind ⟨_, .publish s⟩ fun _ s' _ => ?_
  refine exists_performs_bind ((built_statements p).performs exists_performs_term s') ?_
  exact fun ss s'' _ => exists_performs_chunk ss s''

/-- The generations that can be called from outside, each also in a layer of its own. -/
inductive Generator : {α : Type} → Gen α → Prop
  | term (t : Term) : Generator (term t)
  | value (t : Term) : Generator (value t)
  | call (c : Call) : Generator (call Gen.term c)
  | args (ts : List Term) : Generator (args Gen.term ts)
  | body (ts : List Term) : Generator (body Gen.term ts)
  | access (path : Path) : Generator (access path)
  | statements (p : Program) : Generator (statements p)
  | program (p : Program) : Generator (program p)
  | inLayer {α : Type} {g : Gen α} (pure? : Option Bool) :
      Generator g → Generator (inLayer pure? g)

/-- Every generation is a row of moves. -/
theorem Generator.performs {g : Gen α} (h : Generator g) (job : Job) (s : Session) :
    ∃ ms, Performs job g s ms := by
  induction h generalizing s with
  | term t => exact exists_performs_term t s
  | value t => exact Built.performs exists_performs_term (p := .anywhere) (built_eval t) s
  | call c => exact exists_performs_call exists_performs_term c s
  | args ts => exact Built.performs exists_performs_term (p := .anywhere) (built_args ts) s
  | body ts => exact Built.performs exists_performs_term (p := .anywhere) (built_body ts) s
  | access path =>
    exact Built.performs exists_performs_term (p := .anywhere) (built_access path) s
  | statements p => exact (built_statements p).performs exists_performs_term s
  | program p => exact exists_performs_program p s
  | inLayer pure? _ ih =>
    obtain ⟨ms, hms⟩ := ih (s.enter pure?)
    exact ⟨_, .inLayer hms⟩

end Gen

namespace Session

/-- The sessions that moves and generations lead to under some options, in any order and whether
they succeed or fail. -/
inductive Reached (options : Options) : Session → Prop
  | start : Reached options .start
  | move {s : Session} (m : Move) : Reached options s → Reached options (s.perform options m)
  | generate {α : Type} {s : Session} {g : Gen α} (job : Job) : job.options = options →
      Gen.Generator g → Reached options s → Reached options (g.exec job s).2

/-- Whatever can be reached, moves alone lead to. -/
theorem Reached.exists_moves {options : Options} {s : Session} (h : Reached options s) :
    ∃ ms, s = Session.start.performAll options ms := by
  induction h with
  | start => exact ⟨[], rfl⟩
  | move m _ ih =>
    obtain ⟨ms, rfl⟩ := ih
    exact ⟨ms ++ [m], by rw [performAll_append]; rfl⟩
  | generate job hjob hg _ ih =>
    obtain ⟨ms, rfl⟩ := ih
    obtain ⟨ms', hms'⟩ := hg.performs job (Session.start.performAll options ms)
    refine ⟨ms ++ ms', ?_⟩
    rw [performAll_append, hms'.performAll_eq, hjob]

end Session

end LispLua
