import LispLua.Compile
import LispLua.Proofs.Accord.Basic

/-!
# Forms under two jobs

Every form ends in the same way under two jobs if the lowering of the terms inside does, and so do
terms and programs.

The depth to which terms are lowered is the same in both runs, so the induction is on it, and not on
the rank.
-/

namespace LispLua.Gen.Accord

open Lua

variable {A : Accord}

/-! ### What lowers no terms -/

theorem runs_nameValue (t : Token) : A.Runs A.Same (nameValue t) (nameValue t) := by
  refine (runs_resolve t).seq fun m => .ite ?_ (runs_reference m)
  cases m.function? with
  | none => exact .refuse _ _
  | some f => exact .pure (.refl _)

theorem runs_segment {owner owner' : Code} (h : A.Same owner owner') (s : Segment) :
    A.Runs A.Same (segment owner s) (segment owner' s) := by
  unfold segment
  cases s.link with
  | method => exact .pure (h.map (Code.method · _))
  | field => exact .pure (h.map (Code.field · _))
  | optionalMethod | optionalField => exact .refuse _ _

theorem runs_segments (segments : List Segment) {owner owner' : Code} (h : A.Same owner owner') :
    A.Runs A.Same (segments.foldlM segment owner) (segments.foldlM segment owner') := by
  induction segments generalizing owner owner' with
  | nil => exact .pure h
  | cons s segments ih =>
    rw [List.foldlM_cons, List.foldlM_cons]
    exact (runs_segment h s).bind fun _ _ => ih

theorem runs_access (p : Path) : A.Runs A.Same (access p) (access p) :=
  (runs_resolve p.root).seq fun m => .guard <|
    (runs_reference m).bind fun _ _ => runs_segments p.segments

theorem runs_pathValue (p : Path) : A.Runs A.Same (pathValue p) (pathValue p) :=
  .guard (runs_access p)

theorem runs_isDefinition (t : Term) : A.Runs Eq (isDefinition t) (isDefinition t) := by
  unfold isDefinition
  split
  · exact (runs_find? _).seq fun _ => .pure rfl
  · exact .pure rfl

theorem runs_bindLocal (t : Token) {value value' : Code} (h : A.Same value value') :
    A.Runs A.Same (bindLocal t value) (bindLocal t value') :=
  (runs_registerLocal t).seq fun _ => .pure (h.map _)

mutual

theorem runs_destructure : ∀ (t : Term) {value value' : Code}, A.Same value value' →
    A.Runs A.Same (destructure t value) (destructure t value')
  | .list items _, _, _, h => runs_destructureItems items 0 h
  | .name t, _, _, h => (runs_bindLocal t h).mapSame
  | .table .., _, _, _ | .call .., _, _, _ | .path _, _, _, _ | .number _, _, _, _
  | .string _, _, _, _ | .symbol _, _, _, _ | .wildcard _, _, _, _ => .refuse _ _

theorem runs_destructureItems : ∀ (ts : List Term) (index : Nat) {value value' : Code},
    A.Same value value' →
    A.Runs A.Same (destructureItems ts value index) (destructureItems ts value' index)
  | [], _, _, _, _ => .pure (.refl _)
  | t :: ts, index, _, _, h =>
    (runs_destructure t (h.map (Code.item · index))).bind fun _ _ hfirst =>
      (runs_destructureItems ts (index + 1) h).map fun _ _ => hfirst.map₂ _

end

theorem runs_bindPair (left : Term) {value value' : Code} (h : A.Same value value') :
    A.Runs A.Same (bindPair left value) (bindPair left value') := by
  cases left with
  | name t => exact (runs_bindLocal t h).mapSame
  | list items span => exact runs_destructureItems items 0 (h.map indexable)
  | _ => exact .refuse _ _

theorem runs_loopName (cause : Cause) (t : Term) :
    A.Runs Eq (loopName cause t) (loopName cause t) := by
  unfold loopName
  split
  · exact .pure rfl
  · exact .refuse _ _

theorem runs_restParameter (ampersand : Span) (ts : List Term) :
    A.Runs Eq (restParameter ampersand ts) (restParameter ampersand ts) := by
  unfold restParameter
  split
  · exact .refuse _ _
  · exact runs_registerLocal _
  · exact .refuse _ _
  · exact .refuse _ _
  · exact .refuse _ _

theorem runs_parameters : ∀ ts, A.Runs Eq (parameters ts) (parameters ts)
  | [] => .pure rfl
  | .name t :: ts => .ite ((runs_restParameter t.span ts).mapEq)
      ((runs_registerLocal t).seq fun _ => (runs_parameters ts).seq fun _ => .pure rfl)
  | .list .. :: _ | .table .. :: _ | .call .. :: _ | .path _ :: _ | .number _ :: _ | .string _ :: _
  | .symbol _ :: _ | .wildcard _ :: _ => .refuse _ _

theorem runs_importMembers : ∀ ts, A.Runs Eq (importMembers ts) (importMembers ts)
  | [] => .pure rfl
  | .name t :: ts =>
    (runs_registerLocal t).seq fun _ => (runs_importMembers ts).mapEq
  | .list .. :: _ | .table .. :: _ | .call .. :: _ | .path _ :: _ | .number _ :: _ | .string _ :: _
  | .symbol _ :: _ | .wildcard _ :: _ => .refuse _ _

theorem runs_importWord (t : Term) : A.Runs Eq (importWord t) (importWord t) := by
  unfold importWord
  split
  · exact .ite (.pure rfl) (.refuse _ _)
  · exact .refuse _ _

theorem runs_importClause (t : Term) : A.Runs Eq (importClause t) (importClause t) := by
  unfold importClause
  split
  · exact .pure rfl
  · exact .pure rfl
  · exact .refuse _ _

theorem runs_specifiers : ∀ (given : List String) (ts : List Term),
    A.Runs Eq (specifiers given ts) (specifiers given ts)
  | _, [] => .pure rfl
  | given, .name _ :: ts => (runs_specifiers given ts).seq fun _ => .pure rfl
  | _, .symbol _ :: ts => .ite (.refuse _ _) (.ite (.refuse _ _) (runs_specifiers _ ts))
  | _, .list .. :: _ | _, .table .. :: _ | _, .call .. :: _ | _, .path _ :: _ | _, .number _ :: _
  | _, .string _ :: _ | _, .wildcard _ :: _ => .refuse _ _

theorem runs_specifiedKind (given : List String) (span : Span) :
    A.Runs Eq (specifiedKind given span) (specifiedKind given span) := by
  unfold specifiedKind
  split
  · exact .refuse _ _
  · exact .pure rfl
  · exact .pure rfl
  · exact .pure rfl

theorem runs_declare (c : Call) : A.Runs A.Same (declare c) (declare c) := by
  refine .unlessPure _ rfl ((runs_specifiers [] c.args).seq fun found => ?_)
  refine (runs_specifiedKind found.1 c.span).seq fun kind => Runs.mapSame (.mapM _ fun t => ?_)
  exact (runs_register t _ _ _).seq fun _ => .pure (.refl _)

theorem runs_plain {g h : Gen Code} (hg : A.Runs A.Same g h) :
    A.Runs A.Same (plain g) (plain h) :=
  hg.map fun _ _ => .map _

/-! ### Forms -/

/-- A lowering ends in the same way under both jobs. -/
def Lowers (A : Accord) (lower : Lower) : Prop :=
  ∀ t, A.Runs A.Same (lower t) (lower t)

namespace Lowers

variable {lower : Lower} (hl : A.Lowers lower)

include hl

theorem eval (t : Term) : A.Runs A.Same (Gen.eval lower t) (Gen.eval lower t) :=
  (hl t).mapSame

theorem evalAll (ts : List Term) : A.Runs A.Same (Gen.evalAll lower ts) (Gen.evalAll lower ts) :=
  .mapM ts hl.eval

theorem arg (t : Term) : A.Runs A.Same (Gen.arg lower t) (Gen.arg lower t) := by
  cases t with
  | name token =>
    refine (runs_find? token.text).seq fun m => ?_
    cases m with
    | none => exact hl.eval _
    | some m =>
      refine .ite ?_ (hl.eval _)
      cases m.function? with
      | none => exact .refuse _ _
      | some f => exact .pure (.refl _)
  | _ => exact hl.eval _

theorem args (ts : List Term) : A.Runs A.Same (Gen.args lower ts) (Gen.args lower ts) :=
  .mapM ts hl.arg

theorem key (escaped : Bool) (t : Term) :
    A.Runs A.Same (Gen.key lower escaped t) (Gen.key lower escaped t) := by
  cases t with
  | symbol token => exact .ite (.pure (.refl _)) (hl.eval _)
  | _ => exact hl.eval _

theorem entries (escaped : Bool) :
    ∀ ts, A.Runs A.Same (Gen.entries lower escaped ts) (Gen.entries lower escaped ts)
  | [] => .pure (.refl _)
  | [k] => (hl.key escaped k).bind fun _ _ hkey =>
      (runs_nameValue _).map fun _ _ => hkey.map₂ fun key unit => [Code.entry key unit]
  | k :: v :: rest =>
    (hl.key escaped k).bind fun _ _ hkey => (hl.eval v).bind fun _ _ hvalue =>
      (entries escaped rest).map fun _ _ => (hkey.map₂ Code.entry hvalue).map₂ _

theorem table (items : List Term) (escaped : Bool) :
    A.Runs A.Same (Gen.table lower items escaped) (Gen.table lower items escaped) :=
  (hl.entries escaped items).mapSame

theorem body : ∀ ts, A.Runs A.Same (Gen.body lower ts) (Gen.body lower ts)
  | [] => .pure (.refl _)
  | [t] => (runs_isDefinition t).seq fun _ => (hl t).mapSame
  | t :: u :: ts => (hl t).bind fun _ _ hfirst =>
      (body (u :: ts)).map fun _ _ => hfirst.map₂ fun s rest => Code.run s.separated s.code :: rest

/-- A body as an expression. -/
theorem thunkBody (ts : List Term) (f : List Code → Code) :
    A.Runs A.Same (do thunk (f (← Gen.body lower ts))) (do thunk (f (← Gen.body lower ts))) :=
  (hl.body ts).bind fun _ _ h => runs_thunk (h.map f)

theorem bindPairs : ∀ ts, A.Runs A.Same (Gen.bindPairs lower ts) (Gen.bindPairs lower ts)
  | [] | [_] => .pure (.refl _)
  | left :: right :: rest =>
    (hl.eval right).bind fun _ _ hvalue => (runs_bindPair left hvalue).bind fun _ _ hfirst =>
      (bindPairs rest).map fun _ _ => hfirst.map₂ _

theorem bindings (c : Call) : A.Runs A.Same (Gen.bindings lower c) (Gen.bindings lower c) := by
  unfold Gen.bindings
  split
  · refine .guard <| .inLayer none <| (hl.bindPairs _).bind fun _ _ hpairs => ?_
    exact (hl.body _).bind fun _ _ hlines =>
      runs_thunk (hpairs.map₂ (fun bs lines => Code.scope bs (.lines lines)) hlines)
  · exact .refuse _ _
  · exact .refuse _ _

theorem conditional (c : Call) :
    A.Runs A.Same (Gen.conditional lower c) (Gen.conditional lower c) := by
  unfold Gen.conditional
  split
  · refine .guard <| (hl.eval _).bind fun _ _ htest => (hl.eval _).bind fun _ _ hyes => ?_
    refine (hl.body _).bind fun _ _ hno => runs_thunk ?_
    exact (htest.map₂ Code.branch hyes).map₂ (fun branch no => branch (.lines no)) hno
  · exact .refuse _ _

theorem itemTests {subject subject' : Code} (h : A.Same subject subject') :
    ∀ (ts : List Term) (index : Nat),
      A.Runs A.Same (Gen.itemTests lower subject ts index) (Gen.itemTests lower subject' ts index)
  | [], _ => .pure (.refl _)
  | t :: ts, index => .ite (itemTests h ts (index + 1)) <| (hl.eval t).bind fun _ _ hvalue =>
      (itemTests h ts (index + 1)).map fun _ _ =>
        (h.map₂ (fun s v => Code.binary " == " (.item (indexable s) index) v) hvalue).map₂ _

theorem caseTest {subject subject' : Code} (h : A.Same subject subject') (t : Term) :
    A.Runs A.Same (Gen.caseTest lower subject t) (Gen.caseTest lower subject' t) := by
  cases t with
  | list items span =>
    exact (hl.itemTests h items 0).map fun _ _ =>
      h.map₂ fun subject tests => Code.every (.isTable subject :: tests)
  | _ => exact (hl.eval _).map fun _ _ => h.map₂ _

theorem arms {subject subject' : Code} (h : A.Same subject subject') :
    ∀ (ts : List Term) (seen : Bool),
      A.Runs A.Same (Gen.arms lower subject ts seen) (Gen.arms lower subject' ts seen)
  | [], _ | [_], _ => .pure (.refl _)
  | left :: right :: rest, seen => .ite
      (.ite ((runs_warn _ _).seq fun _ => arms h rest true) (arms h rest true))
      ((hl.eval right).bind fun _ _ hvalue => (hl.caseTest h left).bind fun _ _ htest =>
        (arms h rest seen).map fun _ _ => (htest.map₂ Code.arm hvalue).map₂ _)

theorem fallback (t : Option Term) :
    A.Runs A.Same (t.mapM fun t => Gen.body lower [t]) (t.mapM fun t => Gen.body lower [t]) := by
  cases t with
  | none => exact .pure (.refl _)
  | some t => exact (hl.body [t]).mapSame

theorem matching (c : Call) : A.Runs A.Same (Gen.matching lower c) (Gen.matching lower c) := by
  unfold Gen.matching
  split
  · exact .refuse _ _
  · refine .guard <| (hl.eval _).bind fun _ _ hsubject => (hl.arms hsubject _ _).bind ?_
    exact fun _ _ htests => (hl.fallback _).bind fun _ _ hlast => runs_thunk (htests.map₂ _ hlast)

/-- What a loop runs over is counted in both runs or taken in pairs in both. -/
theorem loopSource (source : Term) :
    A.Runs (Sum.LiftRel A.Same A.Same) (Gen.loopSource lower source)
      (Gen.loopSource lower source) := by
  unfold Gen.loopSource
  split
  · exact .ite ((hl.evalAll _).map fun _ _ => .inl) ((hl.eval _).map fun _ _ => .inr)
  · exact (hl.eval _).map fun _ _ => .inr

theorem loop (c : Call) : A.Runs A.Same (Gen.loop lower c) (Gen.loop lower c) := by
  unfold Gen.loop
  split
  · refine (runs_loopName _ _).seq fun item => (hl.loopSource _).bind fun _ _ hsource => ?_
    refine (runs_registerLocal item).seq fun value => (hl.evalAll _).bind fun _ _ hterms => ?_
    cases hsource with
    | inl h => exact runs_thunk (h.map₂ (Code.count value) hterms)
    | inr h => exact runs_thunk (h.map₂ (Code.each "_" value) hterms)
  · refine (runs_loopName _ _).seq fun item => (runs_loopName _ _).seq fun key => ?_
    refine (hl.eval _).bind fun _ _ hsource => (runs_registerLocal item).seq fun value => ?_
    exact (runs_registerLocal key).seq fun key => (hl.evalAll _).bind fun _ _ hterms =>
      runs_thunk (hsource.map₂ (Code.each key value) hterms)
  · exact .refuse _ _
  · exact .refuse _ _
  · exact .refuse _ _

theorem attempt (ts : List Term) : A.Runs A.Same (Gen.attempt lower ts) (Gen.attempt lower ts) := by
  refine (hl.body _).bind fun trying _ htrying => (hl.body _).bind fun catching _ hcatching => ?_
  have hread : A.Runs (fun j j' => A.Same j.options.variadic j'.options.variadic) read read :=
    fun _ _ hs => .ok A.variadic_eq hs
  refine hread.bind fun _ _ hvariadic => runs_thunk ?_
  exact hvariadic.map₂ (fun v (codes : Code × Code) => Code.protect v codes.1 codes.2)
    (htrying.map₂ (fun trying catching => (Code.lines trying, Code.lines catching)) hcatching)

theorem handler (c : Call) : A.Runs A.Same (Gen.handler lower c) (Gen.handler lower c) := by
  unfold Gen.handler
  split
  · split
    · exact .inLayer none <| (runs_registerLocal _).seq fun _ => (hl.body _).mapSame
    · exact .refuse _ _
  · exact .refuse _ _

theorem closure (formals ts : List Term) :
    A.Runs A.Same (Gen.closure lower formals ts) (Gen.closure lower formals ts) := by
  refine (runs_parameters formals).seq fun _ => ?_
  cases ts with
  | nil => exact .pure (.refl _)
  | cons t ts => exact (hl.body _).mapSame

theorem lambda (c : Call) : A.Runs A.Same (Gen.lambda lower c) (Gen.lambda lower c) := by
  unfold Gen.lambda
  split
  · exact .inLayer none (hl.closure _ _)
  · exact .refuse _ _
  · exact .refuse _ _

theorem named (isPure hidden : Bool) (token : Token) (formals rest : List Term) :
    A.Runs A.Same (Gen.named lower isPure hidden token formals rest)
      (Gen.named lower isPure hidden token formals rest) := by
  refine (runs_register _ _ _ _).seq fun binding => (runs_log _).seq fun _ => ?_
  refine (Runs.inLayer _ (hl.closure _ _)).bind fun _ _ hcode => .ite ?_ ?_
  · exact .pure (hcode.map _)
  · exact (runs_reference _).map fun _ _ hreference => hreference.map₂ _ hcode

theorem function (c : Call) (isPure hidden : Bool) :
    A.Runs A.Same (Gen.function lower c isPure hidden) (Gen.function lower c isPure hidden) := by
  refine .unlessPure _ rfl ?_
  split
  · exact hl.named _ _ _ _ _
  · exact .refuse _ _
  · exact .refuse _ _
  · exact .refuse _ _

theorem define (c : Call) (isPure : Bool) :
    A.Runs A.Same (Gen.define lower c isPure) (Gen.define lower c isPure) := by
  refine .unlessPure _ rfl ?_
  split
  · exact hl.named _ _ _ _ _
  · refine .ite ?_ (.refuse _ _)
    exact (hl.eval _).bind fun _ _ hvalue => (runs_register _ _ _ _).seq fun _ =>
      (runs_reference _).map fun _ _ hreference => hreference.map₂ _ hvalue
  · exact .refuse _ _

theorem importWhole (source : Term) :
    A.Runs A.Same (Gen.importWhole lower source) (Gen.importWhole lower source) := by
  unfold Gen.importWhole
  split
  · exact (hl.eval _).mapSame
  · exact .pure (.refl _)
  · exact .refuse _ _

theorem importModule (ts : List Term) (span : Span) :
    A.Runs A.Same (Gen.importModule lower ts span) (Gen.importModule lower ts span) := by
  unfold Gen.importModule
  split
  · exact .refuse _ _
  · exact hl.importWhole _
  · refine (runs_importWord _).seq fun _ => (hl.eval _).bind fun _ _ hsource => ?_
    split
    · exact (runs_registerLocal _).seq fun _ => .pure (hsource.map _)
    · exact (runs_importMembers _).seq fun _ => .pure (hsource.map _)
    · exact .refuse _ _
  · exact .refuse _ _

theorem moduleImport (clause : Term) :
    A.Runs A.Same (Gen.moduleImport lower clause) (Gen.moduleImport lower clause) := by
  refine (runs_importClause clause).seq fun ts => .guard ?_
  split
  · exact .refuse _ _
  · exact .ite (hl.importModule _ _) (.refuse _ _)
  · exact .refuse _ _

theorem nameModule (c : Call) :
    A.Runs A.Same (Gen.nameModule lower c) (Gen.nameModule lower c) := by
  unfold Gen.nameModule
  split
  · rename_i t clauses _
    have hname : A.Runs Eq (do modify (·.nameModule (← read).options t.text) : Gen PUnit)
        (do modify (·.nameModule (← read).options t.text) : Gen PUnit) :=
      fun _ _ hs => .ok rfl (A.session_nameModule t.text hs)
    exact hname.seq fun _ => (Runs.mapM _ hl.moduleImport).mapSame
  · exact .refuse _ _
  · exact .refuse _ _

/-- An operator gives the same code if it is none that the target has a say in. -/
theorem operator {op : Operator} (c : Call)
    (hop : A.exact → op = .pow → power A.job'.options.target = power A.job.options.target) :
    A.Runs A.Same (Gen.operator lower op c) (Gen.operator lower op c) := by
  refine .guard <| (Runs.mapM _ fun t => (hl.eval t).mapSame).bind ?_
  intro operands _ hoperands s s' hs
  refine .ok (fun he => ?_) hs
  rw [hoperands he]
  cases op with
  | pow =>
    have hpower := hop he rfl
    cases operands with
    | nil => rfl
    | cons first rest => exact congrArg (rest.foldl · first) hpower
  | _ => rfl

theorem negation (c : Call) : A.Runs A.Same (Gen.negation lower c) (Gen.negation lower c) := by
  unfold Gen.negation
  split
  · exact (hl.eval _).mapSame
  · exact .refuse _ _

/-! ### Calls and terms -/

theorem desugared (r : Except Fault Term) :
    A.Runs A.Same (Gen.desugared lower r) (Gen.desugared lower r) := by
  cases r with
  | ok t => exact hl.eval t
  | error f => exact fun _ _ hs => .error hs

theorem expand {form : Form} (c : Call)
    (hform : A.exact → form = .operator .pow →
      power A.job'.options.target = power A.job.options.target) :
    A.Runs A.Same (Gen.expand lower form c) (Gen.expand lower form c) := by
  cases form with
  | define isPure => exact runs_plain (hl.define c isPure)
  | function isPure hidden => exact runs_plain (hl.function c isPure hidden)
  | declare => exact runs_declare c
  | importModule => exact runs_plain (hl.importModule _ _)
  | nameModule => exact runs_plain (hl.nameModule c)
  | bindings => exact runs_plain (hl.bindings c)
  | conditional => exact runs_plain (hl.conditional c)
  | matching => exact runs_plain (hl.matching c)
  | block => exact runs_plain (hl.thunkBody _ _)
  | loop => exact runs_plain (.inLayer none (hl.loop c))
  | lambda => exact runs_plain (hl.lambda c)
  | attempt => exact runs_plain (hl.attempt _)
  | handler => exact runs_plain (hl.handler c)
  | arguments => exact runs_plain (.pure (.refl _))
  | threadFirst | threadLast | fanFirst | fanLast | parity => exact runs_plain (hl.desugared _)
  | negation => exact runs_plain (hl.negation c)
  | operator op => exact runs_plain (hl.operator c fun he hop => hform he (congrArg _ hop))

theorem through {m : Meaning} (c : Call)
    (hm : A.exact → m.form? = some (.operator .pow) →
      power A.job'.options.target = power A.job.options.target) :
    A.Runs A.Same (Gen.through lower m c) (Gen.through lower m c) := by
  unfold Gen.through
  cases hform : m.form? with
  | some form => exact hl.expand c fun he hpow => hm he (hform.trans (congrArg some hpow))
  | none =>
    exact runs_plain <| (hl.args c.args).bind fun _ _ hargs =>
      (runs_reference m).map fun _ _ hreference => hreference.map₂ _ hargs

/-- A call through a name. What the name refers to is known from the sessions in front of it. -/
theorem dispatchName (t : Token) (c : Call) :
    A.Runs A.Same (do let m ← resolve t; permit m c.span; Gen.through lower m c)
      (do let m ← resolve t; permit m c.span; Gen.through lower m c) := by
  intro s s' hs
  rw [exec_bind, exec_bind, exec_resolve, exec_resolve, A.find?_eq t.text hs]
  cases hm : s.find? t.text with
  | none => exact .error hs
  | some m =>
    refine ((runs_permit m c.span).seq fun _ => hl.through c fun he hpow => ?_) hs
    exact A.power_eq he hs hm hpow

theorem dispatch (c : Call) : A.Runs A.Same (Gen.dispatch lower c) (Gen.dispatch lower c) := by
  unfold Gen.dispatch
  cases c.target with
  | symbol _ | number _ => exact hl _
  | wildcard t => exact runs_plain (.guard ((hl.args _).mapSame))
  | name t => exact hl.dispatchName t c
  | path p =>
    exact runs_plain <| (runs_access p).bind fun _ _ hcallee =>
      (hl.args _).map fun _ _ => hcallee.map₂ _
  | list _ _ | table _ _ _ | call _ _ _ | string _ => exact .refuse _ _

theorem step : A.Lowers (Gen.step lower) := by
  intro t
  cases t with
  | call target ts span => exact fun _ _ hs => hl.dispatch _ hs
  | list items span => exact runs_plain ((hl.evalAll _).mapSame)
  | table items escaped span => exact runs_plain (hl.table _ _)
  | path p => exact runs_plain (runs_pathValue p)
  | name token => exact runs_plain (runs_nameValue token)
  | symbol _ | number _ | string _ => exact runs_plain (.pure (.refl _))
  | wildcard token => exact .refuse _ _

end Lowers

theorem lowers_within (depth : Nat) : A.Lowers (within depth) := by
  induction depth with
  | zero => exact fun t => .refuse _ _
  | succ depth ih => exact ih.step

theorem runs_term (t : Term) : A.Runs A.Same (term t) (term t) :=
  lowers_within t.rank t

theorem runs_statements (p : Program) : A.Runs A.Same (statements p) (statements p) :=
  .mapM p fun c => runs_term c.term

end LispLua.Gen.Accord
