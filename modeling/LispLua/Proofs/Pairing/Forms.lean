import LispLua.Proofs.Pairing.Basic

/-!
# Forms side by side

Every form keeps to a pairing if the lowering of the terms inside does. There are two lowerings, one
for each side, so that runs of different generators can be compared as well.
-/

namespace LispLua.Gen.Pairing

open Lua

variable {p : Pairing}

/-! ### Terms of a lower rank -/

/-- Corresponding terms below a rank. -/
structure Below (p : Pairing) (n : Nat) (t t' : Term) : Prop where
  rank : t.rank < n
  terms : p.Terms t t'

/-- Corresponding calls with arguments below a rank. -/
structure Calls (p : Pairing) (n : Nat) (c c' : Call) : Prop where
  target : p.Terms c.target c'.target
  args : List.Forall₂ (p.Below n) c.args c'.args
  span : p.span c.span c'.span

/-- Two lowerings keep to a pairing on terms below a rank. -/
def Lowers (p : Pairing) (l₁ l₂ : Lower) (n : Nat) : Prop :=
  ∀ t t', p.Below n t t' → p.Runs Eq (l₁ t) (l₂ t')

variable {n : Nat}

theorem forall₂_below {ts ts' : List Term} (h : List.Forall₂ p.Terms ts ts')
    (hn : ∀ t ∈ ts, t.rank < n) : List.Forall₂ (p.Below n) ts ts' := by
  induction h with
  | nil => exact .nil
  | cons ht _ ih =>
    exact .cons ⟨hn _ List.mem_cons_self, ht⟩ (ih fun t hmem => hn t (List.mem_cons_of_mem _ hmem))

theorem Below.items {ts ts' : List Term} {sp sp' : Span}
    (h : p.Below n (.list ts sp) (.list ts' sp')) : List.Forall₂ (p.Below n) ts ts' := by
  cases h.terms with
  | list hts _ =>
    exact forall₂_below hts fun _ hmem => Nat.lt_trans (Term.rank_lt_list sp hmem) h.rank

theorem Below.args {t t' : Term} {ts ts' : List Term} {sp sp' : Span}
    (h : p.Below n (.call t ts sp) (.call t' ts' sp')) : List.Forall₂ (p.Below n) ts ts' := by
  cases h.terms with
  | call _ _ hts _ =>
    exact forall₂_below hts fun _ hmem => Nat.lt_trans (Term.rank_lt_call t sp hmem) h.rank

theorem forall₂_terms {ts ts' : List Term} (h : List.Forall₂ (p.Below n) ts ts') :
    List.Forall₂ p.Terms ts ts' :=
  h.imp fun _ _ ht => ht.terms

/-! ### Values -/

theorem runs_nameValue {t t' : Token} (h : p.Names t t') :
    p.Runs Eq (nameValue t) (nameValue t') := by
  refine (runs_resolve h).seq fun m => .ite Iff.rfl ?_ (runs_reference m)
  cases m.function? with
  | none =>
    rw [h.text]
    exact .refuse (p.ordinary rfl) h.span
  | some f => exact .pure rfl

theorem runs_segment (owner : Code) {s s' : Segment} (h : p.Segments s s') :
    p.Runs Eq (segment owner s) (segment owner s') := by
  rw [segment, segment, h.link, h.name]
  cases s.link with
  | method | field => exact .pure rfl
  | optionalMethod | optionalField => exact .refuse (p.ordinary rfl) h.span

theorem runs_access {q q' : Path} (h : p.Paths q q') : p.Runs Eq (access q) (access q') := by
  refine (runs_resolve h.root).seq fun m => ?_
  rw [h.root.text]
  refine .guard Iff.rfl (p.ordinary rfl) h.span ((runs_reference m).seq fun code => ?_)
  exact .foldlM h.segments (fun owner _ _ => runs_segment owner) code

theorem runs_pathValue {q q' : Path} (h : p.Paths q q') :
    p.Runs Eq (pathValue q) (pathValue q') := by
  have hbound : q'.segments.any (·.link.isBound) = q.segments.any (·.link.isBound) := by
    have hs := h.segments
    generalize q.segments = ss, q'.segments = ss' at hs
    induction hs with
    | nil => rfl
    | cons hs _ ih => rw [List.any_cons, List.any_cons, ih, hs.link]
  have hnames : q'.segments.map (·.name.text) = q.segments.map (·.name.text) := by
    have hs := h.segments
    generalize q.segments = ss, q'.segments = ss' at hs
    induction hs with
    | nil => rfl
    | cons hs _ ih => rw [List.map_cons, List.map_cons, ih, hs.name]
  rw [pathValue, pathValue, hbound, hnames, h.root.text, h.render_eq]
  exact .guard Iff.rfl (p.ordinary rfl) h.span (runs_access h)

theorem runs_plain {g h : Gen Code} (hg : p.Runs Eq g h) : p.Runs Eq (plain g) (plain h) :=
  hg.mapEq

theorem runs_isDefinition {t t' : Term} (h : p.Terms t t') :
    p.Runs Eq (isDefinition t) (isDefinition t') := by
  cases h with
  | call ht _ _ _ =>
    cases ht with
    | name h =>
      rw [isDefinition, isDefinition, h.text]
      exact (runs_find? h.name).mapEq
    | _ => exact .pure rfl
  | _ => exact .pure rfl

/-! ### Names that are bound -/

theorem runs_bindLocal {t t' : Token} (h : p.Names t t') (value : Code) :
    p.Runs Eq (bindLocal t value) (bindLocal t' value) :=
  (runs_registerLocal h).mapEq

mutual

theorem runs_destructure (value : Code) :
    ∀ {t t' : Term}, p.Terms t t' → p.Runs Eq (destructure t value) (destructure t' value)
  | .list _ _, .list _ _, .list h _ => runs_destructureItems value 0 h
  | .name _, .name _, .name h => (runs_bindLocal h value).mapEq
  | .table .., .table .., .table _ _ h => .refuse (p.ordinary rfl) h
  | .call .., .call .., .call _ _ _ h => .refuse (p.ordinary rfl) h
  | .path _, .path _, .path h => .refuse (p.ordinary rfl) h.span
  | .number _, .number _, .number h => .refuse (p.ordinary rfl) h.span
  | .string _, .string _, .string h => .refuse (p.ordinary rfl) h.span
  | .symbol _, .symbol _, .symbol h => .refuse (p.ordinary rfl) h.span
  | .wildcard _, .wildcard _, .wildcard h => .refuse (p.ordinary rfl) h.span

theorem runs_destructureItems (value : Code) (index : Nat) :
    ∀ {ts ts' : List Term}, List.Forall₂ p.Terms ts ts' →
      p.Runs Eq (destructureItems ts value index) (destructureItems ts' value index)
  | [], [], .nil => .pure rfl
  | _ :: _, _ :: _, .cons ht hts =>
    (runs_destructure _ ht).seq fun _ => (runs_destructureItems value (index + 1) hts).mapEq

end

theorem runs_bindPair (value : Code) {t t' : Term} (h : p.Terms t t') :
    p.Runs Eq (bindPair t value) (bindPair t' value) := by
  have hspan := h.span
  cases h with
  | name h => exact (runs_bindLocal h value).mapEq
  | list h _ => exact runs_destructureItems _ _ h
  | _ => exact .refuse (p.ordinary rfl) hspan

theorem runs_loopName {cause : Cause} (hc : p.cause cause) {t t' : Term} (h : p.Terms t t') :
    p.Runs p.Names (loopName cause t) (loopName cause t') := by
  have hspan := h.span
  cases h with
  | name h => exact .pure h
  | _ => exact .refuse hc hspan

theorem runs_restParameter {ampersand ampersand' : Span} (hspan : p.span ampersand ampersand')
    {ts ts' : List Term} (h : List.Forall₂ p.Terms ts ts') :
    p.Runs Eq (restParameter ampersand ts) (restParameter ampersand' ts') := by
  cases h with
  | nil => exact .refuse (p.ordinary rfl) hspan
  | cons ht hts =>
    have hspan := ht.span
    cases ht with
    | name ht =>
      cases hts with
      | nil => exact runs_registerLocal ht
      | cons hu _ =>
        have hspan := hu.span
        cases hu <;> exact .refuse (p.ordinary rfl) hspan
    | _ => exact .refuse (p.ordinary rfl) hspan

theorem runs_parameters {ts ts' : List Term} (h : List.Forall₂ p.Terms ts ts') :
    p.Runs Eq (parameters ts) (parameters ts') := by
  induction h with
  | nil => exact .pure rfl
  | cons ht hts ih =>
    have hspan := ht.span
    cases ht with
    | name ht =>
      refine .ite (by rw [ht.text]) (runs_restParameter ht.span hts).mapEq ?_
      exact (runs_registerLocal ht).seq fun _ => ih.mapEq
    | _ => exact .refuse (p.ordinary rfl) hspan

theorem runs_importMembers {ts ts' : List Term} (h : List.Forall₂ p.Terms ts ts') :
    p.Runs Eq (importMembers ts) (importMembers ts') := by
  induction h with
  | nil => exact .pure rfl
  | cons ht _ ih =>
    have hspan := ht.span
    cases ht with
    | name ht =>
      rw [importMembers, importMembers, ht.text]
      exact (runs_registerLocal ht).seq fun _ => ih.mapEq
    | _ => exact .refuse (p.ordinary rfl) hspan

theorem runs_importWord {t t' : Term} (h : p.Terms t t') :
    p.Runs Eq (importWord t) (importWord t') := by
  have hspan := h.span
  cases h with
  | symbol h =>
    rw [importWord, importWord, h.text]
    exact .ite Iff.rfl (.pure rfl) (.refuse (p.ordinary rfl) hspan)
  | _ => exact .refuse (p.ordinary rfl) hspan

/-- The first term of a clause may be the target of a call, which has no rank to speak of. -/
theorem runs_importClause {t t' : Term} (h : p.Below n t t') :
    p.Runs (fun ts ts' => List.Forall₂ p.Terms ts ts' ∧ List.Forall₂ (p.Below n) ts.tail ts'.tail)
      (importClause t) (importClause t') := by
  have hspan := h.terms.span
  cases h.terms with
  | list hts _ =>
    refine .pure ⟨hts, ?_⟩
    rw [← List.drop_one, ← List.drop_one]
    exact List.forall₂_drop 1 h.items
  | call ht _ hts _ => exact .pure ⟨.cons ht hts, h.args⟩
  | _ => exact .refuse (p.ordinary rfl) hspan

/-- The names come with their tokens, since they are declared afterwards. -/
theorem runs_specifiers {ts ts' : List Term} (h : List.Forall₂ p.Terms ts ts')
    (given : List String) :
    p.Runs (fun a b => b.1 = a.1 ∧ List.Forall₂ p.Names a.2 b.2) (specifiers given ts)
      (specifiers given ts') := by
  induction h generalizing given with
  | nil => exact .pure ⟨rfl, .nil⟩
  | cons ht _ ih =>
    have hspan := ht.span
    cases ht with
    | name ht => exact (ih given).map fun _ _ hab => ⟨hab.1, .cons ht hab.2⟩
    | symbol ht =>
      rw [specifiers, specifiers, ht.text]
      refine .ite Iff.rfl (.refuse (p.ordinary rfl) hspan) ?_
      exact .ite Iff.rfl (.refuse (p.ordinary rfl) hspan) (ih _)
    | _ => exact .refuse (p.ordinary rfl) hspan

theorem runs_specifiedKind (given : List String) {sp sp' : Span} (h : p.span sp sp') :
    p.Runs Eq (specifiedKind given sp) (specifiedKind given sp') := by
  rw [specifiedKind, specifiedKind]
  cases given.contains "pure" <;> cases given.contains "impure"
  all_goals first
    | exact .pure rfl
    | exact .refuse (p.ordinary rfl) h

theorem runs_declare {c c' : Call} (h : p.Calls n c c') : p.Runs Eq (declare c) (declare c') := by
  refine .unlessPure (p.ordinary rfl) h.span ?_
  refine (runs_specifiers (forall₂_terms h.args) []).bind fun a b hab => ?_
  obtain ⟨given, names⟩ := a
  obtain ⟨given', names'⟩ := b
  obtain ⟨rfl, hnames⟩ : given' = given ∧ List.Forall₂ p.Names names names' := hab
  refine (runs_specifiedKind given' h.span).seq fun kind => ?_
  exact (Runs.mapEqM hnames fun t t' ht => (runs_register ht kind _ true).mapEq).mapEq

theorem isGlobal_eq {ts ts' : List Term} (h : List.Forall₂ p.Terms ts ts') :
    isGlobal ts' = isGlobal ts := by
  cases h with
  | nil => rfl
  | cons ht _ =>
    cases ht with
    | symbol ht => rw [isGlobal, isGlobal, ht.text]
    | _ => rfl

theorem fallback?_eq {ts ts' : List Term} (h : List.Forall₂ (p.Below n) ts ts') :
    Option.Rel (p.Below n) (fallback? ts) (fallback? ts') := by
  induction ts using fallback?.induct generalizing ts' with
  | case1 left right rest ih =>
    obtain ⟨left', _, hl, htail, rfl⟩ := List.forall₂_cons_left_iff.1 h
    obtain ⟨right', rest', hr, hrest, rfl⟩ := List.forall₂_cons_left_iff.1 htail
    have hrest := ih hrest
    rw [fallback?, fallback?, hl.terms.isName_eq]
    generalize fallback? rest = o, fallback? rest' = o' at hrest
    cases hrest with
    | some h => exact .some h
    | none =>
      cases left.isName "_" with
      | true => exact .some hr
      | false => exact .none
  | case2 ts hts =>
    cases h with
    | nil => exact .none
    | cons _ h =>
      cases h with
      | nil => exact .none
      | cons _ _ => exact absurd rfl (hts _ _ _)

/-! ### Forms -/

namespace Lowers

variable {l₁ l₂ : Lower} (hl : p.Lowers l₁ l₂ n)

include hl

theorem eval {t t' : Term} (h : p.Below n t t') : p.Runs Eq (Gen.eval l₁ t) (Gen.eval l₂ t') :=
  (hl t t' h).mapEq

theorem evalAll {ts ts' : List Term} (h : List.Forall₂ (p.Below n) ts ts') :
    p.Runs Eq (Gen.evalAll l₁ ts) (Gen.evalAll l₂ ts') :=
  .mapEqM h fun _ _ => hl.eval

theorem key (escaped : Bool) {t t' : Term} (h : p.Below n t t') :
    p.Runs Eq (Gen.key l₁ escaped t) (Gen.key l₂ escaped t') := by
  have heval := hl.eval h
  cases h.terms with
  | symbol ht =>
    rw [Gen.key, Gen.key, ht.text]
    exact .ite Iff.rfl (.pure rfl) heval
  | _ => exact heval

theorem entries (escaped : Bool) : ∀ {ts ts' : List Term}, List.Forall₂ (p.Below n) ts ts' →
    p.Runs Eq (Gen.entries l₁ escaped ts) (Gen.entries l₂ escaped ts')
  | _, _, .nil => .pure rfl
  | [k], [k'], .cons hk .nil => by
    have hunit : p.Names ⟨"unit", k.span⟩ ⟨"unit", k'.span⟩ :=
      ⟨⟨rfl, hk.terms.span⟩, p.implied "unit" (by decide)⟩
    exact (hl.key escaped hk).seq fun _ => (runs_nameValue hunit).mapEq
  | _ :: _ :: _, _ :: _ :: _, .cons hk (.cons hv hrest) =>
    (hl.key escaped hk).seq fun _ => (hl.eval hv).seq fun _ =>
      (entries escaped hrest).mapEq

theorem table {ts ts' : List Term} (escaped : Bool) (h : List.Forall₂ (p.Below n) ts ts') :
    p.Runs Eq (Gen.table l₁ ts escaped) (Gen.table l₂ ts' escaped) :=
  (hl.entries escaped h).mapEq

theorem body : ∀ {ts ts' : List Term}, List.Forall₂ (p.Below n) ts ts' →
    p.Runs Eq (Gen.body l₁ ts) (Gen.body l₂ ts')
  | _, _, .nil => .pure rfl
  | _, _, .cons ht .nil => (runs_isDefinition ht.terms).seq fun _ => (hl _ _ ht).mapEq
  | _, _, .cons ht (.cons hu hus) => (hl _ _ ht).seq fun _ => (body (.cons hu hus)).mapEq

theorem block {ts ts' : List Term} (h : List.Forall₂ (p.Below n) ts ts') :
    p.Runs Eq (Gen.block l₁ ts) (Gen.block l₂ ts') :=
  (hl.body h).seq fun _ => runs_thunk _

theorem bindPairs : ∀ {ts ts' : List Term}, List.Forall₂ (p.Below n) ts ts' →
    p.Runs Eq (Gen.bindPairs l₁ ts) (Gen.bindPairs l₂ ts')
  | _, _, .nil | _, _, .cons _ .nil => .pure rfl
  | _, _, .cons hleft (.cons hright hrest) =>
    (hl.eval hright).seq fun value => (runs_bindPair value hleft.terms).seq fun _ =>
      (bindPairs hrest).mapEq

theorem bindings {c c' : Call} (h : p.Calls n c c') :
    p.Runs Eq (Gen.bindings l₁ c) (Gen.bindings l₂ c') := by
  obtain ⟨_, args, sp⟩ := c
  obtain ⟨_, args', sp'⟩ := c'
  cases h.args with
  | nil => exact .refuse (p.ordinary rfl) h.span
  | cons ht hts =>
    have hspan := ht.terms.span
    cases ht.terms with
    | list hpairs _ =>
      refine .guard (by rw [hpairs.length_eq]) (p.ordinary rfl) h.span (.inLayer none ?_)
      exact (hl.bindPairs ht.items).seq fun _ => (hl.body hts).seq fun _ => runs_thunk _
    | _ => exact .refuse (p.ordinary rfl) hspan

theorem conditional {c c' : Call} (h : p.Calls n c c') :
    p.Runs Eq (Gen.conditional l₁ c) (Gen.conditional l₂ c') := by
  obtain ⟨_, args, sp⟩ := c
  obtain ⟨_, args', sp'⟩ := c'
  match args, args', h.args with
  | [], [], _ | [_], [_], _ => exact .refuse (p.ordinary rfl) h.span
  | _ :: _ :: _, _ :: _ :: _, .cons htest (.cons hyes hno) =>
    refine .guard (by rw [hno.length_eq]) (p.ordinary rfl) h.span ?_
    exact (hl.eval htest).seq fun _ => (hl.eval hyes).seq fun _ => (hl.body hno).seq fun _ =>
      runs_thunk _

theorem itemTests (subject : Code) {ts ts' : List Term} (h : List.Forall₂ (p.Below n) ts ts')
    (index : Nat) :
    p.Runs Eq (Gen.itemTests l₁ subject ts index) (Gen.itemTests l₂ subject ts' index) := by
  induction h generalizing index with
  | nil => exact .pure rfl
  | cons ht _ ih =>
    refine .ite (by rw [ht.terms.isName_eq]) (ih _) ?_
    exact (hl.eval ht).seq fun _ => (ih _).mapEq

theorem caseTest (subject : Code) {t t' : Term} (h : p.Below n t t') :
    p.Runs Eq (Gen.caseTest l₁ subject t) (Gen.caseTest l₂ subject t') := by
  have heval := hl.eval h
  cases h.terms with
  | list _ _ => exact (hl.itemTests subject h.items 0).mapEq
  | _ => exact heval.mapEq

theorem arms (subject : Code) : ∀ {ts ts' : List Term} (seen : Bool),
    List.Forall₂ (p.Below n) ts ts' →
      p.Runs Eq (Gen.arms l₁ subject ts seen) (Gen.arms l₂ subject ts' seen)
  | _, _, _, .nil | _, _, _, .cons _ .nil => .pure rfl
  | _, _, seen, .cons hleft (.cons hright hrest) => by
    refine .ite (by rw [hleft.terms.isName_eq]) ?_ ?_
    · refine .ite Iff.rfl ?_ (arms subject true hrest)
      exact (runs_warn _ hleft.terms.span).seq fun _ => arms subject true hrest
    · exact (hl.eval hright).seq fun _ => (hl.caseTest subject hleft).seq fun _ =>
        (arms subject seen hrest).mapEq

theorem matching {c c' : Call} (h : p.Calls n c c') :
    p.Runs Eq (Gen.matching l₁ c) (Gen.matching l₂ c') := by
  obtain ⟨_, args, sp⟩ := c
  obtain ⟨_, args', sp'⟩ := c'
  cases h.args with
  | nil => exact .refuse (p.ordinary rfl) h.span
  | @cons value value' cases cases' hvalue hcases =>
    have hfallback : p.Runs Eq ((fallback? cases).mapM fun t => Gen.body l₁ [t])
        ((fallback? cases').mapM fun t => Gen.body l₂ [t]) := by
      have hf := fallback?_eq hcases
      generalize fallback? cases = o, fallback? cases' = o' at hf
      cases hf with
      | none => exact .pure rfl
      | some ht => exact (hl.body (.cons ht .nil)).mapEq
    refine .guard (by rw [hcases.length_eq]) (p.ordinary rfl) h.span ?_
    exact (hl.eval hvalue).seq fun _ => (hl.arms _ false hcases).seq fun _ =>
      hfallback.seq fun _ => runs_thunk _

theorem loopSource {t t' : Term} (h : p.Below n t t') :
    p.Runs Eq (Gen.loopSource l₁ t) (Gen.loopSource l₂ t') := by
  have heval := hl.eval h
  cases h.terms with
  | call ht _ hts _ =>
    cases ht with
    | name ht =>
      refine .ite ?_ (hl.evalAll h.args).mapEq heval.mapEq
      rw [ht.text, hts.length_eq]
    | _ => exact heval.mapEq
  | _ => exact heval.mapEq

theorem loop {c c' : Call} (h : p.Calls n c c') :
    p.Runs Eq (Gen.loop l₁ c) (Gen.loop l₂ c') := by
  obtain ⟨_, args, sp⟩ := c
  obtain ⟨_, args', sp'⟩ := c'
  cases h.args with
  | nil => exact .refuse (p.ordinary rfl) h.span
  | cons ht hts =>
    have hspan := ht.terms.span
    cases ht.terms with
    | @list items items' _ _ _ _ =>
      match items, items', ht.items with
      | [], [], _ | [_], [_], _ => exact .refuse (p.ordinary rfl) hspan
      | [_, _], [_, _], .cons hitem (.cons hsource .nil) =>
        refine (runs_loopName (p.ordinary rfl) hitem.terms).bind fun _ _ hitem => ?_
        refine (hl.loopSource hsource).seq fun source => (runs_registerLocal hitem).seq fun _ => ?_
        refine (hl.evalAll hts).seq fun _ => ?_
        cases source with
        | inl _ => exact runs_thunk _
        | inr _ => exact runs_thunk _
      | [_, _, _], [_, _, _], .cons hitem (.cons hkey (.cons hsource .nil)) =>
        refine (runs_loopName (p.ordinary rfl) hitem.terms).bind fun _ _ hitem => ?_
        refine (runs_loopName (p.ordinary rfl) hkey.terms).bind fun _ _ hkey => ?_
        refine (hl.eval hsource).seq fun _ => (runs_registerLocal hitem).seq fun _ => ?_
        exact (runs_registerLocal hkey).seq fun _ => (hl.evalAll hts).seq fun _ => runs_thunk _
      | _ :: _ :: _ :: _ :: _, _ :: _ :: _ :: _ :: _, _ => exact .refuse (p.ordinary rfl) hspan
    | _ => exact .refuse (p.ordinary rfl) hspan

theorem attempt {ts ts' : List Term} (h : List.Forall₂ (p.Below n) ts ts') :
    p.Runs Eq (Gen.attempt l₁ ts) (Gen.attempt l₂ ts') := by
  have hfilter {q : Term → Bool} (hq : ∀ t t', p.Terms t t' → q t' = q t) :
      List.Forall₂ (p.Below n) (ts.filter q) (ts'.filter q) := by
    induction h with
    | nil => exact .nil
    | @cons t _ _ _ ht _ ih =>
      rw [List.filter_cons, List.filter_cons, hq _ _ ht.terms]
      cases q t with
      | true => exact .cons ht ih
      | false => exact ih
  refine (hl.body (hfilter fun _ _ h => by rw [h.isCatch_eq])).seq fun _ => ?_
  refine (hl.body (hfilter fun _ _ h => h.isCatch_eq)).seq fun _ => runs_read.bind fun j j' hj => ?_
  rw [p.options_eq hj]
  exact runs_thunk _

theorem handler {c c' : Call} (h : p.Calls n c c') :
    p.Runs Eq (Gen.handler l₁ c) (Gen.handler l₂ c') := by
  obtain ⟨_, args, sp⟩ := c
  obtain ⟨_, args', sp'⟩ := c'
  cases h.args with
  | nil => exact .refuse (p.ordinary rfl) h.span
  | cons ht hts =>
    have hspan := ht.terms.span
    cases ht.terms with
    | list hitems _ =>
      cases hitems with
      | nil => exact .refuse (p.ordinary rfl) hspan
      | cons hfirst _ =>
        cases hfirst with
        | name hname =>
          refine .inLayer none ((runs_registerLocal hname).seq fun _ => ?_)
          exact (hl.body hts).mapEq
        | _ => exact .refuse (p.ordinary rfl) hspan
    | _ => exact .refuse (p.ordinary rfl) h.span

theorem closure {fs fs' ts ts' : List Term} (hf : List.Forall₂ p.Terms fs fs')
    (h : List.Forall₂ (p.Below n) ts ts') :
    p.Runs Eq (Gen.closure l₁ fs ts) (Gen.closure l₂ fs' ts') := by
  refine (runs_parameters hf).seq fun _ => ?_
  cases h with
  | nil => exact .pure rfl
  | cons ht hts => exact (hl.body (.cons ht hts)).mapEq

theorem lambda {c c' : Call} (h : p.Calls n c c') :
    p.Runs Eq (Gen.lambda l₁ c) (Gen.lambda l₂ c') := by
  obtain ⟨_, args, sp⟩ := c
  obtain ⟨_, args', sp'⟩ := c'
  cases h.args with
  | nil => exact .refuse (p.ordinary rfl) h.span
  | cons ht hts =>
    have hspan := ht.terms.span
    cases ht.terms with
    | list hitems _ => exact .inLayer none (hl.closure hitems hts)
    | _ => exact .refuse (p.ordinary rfl) hspan

theorem named (isPure hidden : Bool) {t t' : Token} (ht : p.Names t t') {fs fs' ts ts' : List Term}
    (hf : List.Forall₂ p.Terms fs fs') (h : List.Forall₂ (p.Below n) ts ts') :
    p.Runs Eq (Gen.named l₁ isPure hidden t fs ts) (Gen.named l₂ isPure hidden t' fs' ts') := by
  rw [Gen.named, Gen.named, isGlobal_eq (forall₂_terms h)]
  have hbody : List.Forall₂ (p.Below n) (if isGlobal ts then ts.drop 1 else ts)
      (if isGlobal ts then ts'.drop 1 else ts') := by
    split
    · exact List.forall₂_drop 1 h
    · exact h
  refine (runs_register ht _ _ _).seq fun b => (runs_log _).seq fun _ => ?_
  refine (Runs.inLayer (some isPure) (hl.closure hf hbody)).seq fun _ => ?_
  exact .ite Iff.rfl (.pure rfl) (runs_reference _).mapEq

theorem function {c c' : Call} (isPure hidden : Bool) (h : p.Calls n c c') :
    p.Runs Eq (Gen.function l₁ c isPure hidden) (Gen.function l₂ c' isPure hidden) := by
  obtain ⟨_, args, sp⟩ := c
  obtain ⟨_, args', sp'⟩ := c'
  refine .unlessPure (p.ordinary rfl) h.span ?_
  match args, args', h.args with
  | [], [], _ => exact .refuse (p.ordinary rfl) h.span
  | [t], [t'], .cons ht .nil => cases ht.terms <;> exact .refuse (p.ordinary rfl) h.span
  | _ :: _ :: _, _ :: _ :: _, .cons ht (.cons hformals hrest) =>
    have hspan := ht.terms.span
    cases ht.terms with
    | name hname =>
      have hspan := hformals.terms.span
      cases hformals.terms with
      | list hf _ => exact hl.named isPure hidden hname hf hrest
      | _ => exact .refuse (p.ordinary rfl) hspan
    | _ => exact .refuse (p.ordinary rfl) hspan

theorem define {c c' : Call} (isPure : Bool) (h : p.Calls n c c') :
    p.Runs Eq (Gen.define l₁ c isPure) (Gen.define l₂ c' isPure) := by
  obtain ⟨_, args, sp⟩ := c
  obtain ⟨_, args', sp'⟩ := c'
  refine .unlessPure (p.ordinary rfl) h.span ?_
  have hvalue {t t' : Token} {v v' : Term} (ht : p.Names t t') (hv : p.Below n v v') :
      p.Runs Eq
        (if isPure then do
          let value ← Gen.eval l₁ v
          let binding ← register t .value .package false
          return Code.define (← reference (.declared binding)) value
        else refuse .impureValue sp)
        (if isPure then do
          let value ← Gen.eval l₂ v'
          let binding ← register t' .value .package false
          return Code.define (← reference (.declared binding)) value
        else refuse .impureValue sp') := by
    refine .ite Iff.rfl ((hl.eval hv).seq fun _ => ?_) (.refuse (p.ordinary rfl) h.span)
    exact (runs_register ht _ _ _).seq fun b => (runs_reference _).mapEq
  match args, args', h.args with
  | [], [], _ => exact .refuse (p.ordinary rfl) h.span
  | [_], [_], .cons ht .nil => cases ht.terms <;> exact .refuse (p.ordinary rfl) h.span
  | [_, _], [_, _], .cons ht (.cons hv .nil) =>
    cases ht.terms with
    | name hname =>
      have hvalue := hvalue hname hv
      cases hv.terms <;> exact hvalue
    | _ => exact .refuse (p.ordinary rfl) h.span
  | _ :: _ :: _ :: _, _ :: _ :: _ :: _, .cons ht (.cons hformals (.cons hb hbs)) =>
    cases ht.terms with
    | name hname =>
      cases hformals.terms with
      | list hf _ => exact hl.named isPure false hname hf (.cons hb hbs)
      | _ => exact .refuse (p.ordinary rfl) h.span
    | _ => exact .refuse (p.ordinary rfl) h.span

theorem importWhole {t t' : Term} (h : p.Below n t t') :
    p.Runs Eq (Gen.importWhole l₁ t) (Gen.importWhole l₂ t') := by
  have hspan := h.terms.span
  have heval := hl.eval h
  cases h.terms with
  | string _ => exact heval.mapEq
  | name ht =>
    rw [Gen.importWhole, Gen.importWhole, ht.text]
    exact .pure rfl
  | _ => exact .refuse (p.ordinary rfl) hspan

theorem importModule {ts ts' : List Term} {sp sp' : Span} (h : List.Forall₂ (p.Below n) ts ts')
    (hspan : p.span sp sp') :
    p.Runs Eq (Gen.importModule l₁ ts sp) (Gen.importModule l₂ ts' sp') := by
  match ts, ts', h with
  | [], [], _ | [_, _], [_, _], _ => exact .refuse (p.ordinary rfl) hspan
  | [_], [_], .cons hsource .nil => exact hl.importWhole hsource
  | [_, _, _], [_, _, _], .cons hbinding (.cons hword (.cons hsource .nil)) =>
    refine (runs_importWord hword.terms).seq fun _ => (hl.eval hsource).seq fun _ => ?_
    have hspan := hbinding.terms.span
    cases hbinding.terms with
    | name ht => exact (runs_registerLocal ht).mapEq
    | list hitems _ => exact (runs_importMembers hitems).mapEq
    | _ => exact .refuse (p.ordinary rfl) hspan
  | _ :: _ :: _ :: _ :: _, _ :: _ :: _ :: _ :: _, _ => exact .refuse (p.ordinary rfl) hspan

theorem moduleImport {t t' : Term} (h : p.Below n t t') :
    p.Runs Eq (Gen.moduleImport l₁ t) (Gen.moduleImport l₂ t') := by
  refine (runs_importClause h).bind fun ts ts' hts => ?_
  refine .guard (by rw [hts.1.length_eq]) (p.ordinary rfl) h.terms.span ?_
  obtain ⟨hterms, hrest⟩ := hts
  cases hterms with
  | nil => exact .refuse (p.ordinary rfl) h.terms.span
  | cons hword _ =>
    have hspan := hword.span
    cases hword with
    | symbol hword =>
      refine .ite (by rw [hword.text]) ?_ (.refuse (p.ordinary rfl) hspan)
      exact hl.importModule hrest h.terms.span
    | _ => exact .refuse (p.ordinary rfl) hspan

theorem nameModule {c c' : Call} (h : p.Calls n c c') :
    p.Runs Eq (Gen.nameModule l₁ c) (Gen.nameModule l₂ c') := by
  obtain ⟨_, args, sp⟩ := c
  obtain ⟨_, args', sp'⟩ := c'
  cases h.args with
  | nil => exact .refuse (p.ordinary rfl) h.span
  | cons ht hts =>
    have hspan := ht.terms.span
    cases ht.terms with
    | name hname =>
      rw [Gen.nameModule, Gen.nameModule]
      refine runs_read.bind fun j j' hj => ?_
      rw [hname.text]
      refine (runs_nameModule hj _).seq fun _ => ?_
      exact (Runs.mapEqM hts fun _ _ => hl.moduleImport).mapEq
    | _ => exact .refuse (p.ordinary rfl) hspan

theorem operator (op : Operator) {c c' : Call} (h : p.Calls n c c') :
    p.Runs Eq (Gen.operator l₁ op c) (Gen.operator l₂ op c') := by
  rw [Gen.operator, Gen.operator, render_eq h.target]
  refine .guard (by rw [h.args.length_eq]) (p.ordinary rfl) h.span ?_
  refine (Runs.mapEqM h.args fun _ _ ht => (hl.eval ht).mapEq).seq fun _ => ?_
  exact runs_read.map fun j j' hj => by rw [p.options_eq hj]

theorem negation {c c' : Call} (h : p.Calls n c c') :
    p.Runs Eq (Gen.negation l₁ c) (Gen.negation l₂ c') := by
  obtain ⟨_, args, sp⟩ := c
  obtain ⟨_, args', sp'⟩ := c'
  match args, args', h.args with
  | [], [], _ | _ :: _ :: _, _ :: _ :: _, _ => exact .refuse (p.ordinary rfl) h.span
  | [_], [_], .cons ht .nil => exact (hl.eval ht).mapEq

end Lowers

end LispLua.Gen.Pairing
