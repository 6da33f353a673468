import LispLua.Proofs.Names.Free
import LispLua.Proofs.Operators.Meaning

/-!
# Unbound names

A lexical term can be lowered if and only if all its free names refer to something, and if it cannot
the fault is the first of them that does not, at its place.
-/

namespace LispLua

namespace Gen

open Lua

variable {α β : Type} {job : Job} {s s' s₁ : Session} {names more : List Token}

/-- A generation succeeds, and leaves a given session, if some names refer to something. Else it is
refused for the first one that does not. -/
def Refers (job : Job) (s : Session) (names : List Token) (s' : Session) (g : Gen α) : Prop :=
  match names.find? s.lacks with
  | none => ∃ a, g.exec job s = (.ok a, s')
  | some t => (g.exec job s).1 = .error ⟨.unbound t.text, t.span⟩

namespace Refers

theorem of_ok {g : Gen α} {a : α} (h : g.exec job s = (.ok a, s')) : Refers job s [] s' g :=
  ⟨a, h⟩

/-- Only the first name that refers to nothing counts. -/
theorem congr {g : Gen α} (h : Refers job s names s' g)
    (heq : more.find? s.lacks = names.find? s.lacks) : Refers job s more s' g := by
  rw [Refers, heq]
  exact h

theorem of_exec {g h : Gen α} (hg : Refers job s names s' g) (heq : h.exec job s = g.exec job s) :
    Refers job s names s' h := by
  rw [Refers, heq]
  exact hg

/-- The names of the second part are looked up behind the first one. -/
theorem bind {g : Gen α} {k : α → Gen β} {behind : List Token} (hg : Refers job s names s₁ g)
    (hk : ∀ a, Refers job s₁ behind s' (k a))
    (hbehind : behind.find? s₁.lacks = more.find? s.lacks) :
    Refers job s (names ++ more) s' (g >>= k) := by
  rw [Refers, List.find?_append]
  rw [Refers] at hg
  cases hnames : names.find? s.lacks with
  | some t =>
    rw [hnames] at hg
    rw [exec_bind]
    generalize g.exec job s = r at hg ⊢
    obtain ⟨_ | _, _⟩ := r
    · exact congrArg Except.error (Except.error.inj hg)
    · cases hg
  | none =>
    rw [hnames] at hg
    obtain ⟨a, ha⟩ := hg
    have hrest := hk a
    rw [Refers, hbehind] at hrest
    rw [exec_bind, ha]
    exact hrest

/-- A sequence whose first part leaves the session alone. -/
theorem seq {g : Gen α} {k : α → Gen β} (hg : Refers job s names s g)
    (hk : ∀ a, Refers job s more s' (k a)) : Refers job s (names ++ more) s' (g >>= k) :=
  hg.bind hk rfl

/-- A last step that refers to nothing. -/
theorem last {g : Gen α} {k : α → Gen β} (hg : Refers job s names s₁ g)
    (hk : ∀ a, Refers job s₁ [] s' (k a)) : Refers job s names s' (g >>= k) := by
  have h : Refers job s (names ++ []) s' (g >>= k) := hg.bind hk rfl
  rwa [List.append_nil] at h

theorem map {g : Gen α} (f : α → β) (hg : Refers job s names s' g) :
    Refers job s names s' (do return f (← g)) :=
  hg.last fun _ => of_ok rfl

/-- A first step that refers to nothing and leaves the session alone. -/
theorem behind {g : Gen α} {k : α → Gen β} (hg : Refers job s [] s g)
    (hk : ∀ a, Refers job s names s' (k a)) : Refers job s names s' (g >>= k) :=
  hg.seq hk

theorem mapM {f : α → Gen β} {as : List α} {rows : List (List Token)}
    (h : List.Forall₂ (fun a names => Refers job s names s (f a)) as rows) :
    Refers job s rows.flatten s (as.mapM f) := by
  induction h with
  | nil => exact of_ok rfl
  | cons ha _ ih =>
    rw [List.mapM_cons, List.flatten_cons]
    exact ha.seq fun _ => ih.map _

/-- The names in a layer are looked up from outside, and its local names are gone behind it. -/
theorem inLayer {g : Gen α} (tokens : List Token)
    (hg : Refers job (s.enter none) names ((s.enter none).withLocals tokens) g) :
    Refers job s names s (Gen.inLayer none g) := by
  rw [Refers, Session.lacks_enter] at hg
  rw [Refers]
  cases hnames : names.find? s.lacks with
  | some t =>
    rw [hnames] at hg
    exact hg
  | none =>
    rw [hnames] at hg
    obtain ⟨a, ha⟩ := hg
    refine ⟨a, ?_⟩
    rw [exec_inLayer, ha]
    exact congrArg (Prod.mk _) (s.leave_withLocals none tokens)

end Refers

/-! ### Names and patterns -/

/-- What follows a look-up can rely on what was found. -/
theorem refers_resolve {t : Token} {k : Meaning → Gen α}
    (h : ∀ m, s.find? t.text = some m → Refers job s names s' (k m)) :
    Refers job s (t :: names) s' (resolve t >>= k) := by
  rw [Refers, List.find?_cons, Session.lacks, exec_bind, exec_resolve]
  cases hm : s.find? t.text with
  | none => rfl
  | some m => exact h m hm

theorem refers_thunk (body : Code) : Refers job s [] s (thunk body) :=
  .of_ok rfl

theorem refers_registerLocal (t : Token) : Refers job s [] (s.withLocals [t]) (registerLocal t) :=
  .of_ok rfl

/-- What a name can be called through is what its standard meaning says. -/
theorem form?_of_find? (hs : s.Ready) {name : String} {m : Meaning} (hm : s.find? name = some m) :
    m.form? = Standard.form? name := by
  have hform := hs.standard.form?_eq ⟨.name ⟨name, .none⟩, [], .none⟩
  rwa [Session.form?, Session.meaning?_of_target rfl, hm] at hform

/-- A special form that is no valueless one has a function for a value. -/
theorem function?_of_find? {name : String} {m : Meaning}
    (hvalue : Standard.isValueless name = false) (hm : s.find? name = some m)
    (hform : m.isForm = true) : ∃ f, m.function? = some f := by
  unfold Session.find? at hm
  split at hm
  · cases hm
    cases hform
  · obtain ⟨e, he, rfl⟩ := Option.map_eq_some_iff.1 hm
    rw [Standard.isValueless, he, Option.any_some, hform, Bool.true_and] at hvalue
    cases hf : (Meaning.standard e).function? with
    | none =>
      rw [hf] at hvalue
      cases hvalue
    | some f => exact ⟨f, rfl⟩

theorem refers_nameValue {t : Token} (ht : Standard.isValueless t.text = false) :
    Refers job s [t] s (nameValue t) := by
  refine refers_resolve fun m hm => ?_
  cases hform : m.isForm with
  | false => exact .of_ok rfl
  | true =>
    obtain ⟨f, hf⟩ := function?_of_find? ht hm hform
    rw [hf]
    exact .of_ok rfl

theorem refers_segments {segments : List Segment} (h : ∀ x ∈ segments, x.link = .field)
    (owner : Code) : Refers job s [] s (segments.foldlM segment owner) := by
  induction segments generalizing owner with
  | nil => exact .of_ok rfl
  | cons x segments ih =>
    obtain ⟨hx, hrest⟩ := List.forall_mem_cons.1 h
    rw [List.foldlM_cons, segment, hx]
    exact ih hrest _

theorem refers_pathValue (hs : s.Ready) {p : Path} (hroot : Standard.form? p.root.text = none)
    (hlinks : ∀ x ∈ p.segments, x.link = .field) : Refers job s [p.root] s (pathValue p) := by
  have hbound : p.segments.any (·.link.isBound) = false := by
    rw [List.any_eq_false]
    intro x hx
    rw [hlinks x hx]
    exact Bool.false_ne_true
  rw [pathValue, hbound, if_neg Bool.false_ne_true, access]
  refine refers_resolve fun m hm => ?_
  rw [Meaning.isForm, form?_of_find? hs hm, hroot, Option.isSome_none, if_neg Bool.false_ne_true]
  exact Refers.behind (.of_ok rfl) fun _ => refers_segments hlinks _

/-- A pattern declares its names. -/
theorem refers_destructureItems {ts : List Term}
    (h : ∀ t ∈ ts, ∀ s value, Refers job s [] (s.withLocals t.free) (destructure t value))
    (s : Session) (value : Code) (index : Nat) :
    Refers job s [] (s.withLocals (Term.freeAll ts)) (destructureItems ts value index) := by
  induction ts generalizing s index with
  | nil => exact .of_ok rfl
  | cons t ts ih =>
    obtain ⟨ht, hts⟩ := List.forall_mem_cons.1 h
    rw [Term.freeAll, Session.withLocals, List.foldl_append]
    exact (ht s _).last fun _ => (ih hts _ _).map _

theorem refers_destructure {t : Term} (h : t.Pattern) (s : Session) (value : Code) :
    Refers job s [] (s.withLocals t.free) (destructure t value) := by
  induction h generalizing s value with
  | name _ => exact ((refers_registerLocal _).map _).map _
  | list _ ih => exact refers_destructureItems ih s value 0

theorem refers_bindPair {left : Term} (h : left.Pattern) (s : Session) (value : Code) :
    Refers job s [] (s.withLocals left.free) (bindPair left value) := by
  cases h with
  | name _ => exact ((refers_registerLocal _).map _).map _
  | list h => exact refers_destructureItems (fun t ht => refers_destructure (h t ht)) s _ 0

/-- Formal arguments declare their names. -/
theorem refers_parameters {formals tail : List Token} (hformals : ∀ x ∈ formals, x.text ≠ "&")
    (htail : tail = [] ∨ ∃ mark rest, tail = [mark, rest] ∧ mark.text = "&") (s : Session) :
    Refers job s [] (s.withLocals (formals ++ tail.tail)) (parameters ((formals ++ tail).map .name)) ∧
      Term.parameterNames ((formals ++ tail).map .name) = (formals ++ tail.tail).map Token.text := by
  induction formals generalizing s with
  | nil =>
    rcases htail with rfl | ⟨mark, rest, rfl, hmark⟩
    · exact ⟨.of_ok rfl, rfl⟩
    · simp only [List.nil_append, List.map_cons, List.map_nil, parameters, Term.parameterNames,
        hmark, if_true]
      exact ⟨(refers_registerLocal rest).map _, rfl⟩
  | cons x formals ih =>
    obtain ⟨hx, hformals⟩ := List.forall_mem_cons.1 hformals
    obtain ⟨hrest, hnames⟩ := ih hformals (s.withLocals [x])
    simp only [List.cons_append, List.map_cons, parameters, Term.parameterNames, if_neg hx, hnames]
    exact ⟨(refers_registerLocal x).last fun _ => hrest.map _, trivial⟩

/-! ### Forms -/

/-- A term refers to some names in every session with the standard names. -/
def TermRefers (job : Job) (names : List Token) (t : Term) : Prop :=
  ∀ s : Session, s.Ready → Refers job s names s (term t)

theorem Refers.eval {t : Term} (h : Refers job s names s' (term t)) :
    Refers job s names s' (eval term t) :=
  h.map Stmt.code

theorem refers_isDefinition (t : Term) : Refers job s [] s (isDefinition t) := by
  unfold isDefinition
  split
  · exact .of_ok rfl
  · exact .of_ok rfl

theorem refers_evalAll {ts : List Term} (h : ∀ t ∈ ts, Refers job s t.free s (term t)) :
    Refers job s (Term.freeAll ts) s (evalAll term ts) := by
  rw [Term.freeAll_eq_flatMap, List.flatMap_def]
  exact .mapM (List.forall₂_map_right_iff.2 (List.forall₂_same.2 fun t ht => (h t ht).eval))

theorem refers_body {ts : List Term} (h : ∀ t ∈ ts, Refers job s t.free s (term t)) :
    Refers job s (Term.freeAll ts) s (body term ts) := by
  induction ts with
  | nil => exact .of_ok rfl
  | cons t ts ih =>
    obtain ⟨ht, hts⟩ := List.forall_mem_cons.1 h
    cases ts with
    | nil =>
      rw [Term.freeAll, Term.freeAll, List.append_nil]
      exact (refers_isDefinition t).behind fun _ => ht.map _
    | cons u us => exact ht.seq fun _ => (ih hts).map _

/-- A special form is lowered as its expansion is. -/
theorem refers_form {c : Call} {form : Form} {g : Gen Code} (hform : s.form? c = some form)
    (hexpand : expand term form c = plain g) (hg : Refers job s names s' g) :
    Refers job s names s' (term c.term) := by
  have hcall : term c.term = call term c := term_eq_step c.term
  refine (hg.map Code.stmt).of_exec ?_
  rw [hcall, call, exec_inCall, exec, run_dispatch_form hform, hexpand]
  rfl

theorem refers_operator {c : Call} {op : Operator} {rows : List (List Token)}
    (hform : s.form? c = some (.operator op)) (hlength : 2 ≤ c.args.length)
    (h : List.Forall₂ (fun t names => Refers job s names s (term t)) c.args rows) :
    Refers job s rows.flatten s (term c.term) := by
  refine refers_form hform rfl ?_
  rw [operator, if_neg (Nat.not_lt.2 hlength)]
  exact (Refers.mapM (h.imp fun _ _ h => h.eval.map operand)).last fun _ => .of_ok rfl

theorem refers_negation {c : Call} {t : Term} (hform : s.form? c = some .negation)
    (hargs : c.args = [t]) (h : Refers job s names s (term t)) :
    Refers job s names s (term c.term) := by
  refine refers_form hform rfl ?_
  rw [negation, hargs]
  exact h.eval.map _

/-- Both terms are lowered twice, but what is looked up once is found again. -/
theorem refers_exclusive (hs : s.Ready) {a b : Term} (ha : Refers job s names s (term a))
    (hb : Refers job s more s (term b)) (span : Span) :
    Refers job s (names ++ more) s (term (Term.exclusive span a b)) := by
  have hand : Standard.form? "and" = some (.operator .and) := by decide +kernel
  have hor : Standard.form? "or" = some (.operator .or) := by decide +kernel
  have hnot : Standard.form? "not" = some .negation := by decide +kernel
  have hform {name : String} {form : Form} (h : Standard.form? name = some form) (span : Span)
      (ts : List Term) : s.form? (Call.named name span ts) = some form :=
    (hs.standard.form?_eq _).trans h
  have hnota := refers_negation (hform hnot a.span [a]) rfl ha
  have hnotb := refers_negation (hform hnot b.span [b]) rfl hb
  have hfirst := refers_operator (hform hand b.span [Term.named "not" a.span [a], b]) le_rfl
    (.cons hnota (.cons hb .nil))
  have hsecond := refers_operator (hform hand a.span [a, Term.named "not" b.span [b]]) le_rfl
    (.cons ha (.cons hnotb .nil))
  refine (refers_operator (hform hor span [_, _]) le_rfl (.cons hfirst (.cons hsecond .nil))).congr ?_
  simp only [List.flatten_cons, List.flatten_nil, List.append_nil, List.find?_append, Option.or_self]

theorem refers_parity (hs : s.Ready) {c : Call} (hform : s.form? c = some .parity)
    (hlength : 1 ≤ c.args.length) (h : ∀ t ∈ c.args, Refers job s t.free s (term t)) :
    Refers job s (Term.freeAll c.args) s (term c.term) := by
  refine refers_form hform rfl ?_
  obtain ⟨target, args, span⟩ := c
  cases args with
  | nil => cases hlength
  | cons first rest =>
    obtain ⟨hfirst, hrest⟩ := List.forall_mem_cons.1 h
    rw [Term.freeAll]
    -- The terms behind are joined to what the first ones became, so the names come in order.
    suffices hfold : ∀ (t : Term) (names : List Token), Refers job s names s (term t) →
        Refers job s (names ++ Term.freeAll rest) s
          (term (rest.foldl (Term.exclusive span) t)) by
      exact (hfold first first.free hfirst).eval
    clear h hfirst hform hlength
    induction rest with
    | nil =>
      intro t names ht
      rwa [Term.freeAll, List.append_nil]
    | cons u us ih =>
      obtain ⟨hu, hus⟩ := List.forall_mem_cons.1 hrest
      intro t names ht
      rw [Term.freeAll, ← List.append_assoc]
      exact ih hus _ _ (refers_exclusive hs ht hu span)

theorem refers_conditional {c : Call} {test yes : Term} {no : List Term}
    (hform : s.form? c = some .conditional) (hargs : c.args = test :: yes :: no)
    (hlength : no.length ≤ 1) (h : ∀ t ∈ c.args, Refers job s t.free s (term t)) :
    Refers job s (Term.freeAll c.args) s (term c.term) := by
  rw [hargs] at h ⊢
  obtain ⟨htest, h⟩ := List.forall_mem_cons.1 h
  obtain ⟨hyes, hno⟩ := List.forall_mem_cons.1 h
  refine refers_form hform rfl ?_
  simp only [conditional, hargs, Nat.not_lt.2 hlength, if_false]
  exact htest.eval.seq fun _ => hyes.eval.seq fun _ => (refers_body hno).last fun _ => refers_thunk _

/-- The forms that bind nothing. -/
theorem refers_simple (hs : s.Ready) {c : Call} {form : Form} (hform : s.form? c = some form)
    (htakes : form.takes c.args.length = true)
    (h : ∀ t ∈ c.args, Refers job s t.free s (term t)) :
    Refers job s (Term.freeAll c.args) s (term c.term) := by
  cases form with
  | block => exact refers_form hform rfl ((refers_body h).last fun _ => refers_thunk _)
  | conditional =>
    have hlength : c.args.length = 2 ∨ c.args.length = 3 := by simpa [Form.takes] using htakes
    match hargs : c.args, hlength with
    | test :: yes :: no, hlength =>
      rw [← hargs]
      refine refers_conditional hform hargs ?_ h
      simp only [List.length_cons] at hlength
      omega
  | negation =>
    obtain ⟨t, ht⟩ : ∃ t, c.args = [t] := List.length_eq_one_iff.1 (by simpa [Form.takes] using htakes)
    rw [ht] at h ⊢
    rw [Term.freeAll, Term.freeAll, List.append_nil]
    exact refers_negation hform ht (h t List.mem_cons_self)
  | operator op =>
    rw [Term.freeAll_eq_flatMap, List.flatMap_def]
    refine refers_operator hform (by simpa [Form.takes] using htakes) ?_
    exact List.forall₂_map_right_iff.2 (List.forall₂_same.2 h)
  | parity => exact refers_parity hs hform (by simpa [Form.takes] using htakes) h
  | _ => cases htakes

/-! ### Forms that bind names -/

theorem refers_bindPairs {pairs : List (Term × Term)} (hpatterns : ∀ b ∈ pairs, b.1.Pattern)
    (h : ∀ b ∈ pairs, TermRefers job b.2.free b.2) (hs : s.Ready) :
    Refers job s (Term.freePairs (pairs.flatMap fun b => [b.1, b.2]))
      (s.withLocals (pairs.flatMap (·.1.free)))
      (bindPairs term (pairs.flatMap fun b => [b.1, b.2])) := by
  induction pairs generalizing s with
  | nil => exact .of_ok rfl
  | cons b pairs ih =>
    obtain ⟨hb, hpatterns⟩ := List.forall_mem_cons.1 hpatterns
    obtain ⟨hvalue, h⟩ := List.forall_mem_cons.1 h
    have hready := hs.withLocals hb.find?_eq_none
    simp only [List.flatMap_cons, Session.withLocals, List.foldl_append]
    exact (hvalue s hs).eval.seq fun value => (refers_bindPair hb s value).bind
      (fun _ => (ih hpatterns h hready).map _) (s.find?_lacks_locals hb.names_eq.symm _)

theorem boundNames_eq {pairs : List (Term × Term)} (hpatterns : ∀ b ∈ pairs, b.1.Pattern) :
    Term.boundNames (pairs.flatMap fun b => [b.1, b.2]) =
      (pairs.flatMap (·.1.free)).map Token.text := by
  induction pairs with
  | nil => rfl
  | cons b pairs ih =>
    obtain ⟨hb, hpatterns⟩ := List.forall_mem_cons.1 hpatterns
    simp only [List.flatMap_cons, List.cons_append, List.nil_append, Term.boundNames, hb.names_eq,
      ih hpatterns, List.map_append]

theorem refers_bindings {c : Call} {pairs : List (Term × Term)} {ts : List Term} {inner : Span}
    (hs : s.Ready) (hform : s.form? c = some .bindings)
    (hargs : c.args = .list (pairs.flatMap fun b => [b.1, b.2]) inner :: ts)
    (hpatterns : ∀ b ∈ pairs, b.1.Pattern) (hpairs : ∀ b ∈ pairs, TermRefers job b.2.free b.2)
    (hts : ∀ t ∈ ts, TermRefers job t.free t) :
    Refers job s (Term.freePairs (pairs.flatMap fun b => [b.1, b.2]) ++
      (Term.freeAll ts).filter (·.text ∉ Term.boundNames (pairs.flatMap fun b => [b.1, b.2]))) s
      (term c.term) := by
  have heven : (pairs.flatMap fun b => [b.1, b.2]).length % 2 = 0 := by
    rw [List.length_flatMap]
    simp
  have hready : ((s.enter none).withLocals (pairs.flatMap (·.1.free))).Ready := by
    refine hs.enter.withLocals fun x hx => ?_
    obtain ⟨b, hb, hx⟩ := List.mem_flatMap.1 hx
    exact (hpatterns b hb).find?_eq_none x hx
  refine refers_form hform rfl ?_
  simp only [bindings, hargs, heven, ne_eq, not_true_eq_false, if_false]
  refine Refers.inLayer (pairs.flatMap (·.1.free))
    ((refers_bindPairs hpatterns hpairs hs.enter).bind (fun _ => ?_)
      (Session.find?_lacks_locals _ (boundNames_eq hpatterns).symm _))
  exact (refers_body fun t ht => hts t ht _ hready).last fun _ => refers_thunk _

theorem refers_closure {formals ts : List Term} {tokens : List Token}
    (hformals : Refers job s [] (s.withLocals tokens) (parameters formals))
    (hbody : Refers job (s.withLocals tokens) (Term.freeAll ts) (s.withLocals tokens)
      (body term ts)) :
    Refers job s ((Term.freeAll ts).filter (·.text ∉ tokens.map Token.text)) (s.withLocals tokens)
      (closure term formals ts) := by
  refine hformals.bind (fun names => ?_) (s.find?_lacks_locals rfl _)
  cases ts with
  | nil => exact .of_ok rfl
  | cons t ts => exact hbody.map _

theorem refers_lambda {c : Call} {formals tail : List Token} {ts : List Term} {inner : Span}
    (hs : s.Ready) (hform : s.form? c = some .lambda)
    (hargs : c.args = .list ((formals ++ tail).map .name) inner :: ts)
    (hformals : ∀ x ∈ formals, x.text ≠ "&" ∧ Standard.find? x.text = none)
    (htail : tail = [] ∨ ∃ mark rest, tail = [mark, rest] ∧ mark.text = "&" ∧
      Standard.find? rest.text = none)
    (hts : ∀ t ∈ ts, TermRefers job t.free t) :
    Refers job s ((Term.freeAll ts).filter
      (·.text ∉ Term.parameterNames ((formals ++ tail).map .name))) s (term c.term) := by
  have hstandard : ∀ x ∈ formals ++ tail.tail, Standard.find? x.text = none := by
    intro x hx
    rcases List.mem_append.1 hx with hx | hx
    · exact (hformals x hx).2
    · rcases htail with rfl | ⟨mark, rest, rfl, -, hrest⟩
      · cases hx
      · rwa [List.mem_singleton.1 hx]
  obtain ⟨hparameters, hnames⟩ := refers_parameters (fun x hx => (hformals x hx).1)
    (htail.imp_right fun ⟨mark, rest, htail, hmark, _⟩ => ⟨mark, rest, htail, hmark⟩)
    (s.enter none)
  refine refers_form hform rfl ?_
  rw [lambda, hargs, hnames]
  refine Refers.inLayer (formals ++ tail.tail) (refers_closure hparameters ?_)
  exact refers_body fun t ht => hts t ht _ (hs.enter.withLocals hstandard)

/-- A counted loop does not look up the name of the range, but that is a standard one. -/
theorem refers_loopSource (hs : s.Ready) {source : Term} (h : TermRefers job source.free source)
    (hargs : ∀ t ts span, source = .call (.name t) ts span → t.text = "range" →
      ∀ u ∈ ts, TermRefers job u.free u) :
    Refers job s source.free s (loopSource term source) := by
  unfold loopSource
  split
  · rename_i t bounds span
    split
    · rename_i hrange
      rw [Bool.and_eq_true, beq_iff_eq] at hrange
      have hform : Standard.form? t.text = none := by
        rw [hrange.1]
        decide +kernel
      have hfound : s.lacks t = false := by
        refine hs.standard.lacks_eq ?_
        rw [hrange.1]
        decide +kernel
      refine ((refers_evalAll fun u hu => hargs t bounds span rfl hrange.1 u hu s hs).map _).congr ?_
      rw [Term.free_function hform, List.find?_cons, hfound]
    · exact (h s hs).eval.map _
  · exact (h s hs).eval.map _

theorem refers_loop {c : Call} {tokens : List Token} {source : Term} {ts : List Term} {inner : Span}
    (hs : s.Ready) (hform : s.form? c = some .loop)
    (hargs : c.args = .list (tokens.map .name ++ [source]) inner :: ts)
    (hlength : tokens.length = 1 ∨ tokens.length = 2)
    (htokens : ∀ x ∈ tokens, Standard.find? x.text = none)
    (hsource : TermRefers job source.free source)
    (hcounted : Refers job (s.enter none) source.free (s.enter none) (loopSource term source))
    (hts : ∀ t ∈ ts, TermRefers job t.free t) :
    Refers job s (source.free ++ (Term.freeAll ts).filter (·.text ∉ tokens.map Token.text)) s
      (term c.term) := by
  have hterms := refers_evalAll fun t ht => hts t ht _ (hs.enter.withLocals htokens)
  refine refers_form hform rfl (Refers.inLayer tokens ?_)
  have hbehind := (s.enter none).find?_lacks_locals (rfl : tokens.map Token.text = _)
    (Term.freeAll ts)
  match tokens, hlength with
  | [item], _ =>
    rw [loop, hargs]
    refine hcounted.seq fun source => (refers_registerLocal item).bind (fun _ => ?_) hbehind
    refine hterms.last fun _ => ?_
    cases source with
    | inl bounds => exact refers_thunk _
    | inr source => exact refers_thunk _
  | [item, key], _ =>
    rw [loop, hargs]
    have hkey := ((s.enter none).withLocals [item]).find?_lacks_locals
      (rfl : [key].map Token.text = _) (Term.freeAll ts)
    refine (hsource _ hs.enter).eval.seq fun source => ?_
    refine (refers_registerLocal item).bind (fun _ => ?_) (hkey.symm.trans hbehind)
    exact (refers_registerLocal key).bind (fun _ => hterms.last fun _ => refers_thunk _) hkey

/-! ### Terms -/

theorem refers_arg {t : Term} (ht : t.Lexical) (h : Refers job s t.free s (term t)) :
    Refers job s t.free s (arg term t) := by
  cases t with
  | name token =>
    cases ht with
    | name hvalue =>
      cases hm : s.find? token.text with
      | none => exact h.eval.of_exec (by rw [arg, exec_bind, exec_find?, hm])
      | some m =>
        cases hform : m.isForm with
        | false =>
          refine h.eval.of_exec ?_
          rw [arg, exec_bind, exec_find?, hm]
          simp only [hform, Bool.false_eq_true, if_false]
        | true =>
          obtain ⟨f, hf⟩ := function?_of_find? hvalue hm hform
          have hok : (arg term (.name token)).exec job s = (.ok (.word f), s) := by
            rw [arg, exec_bind, exec_find?, hm]
            simp only [hform, if_true, hf, exec_pure]
          refine (Refers.of_ok hok).congr ?_
          rw [Term.free, List.find?_singleton, Session.lacks, hm]
          rfl
  | _ => exact h.eval

theorem refers_args {ts : List Term} (hts : ∀ t ∈ ts, t.Lexical)
    (h : ∀ t ∈ ts, Refers job s t.free s (term t)) :
    Refers job s (Term.freeAll ts) s (args term ts) := by
  rw [Term.freeAll_eq_flatMap, List.flatMap_def]
  exact .mapM (List.forall₂_map_right_iff.2 (List.forall₂_same.2 fun t ht =>
    refers_arg (hts t ht) (h t ht)))

/-- A call of a function refers to its name and to what its arguments refer to. -/
theorem refers_call (hs : s.Ready) {t : Token} {ts : List Term} {span : Span}
    (hform : Standard.form? t.text = none) (hts : ∀ u ∈ ts, u.Lexical)
    (h : ∀ u ∈ ts, Refers job s u.free s (term u)) :
    Refers job s (t :: Term.freeAll ts) s (term (.call (.name t) ts span)) := by
  have hcall : term (.call (.name t) ts span) = call term ⟨.name t, ts, span⟩ := term_eq_step _
  rw [hcall]
  show Refers job s _ s (dispatch term ⟨.name t, ts, span⟩)
  refine refers_resolve fun m hm => ?_
  refine Refers.behind (.of_ok (a := ()) ?_) fun _ => ?_
  · rw [exec_permit, hs.impure]
    rfl
  · rw [through, form?_of_find? hs hm, hform]
    exact ((refers_args hts h).last fun _ => .of_ok rfl).map _

theorem refers_key (escaped : Bool) {t : Term} (h : Refers job s t.free s (term t)) :
    Refers job s t.free s (key term escaped t) := by
  cases t with
  | symbol token =>
    rw [key]
    split
    · exact .of_ok rfl
    · exact h.eval
  | _ => exact h.eval

/-- The value of a key without one is a standard name. -/
theorem refers_unit (hs : s.Ready) (span : Span) : Refers job s [] s (nameValue ⟨"unit", span⟩) := by
  have hfind : (Standard.find? "unit").isSome = true := by decide +kernel
  have hvalue : Standard.isValueless "unit" = false := by decide +kernel
  refine (refers_nameValue hvalue).congr ?_
  rw [List.find?_singleton, hs.standard.lacks_eq hfind]
  rfl

theorem refers_entries (hs : s.Ready) (escaped : Bool) : ∀ ts : List Term,
    (∀ t ∈ ts, Refers job s t.free s (term t)) →
    Refers job s (Term.freeAll ts) s (entries term escaped ts)
  | [], _ => .of_ok rfl
  | [k], h => (refers_key escaped (h k List.mem_cons_self)).seq fun _ => (refers_unit hs _).map _
  | k :: v :: rest, h => by
    obtain ⟨hk, h⟩ := List.forall_mem_cons.1 h
    obtain ⟨hv, hrest⟩ := List.forall_mem_cons.1 h
    exact (refers_key escaped hk).seq fun _ => hv.eval.seq fun _ =>
      (refers_entries hs escaped rest hrest).map _

/-- A call through a symbol or a number is one of a standard function. -/
theorem refers_indexed (hs : s.Ready) {c : Call} {t : Token}
    (htarget : c.target = .symbol t ∨ c.target = .number t) (hargs : ∀ u ∈ c.args, u.Lexical)
    (h : ∀ u ∈ c.args, Refers job s u.free s (term u)) :
    Refers job s (Term.freeAll c.args) s (term c.term) := by
  have hindexed : ∃ getter ∈ ["list/get", "table/get"], ∃ key : Term,
      (key = .number t ∨ key = .symbol t) ∧
      c.indexed = ⟨.name ⟨getter, c.target.span⟩, key :: c.args, c.span⟩ := by
    rcases htarget with htarget | htarget
    · rw [Call.indexed, htarget, Term.indexer]
      cases isIndex t.text with
      | true => exact ⟨_, .head _, _, .inl rfl, rfl⟩
      | false => exact ⟨_, .tail _ (.head _), _, .inr rfl, rfl⟩
    · rw [Call.indexed, htarget]
      exact ⟨_, .head _, _, .inl rfl, rfl⟩
  have hexec : (term c.term).exec job s = (term c.indexed.term).exec job s := by
    have hcall : term c.term = call term c := term_eq_step c.term
    rw [hcall, call, exec_inCall, dispatch]
    rcases htarget with htarget | htarget <;> rw [htarget]
  obtain ⟨getter, hgetter, key, hkey, hindexed⟩ := hindexed
  have hstandard : ∀ getter ∈ ["list/get", "table/get"],
      (Standard.find? getter).isSome = true ∧ Standard.form? getter = none := by
    decide +kernel
  obtain ⟨hfind, hform⟩ := hstandard getter hgetter
  have hkeyLexical : key.Lexical := by
    rcases hkey with rfl | rfl
    · exact .number t
    · exact .symbol t
  have hkeyRefers : Refers job s key.free s (term key) := by
    rcases hkey with rfl | rfl
    · exact .of_ok (congrArg (exec · job s) (term_eq_step (.number t)))
    · exact .of_ok (congrArg (exec · job s) (term_eq_step (.symbol t)))
  rw [hindexed] at hexec
  refine ((refers_call hs hform (List.forall_mem_cons.2 ⟨hkeyLexical, hargs⟩)
    (List.forall_mem_cons.2 ⟨hkeyRefers, h⟩)).of_exec hexec).congr ?_
  have hkeyFree : key.free = [] := by
    rcases hkey with rfl | rfl <;> rfl
  rw [List.find?_cons, hs.standard.lacks_eq hfind, Term.freeAll, hkeyFree, List.nil_append]

/-- The parts of a call of a function are lexical. -/
theorem lexical_args {t : Token} {ts : List Term} {span : Span}
    (h : (Term.call (.name t) ts span).Lexical) (hform : Standard.form? t.text = none) :
    ∀ u ∈ ts, u.Lexical := by
  cases h with
  | call _ hts => exact hts
  | form hform' | bindings hform' | lambda hform' | loop hform' =>
    rw [hform] at hform'
    cases hform'

/-- A lexical term refers to its free names. -/
theorem refers_term {t : Term} (ht : t.Lexical) (hs : s.Ready) :
    Refers job s t.free s (term t) := by
  induction hn : t.rank using Nat.strongRecOn generalizing t s with
  | ind n ih =>
    have below {u : Term} (hu : u.rank < t.rank) (hlexical : u.Lexical) :
        TermRefers job u.free u := fun s hs => ih u.rank (hn ▸ hu) hlexical hs rfl
    cases ht with
    | number token => exact .of_ok (congrArg (exec · job s) (term_eq_step (.number token)))
    | string token => exact .of_ok (congrArg (exec · job s) (term_eq_step (.string token)))
    | symbol token => exact .of_ok (congrArg (exec · job s) (term_eq_step (.symbol token)))
    | name hvalue =>
      rw [term_eq_step]
      exact (refers_nameValue hvalue).map _
    | path hroot hlinks =>
      rw [term_eq_step]
      exact (refers_pathValue hs hroot hlinks).map _
    | list hts =>
      rw [term_eq_step]
      exact ((refers_evalAll fun u hu => below (Term.rank_lt_list _ hu) (hts u hu) s hs).map _).map _
    | table hts =>
      rw [term_eq_step]
      exact ((refers_entries hs _ _ fun u hu =>
        below (Term.rank_lt_table _ _ hu) (hts u hu) s hs).map _).map _
    | call hform hts =>
      rw [Term.free_function hform]
      exact refers_call hs hform hts fun u hu => below (Term.rank_lt_call _ _ hu) (hts u hu) s hs
    | symbolCall token hts =>
      exact refers_indexed (c := ⟨.symbol token, _, _⟩) hs (.inl rfl) hts fun u hu =>
        below (Term.rank_lt_call _ _ hu) (hts u hu) s hs
    | numberCall token hts =>
      exact refers_indexed (c := ⟨.number token, _, _⟩) hs (.inr rfl) hts fun u hu =>
        below (Term.rank_lt_call _ _ hu) (hts u hu) s hs
    | @form token _ ts span hform htakes hts =>
      rw [Term.free_form hform htakes]
      exact refers_simple hs ((hs.standard.form?_eq ⟨.name token, ts, span⟩).trans hform) htakes
        fun u hu => below (Term.rank_lt_call _ _ hu) (hts u hu) s hs
    | @bindings token pairs ts inner span hform hpatterns hpairs hts =>
      have hpair : ∀ b ∈ pairs, TermRefers job b.2.free b.2 := fun b hb => by
        refine below (Nat.lt_trans ?_ (Term.rank_lt_call _ span List.mem_cons_self)) (hpairs b hb)
        exact Term.rank_lt_list inner (List.mem_flatMap.2 ⟨b, hb, by simp⟩)
      simp only [Term.free, hform]
      exact refers_bindings hs ((hs.standard.form?_eq ⟨.name token, _, span⟩).trans hform) rfl
        hpatterns hpair fun u hu =>
          below (Term.rank_lt_call _ _ (List.mem_cons_of_mem _ hu)) (hts u hu)
    | @lambda token formals tail ts inner span hform hformals htail hts =>
      simp only [Term.free, hform]
      exact refers_lambda hs ((hs.standard.form?_eq ⟨.name token, _, span⟩).trans hform) rfl
        hformals htail fun u hu =>
          below (Term.rank_lt_call _ _ (List.mem_cons_of_mem _ hu)) (hts u hu)
    | @loop token tokens source ts inner span hform hlength htokens hsource hts =>
      have hrank : source.rank < (Term.call (.name token)
          (.list (tokens.map .name ++ [source]) inner :: ts) span).rank :=
        Nat.lt_trans (Term.rank_lt_list inner (List.mem_append_right _ (List.mem_singleton.2 rfl)))
          (Term.rank_lt_call _ span List.mem_cons_self)
      have hcounted := refers_loopSource hs.enter (below hrank hsource) fun t bounds sp heq hrange => by
        subst heq
        have hnone : Standard.form? t.text = none := by
          rw [hrange]
          decide +kernel
        exact fun u hu => below (Nat.lt_trans (Term.rank_lt_call _ _ hu) hrank)
          (lexical_args hsource hnone u hu)
      simp only [Term.free, hform, Term.freeLast_append, List.dropLast_concat, Term.namesAll_name]
      exact refers_loop hs ((hs.standard.form?_eq ⟨.name token, _, span⟩).trans hform) rfl hlength
        htokens (below hrank hsource) hcounted fun u hu =>
          below (Term.rank_lt_call _ _ (List.mem_cons_of_mem _ hu)) (hts u hu)

end Gen

open Gen

/-- Where no standard name is hidden and effects are allowed, a lexical term can be lowered if and only
if all its free names refer to something, and then the session stays as it is. Otherwise it is
refused for the first of them that refers to nothing, at the place where that stands. -/
theorem unbound_names_are_free_names {t : Term} (ht : t.Lexical) (job : Job) {s : Session}
    (hs : s.KeepsStandard) (himpure : s.isPure = false) :
    ((∃ code, ((value t).exec job s).1 = .ok code) ↔ ∀ x ∈ t.free, (s.find? x.text).isSome = true) ∧
    (∀ code, ((value t).exec job s).1 = .ok code → ((value t).exec job s).2 = s) ∧
    (∀ f, ((value t).exec job s).1 = .error f → ∃ front x behind, t.free = front ++ x :: behind ∧
      (∀ y ∈ front, (s.find? y.text).isSome = true) ∧ s.find? x.text = none ∧
      f = ⟨.unbound x.text, x.span⟩) := by
  have hvalue : Refers job s t.free s (value t) := (refers_term ht ⟨hs, himpure⟩).eval
  rw [Refers] at hvalue
  cases hfree : t.free.find? s.lacks with
  | none =>
    rw [hfree] at hvalue
    obtain ⟨code, hcode⟩ := hvalue
    have hfound : ∀ x ∈ t.free, (s.find? x.text).isSome = true := by
      simpa [Session.lacks, Option.isSome_iff_ne_none] using hfree
    rw [hcode]
    exact ⟨⟨fun _ => hfound, fun _ => ⟨code, rfl⟩⟩, fun _ _ => rfl, fun f hf => by cases hf⟩
  | some x =>
    rw [hfree] at hvalue
    obtain ⟨hx, front, behind, hnames, hfront⟩ := List.find?_eq_some_iff_append.1 hfree
    have hunbound : s.find? x.text = none := by simpa [Session.lacks] using hx
    have hfound : ∀ y ∈ front, (s.find? y.text).isSome = true := by
      simpa [Session.lacks, Option.isSome_iff_ne_none] using hfront
    rw [hvalue]
    refine ⟨⟨?_, fun h => ?_⟩, ?_, ?_⟩
    · rintro ⟨code, hcode⟩
      cases hcode
    · have hsome := h x (hnames ▸ List.mem_append_right _ List.mem_cons_self)
      rw [hunbound] at hsome
      cases hsome
    · intro code hcode
      cases hcode
    · intro f hf
      cases hf
      exact ⟨front, x, behind, hnames, hfound, hunbound, rfl⟩

/-- A function in a `let`, which refers to a name that is bound in neither and to one that is declared
around them. -/
theorem unbound_names_are_free_names_let :
    ∃ (t : Term) (s : Session), t.render = "(let [[a b] y] (fn [c & r] (+ a c z)))" ∧ t.Lexical ∧
      s.KeepsStandard ∧ s.isPure = false ∧
      ∀ job, ((value t).exec job s).1 = .error ⟨.unbound "z", .none⟩ := by
  let token (text : String) : Token := ⟨text, .none⟩
  let name (text : String) : Term := .name (token text)
  let sum : Term := .call (name "+") [name "a", name "c", name "z"] .none
  let lambda : Term :=
    .call (name "fn") [.list (([token "c"] ++ [token "&", token "r"]).map .name) .none, sum] .none
  let pairs : List (Term × Term) := [(.list [name "a", name "b"] .none, name "y")]
  let t : Term :=
    .call (name "let") [.list (pairs.flatMap fun b => [b.1, b.2]) .none, lambda] .none
  let s := Session.start.withLocal (token "y")
  have hs : s.KeepsStandard :=
    Session.KeepsStandard.withLocal (fun _ _ => rfl) (by decide +kernel)
  have hname {text : String} (h : Standard.isValueless text = false) : (name text).Lexical := .name h
  have hsum : sum.Lexical := by
    have hform : Standard.form? "+" = some (.operator .add) := by decide +kernel
    refine .form hform rfl ?_
    simp only [List.forall_mem_cons, List.not_mem_nil, false_imp_iff, implies_true, and_true]
    exact ⟨hname (by decide +kernel), hname (by decide +kernel), hname (by decide +kernel)⟩
  have hlambda : lambda.Lexical := by
    refine .lambda (by decide +kernel) ?_ (.inr ⟨_, _, rfl, rfl, by decide +kernel⟩) ?_
    · exact List.forall_mem_singleton.2 ⟨by decide +kernel, by decide +kernel⟩
    · exact List.forall_mem_singleton.2 hsum
  have ht : t.Lexical := by
    refine .bindings (by decide +kernel) ?_ ?_ (List.forall_mem_singleton.2 hlambda)
    · refine List.forall_mem_singleton.2 (.list ?_)
      exact List.forall_mem_cons.2 ⟨.name (by decide +kernel),
        List.forall_mem_singleton.2 (.name (by decide +kernel))⟩
    · exact List.forall_mem_singleton.2 (hname (by decide +kernel))
  have hfree : t.free = [token "y", token "z"] := by decide +kernel
  refine ⟨t, s, by decide +kernel, ht, hs, rfl, fun job => ?_⟩
  obtain ⟨hiff, -, herror⟩ := unbound_names_are_free_names ht job hs rfl
  have hy : (s.find? "y").isSome = true := by decide +kernel
  have hz : s.find? "z" = none := by decide +kernel
  rw [hfree] at hiff herror
  cases hresult : ((value t).exec job s).1 with
  | ok code =>
    have hsome := hiff.1 ⟨code, hresult⟩ (token "z") (by simp)
    rw [hz] at hsome
    cases hsome
  | error f =>
    obtain ⟨front, x, behind, hnames, -, hx, rfl⟩ := herror f hresult
    match front with
    | [] =>
      cases hnames
      rw [hx] at hy
      cases hy
    | [_] =>
      cases hnames
      rfl
    | _ :: _ :: front => simp at hnames

end LispLua
