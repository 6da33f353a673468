import LispLua.Proofs.Lowering.Success

/-!
# The rules of lowering

What a term is lowered to, as a set of rules: each says from which pieces some code is made, in
which order the pieces are lowered, and how the session goes from one to the next. The rules leave
out how a program is refused, so they are about programs that are accepted.

All pieces are of one type, `Fragment`, so that the rules are one family and one induction goes over
all of them. The result is a row of codes in the order of the text.

Every rule about a term also says that the term is in a class `P`. For a class that terms hand on to
the terms inside them and that sugar keeps, this is known of every term a lowering meets, however
deep.
-/

namespace LispLua

open Lua

namespace Session

/-- The session with a value declared in the innermost block. -/
def withLocal (s : Session) (t : Token) : Session :=
  { s with scope := s.scope.set t.text (Binding.declare t.text .value .block false) }

/-- The session with a name declared that is defined elsewhere. -/
def withExtern (s : Session) (kind : Kind) (everywhere : Bool) (t : Token) : Session :=
  if everywhere then
    { s with scope := s.scope.setRoot t.text (Binding.declare t.text kind .everywhere true) }
  else { s with scope := s.scope.set t.text (Binding.declare t.text kind .block true) }

/-- Local names are declared one after the other; `names` are their emitted forms. -/
inductive Binds : Session → List String → Session → Prop
  | nil : Binds s [] s
  | cons (t : Token) : Binds (s.withLocal t) names s' → Binds s (mangle t.text :: names) s'

/-- Code that reaches into a value: the value itself, or items of it. -/
inductive Part (value : Code) : Code → Prop
  | self : Part value value
  | paren : Part value (.paren value)
  | item (index : Nat) : Part value part → Part value (.item part index)

/-- Local names are bound to parts of a value one after the other. -/
inductive Destructs (value : Code) : Session → List Code → Session → Prop
  | nil : Destructs value s [] s
  | cons (t : Token) : Part value part → Destructs value (s.withLocal t) bs s' →
      Destructs value s (.bind (mangle t.text) part :: bs) s'

theorem Destructs.append {value : Code} {bs cs : List Code} {s s₁ s₂ : Session}
    (h : s.Destructs value bs s₁) (h' : s₁.Destructs value cs s₂) :
    s.Destructs value (bs ++ cs) s₂ := by
  induction h with
  | nil => exact h'
  | cons t hpart _ ih => exact .cons t hpart (ih h')

end Session

mutual

/-- The names that a pattern binds. -/
def Term.binders : Term → List Token
  | .name t => [t]
  | .list items _ => bindersAll items
  | _ => []

/-- The names that some patterns bind. -/
def Term.bindersAll : List Term → List Token
  | [] => []
  | t :: ts => t.binders ++ bindersAll ts

end

/-- The items of a list; all other terms have none. -/
def Term.items : Term → List Term
  | .list items _ => items
  | _ => []

/-- The emitted names of a pattern. -/
def Term.emitted (t : Term) : List String :=
  t.binders.map fun token => mangle token.text

theorem Term.bindersAll_map_name (tokens : List Token) :
    bindersAll (tokens.map Term.name) = tokens := by
  induction tokens with
  | nil => rfl
  | cons t tokens ih => rw [List.map_cons, bindersAll, ih, binders, List.singleton_append]

/-- The code of an access expression with some segments whose root has the code `root`. -/
inductive Accesses (segments : List Segment) (root : Code) : Code → Prop
  | root : Accesses segments root root
  | field {x : Segment} : x ∈ segments → Accesses segments root owner →
      Accesses segments root (.field owner x.name.text)
  | method {x : Segment} : x ∈ segments → Accesses segments root owner →
      Accesses segments root (.method owner x.name.text)

/-- Code that is a comment and nothing else. Only this stands as a statement without a semicolon. -/
inductive Lua.Code.IsNote : Code → Prop
  | intro (names specifiers : List String) : IsNote (.externNote names specifiers)

/-- A form is sugar for a term. -/
def Form.Expands (c : Call) (t : Term) : Form → Prop
  | .threadFirst => Term.thread .first c.args c.span = .ok t
  | .threadLast => Term.thread .last c.args c.span = .ok t
  | .fanFirst => Term.fan .first c.args c.span = .ok t
  | .fanLast => Term.fan .last c.args c.span = .ok t
  | .parity => Term.parity c.args c.span = .ok t
  | _ => False

/-- What is lowered in one go. -/
inductive Fragment where
  | term (t : Term)
  /-- Terms as expressions. -/
  | values (ts : List Term)
  /-- The arguments of a call. -/
  | args (ts : List Term)
  /-- The key of an entry. -/
  | key (escaped : Bool) (t : Term)
  /-- The keys and values of a table in turn. -/
  | entries (escaped : Bool) (ts : List Term)
  /-- Terms in a row, of which the last is the value. -/
  | body (ts : List Term)
  /-- Left sides and values in turn. -/
  | pairs (ts : List Term)
  /-- The items of a list pattern from `index` on. -/
  | tests (subject : Code) (ts : List Term) (index : Nat)
  /-- The cases of a match. -/
  | arms (subject : Code) (ts : List Term)
  /-- The arguments of an import. -/
  | imports (ts : List Term)
  /-- The import clauses of a module. -/
  | clauses (ts : List Term)
  /-- A function, in the layer of its formal arguments. -/
  | closure (formals ts : List Term)
  /-- A named function, with what stands behind its formal arguments. -/
  | named (isPure hidden : Bool) (t : Token) (formals rest : List Term)
  | form (form : Form) (c : Call)

/-- From `s` a fragment is lowered to some codes by the steps `u`, and `s'` is left. Terms are in `P`. -/
inductive Lowers (P : Term → Prop) (job : Job) :
    Fragment → Session → List Code → List Step → Session → Prop
  -- terms
  | list : P (.list items span) → Lowers P job (.values items) s cs u s' →
      Lowers P job (.term (.list items span)) s [.list cs] u s'
  | table : P (.table items escaped span) → Lowers P job (.entries escaped items) s cs u s' →
      Lowers P job (.term (.table items escaped span)) s
        [if escaped then .record cs else .table cs] u s'
  | path : P (.path p) → s.find? p.root.text = some m → m.isForm = false →
      Accesses p.segments (m.reference s.package) code →
      Lowers P job (.term (.path p)) s [code] [] s
  | nameForm : P (.name t) → s.find? t.text = some m → m.isForm = true → m.function? = some f →
      Lowers P job (.term (.name t)) s [.word f] [] s
  | name : P (.name t) → s.find? t.text = some m → m.isForm = false →
      Lowers P job (.term (.name t)) s [m.reference s.package] [] s
  | symbol : P (.symbol t) → Lowers P job (.term (.symbol t)) s [.symbol t.text] [] s
  | number : P (.number t) → Lowers P job (.term (.number t)) s [.word t.text] [] s
  | string : P (.string t) → Lowers P job (.term (.string t)) s [.word (Gen.stringText t.text)] [] s
  -- calls
  | indexed : P c.term → s.form? c = none → Lowers P job (.term c.indexed.term) s cs u s' →
      Lowers P job (.term c.term) s cs [.call c s u] s'
  | self : P c.term → s.form? c = none → Lowers P job (.args c.args) s cs u s' →
      Lowers P job (.term c.term) s [.call (.word "__self_ref__") cs] [.call c s u] s'
  | reached : P c.term → s.form? c = none → c.target = .path p →
      s.find? p.root.text = some m → m.isForm = false →
      Accesses p.segments (m.reference s.package) callee →
      Lowers P job (.args c.args) s cs u s' →
      Lowers P job (.term c.term) s [.call callee cs] [.call c s u] s'
  | through : P c.term → s.form? c = none → c.target = .name t → s.find? t.text = some m →
      m.isForm = false → Lowers P job (.args c.args) s cs u s' →
      Lowers P job (.term c.term) s [.call (m.reference s'.package) cs] [.call c s u] s'
  | special : P c.term → s.form? c = some form → Lowers P job (.form form c) s cs u s' →
      Lowers P job (.term c.term) s cs [.call c s u] s'
  -- rows of terms
  | valuesNil : Lowers P job (.values []) s [] [] s
  | valuesCons : Lowers P job (.term t) s [c] u s₁ → Lowers P job (.values ts) s₁ cs v s' →
      Lowers P job (.values (t :: ts)) s (c :: cs) (u ++ v) s'
  | argsNil : Lowers P job (.args []) s [] [] s
  | argsForm : s.find? t.text = some m → m.isForm = true → m.function? = some f →
      Lowers P job (.args ts) s cs u s' →
      Lowers P job (.args (.name t :: ts)) s (.word f :: cs) u s'
  | argsCons : Lowers P job (.term t) s [c] u s₁ → Lowers P job (.args ts) s₁ cs v s' →
      Lowers P job (.args (t :: ts)) s (c :: cs) (u ++ v) s'
  | keyQuoted : Lowers P job (.key true (.symbol t)) s [.quoted t.text] [] s
  | keyTerm : Lowers P job (.term t) s [c] u s' → Lowers P job (.key escaped t) s [c] u s'
  | entriesNil : Lowers P job (.entries escaped []) s [] [] s
  | entriesLast : Lowers P job (.key escaped k) s [c] u s' → s'.find? "unit" = some m →
      m.isForm = false →
      Lowers P job (.entries escaped [k]) s [.entry c (m.reference s'.package)] u s'
  | entriesCons : Lowers P job (.key escaped k) s [c] u s₁ → Lowers P job (.term t) s₁ [d] v s₂ →
      Lowers P job (.entries escaped ts) s₂ cs w s' →
      Lowers P job (.entries escaped (k :: t :: ts)) s (.entry c d :: cs) (u ++ (v ++ w)) s'
  | bodyNil : Lowers P job (.body []) s [] [] s
  | bodyLast : (Gen.isDefinition t).Gives job s definition [] s → (separated = true ∨ c.IsNote) →
      Lowers P job (.term t) s [c] u s' →
      Lowers P job (.body [t]) s
        (if definition then [.run separated c, Gen.giveUnit] else [.give separated c]) u s'
  | bodyCons : (separated = true ∨ c.IsNote) → Lowers P job (.term t) s [c] u s₁ →
      Lowers P job (.body (t' :: ts)) s₁ cs v s' →
      Lowers P job (.body (t :: t' :: ts)) s (.run separated c :: cs) (u ++ v) s'
  | pairsNil : ts.length < 2 → Lowers P job (.pairs ts) s [] [] s
  | pairsCons : Lowers P job (.term t) s [c] u s₁ → s₁.Destructs c bs s₂ →
      bs.length = left.binders.length → Lowers P job (.pairs ts) s₂ cs v s' →
      Lowers P job (.pairs (left :: t :: ts)) s (bs ++ cs) (u ++ v) s'
  | testsNil : Lowers P job (.tests subject [] index) s [] [] s
  | testsAny : Lowers P job (.tests subject ts (index + 1)) s cs u s' →
      Lowers P job (.tests subject (t :: ts) index) s cs u s'
  | testsCons : Lowers P job (.term t) s [c] u s₁ →
      Lowers P job (.tests subject ts (index + 1)) s₁ cs v s' →
      Lowers P job (.tests subject (t :: ts) index) s
        (.binary " == " (.item (Gen.indexable subject) index) c :: cs) (u ++ v) s'
  | armsNil : ts.length < 2 → Lowers P job (.arms subject ts) s [] [] s
  | armsAny : Lowers P job (.arms subject ts) { s with log := events } cs u s' →
      Lowers P job (.arms subject (left :: right :: ts)) s cs u s'
  | armsList : Lowers P job (.term right) s [value] u s₁ →
      Lowers P job (.tests subject items 0) s₁ tests v s₂ →
      Lowers P job (.arms subject ts) s₂ cs w s' →
      Lowers P job (.arms subject (.list items span :: right :: ts)) s
        (.arm (.every (.isTable subject :: tests)) value :: cs) (u ++ (v ++ w)) s'
  | armsTerm : left.isName "_" = false → Lowers P job (.term right) s [value] u s₁ →
      Lowers P job (.term left) s₁ [c] v s₂ →
      Lowers P job (.arms subject ts) s₂ cs w s' →
      Lowers P job (.arms subject (left :: right :: ts)) s
        (.arm (.binary " == " subject c) value :: cs) (u ++ (v ++ w)) s'
  -- modules
  | importWhole : Lowers P job (.term (.string t)) s [c] u s' →
      Lowers P job (.imports [.string t]) s [.load c] u s'
  | importNamed : Lowers P job (.imports [.name t]) s [.load (.quoted t.text)] [] s
  | importAs : Lowers P job (.term source) s [c] u s' →
      Lowers P job (.imports [.name t, word, source]) s [.loadAs (mangle t.text) c] u
        (s'.withLocal t)
  | importMembers : Lowers P job (.term source) s [c] u s₁ →
      s₁.Binds (names.map Prod.fst) s' →
      (∃ tokens : List Token, items = tokens.map Term.name ∧
        names = tokens.map fun t => (mangle t.text, t.text)) →
      Lowers P job (.imports [.list items span, word, source]) s [.loadMembers names c] u s'
  | clausesNil : Lowers P job (.clauses []) s [] [] s
  | clausesCons : (clause = .list (.symbol t :: ts) span ∨ clause = .call (.symbol t) ts span) →
      Lowers P job (.imports ts) s [c] u s₁ → Lowers P job (.clauses clauses) s₁ cs v s' →
      Lowers P job (.clauses (clause :: clauses)) s (c :: cs) (u ++ v) s'
  -- functions
  | closureEmpty : s.Binds (names ++ rest.toList) s' →
      rest.isSome = formals.any (Term.isName "&") →
      Lowers P job (.closure formals []) s [.closure names rest (.lines [Gen.giveUnit])] [] s'
  | closure : s.Binds (names ++ rest.toList) s₁ → rest.isSome = formals.any (Term.isName "&") →
      Lowers P job (.body (t :: ts)) s₁ cs u s' →
      Lowers P job (.closure formals (t :: ts)) s [.closure names rest (.lines cs)] u s'
  | named {isPure hidden : Bool} : s.register t kind
        (if Gen.isGlobal rest then .everywhere else if hidden then .block else .package)
        (Gen.isGlobal rest) = .ok (b, s₁) →
      s₂ = { s₁ with log := events } →
      Lowers P job (.closure formals (if Gen.isGlobal rest then rest.drop 1 else rest))
        (s₂.enter (some isPure)) [c] u s₃ →
      Lowers P job (.named isPure hidden t formals rest) s
        [if hidden && !Gen.isGlobal rest then .declareThen b.emitted c
          else .assign (b.reference s₃.package) c]
        [.layer (s₂.enter (some isPure)) u] s₃.leave
  -- forms
  | defineFunction : c.args = .name t :: .list formals span :: body₁ :: bodies → s.isPure = false →
      Lowers P job (.named isPure false t formals (body₁ :: bodies)) s cs u s' →
      Lowers P job (.form (.define isPure) c) s cs u s'
  | defineValue : c.args = [.name t, value] → s.isPure = false →
      Lowers P job (.term value) s [code] u s₁ →
      s₁.register t .value .package false = .ok (b, s') →
      Lowers P job (.form (.define isPure) c) s [.define (b.reference s'.package) code] u s'
  | function {isPure hidden : Bool} : c.args = .name t :: .list formals span :: rest →
      s.isPure = false →
      Lowers P job (.named isPure hidden t formals rest) s cs u s' →
      Lowers P job (.form (.function isPure hidden) c) s cs u s'
  | declare {tokens : List Token} : s.isPure = false → (∀ t ∈ tokens, .name t ∈ c.args) →
      (∀ specifier ∈ given, specifier ∈ Gen.knownSpecifiers) →
      s' = tokens.foldl (Session.withExtern · kind everywhere ·) s →
      Lowers P job (.form .declare c) s [.externNote (tokens.map Token.text) given] [] s'
  | importModule : Lowers P job (.imports c.args) s cs u s' →
      Lowers P job (.form .importModule c) s cs u s'
  | nameModule : c.args = .name t :: clauses →
      Lowers P job (.clauses clauses) (s.nameModule job.options t.text) cs u s' →
      Lowers P job (.form .nameModule c) s [.moduleNote t.text cs] u s'
  | bindings : c.args = .list pairs span :: ts →
      Lowers P job (.pairs pairs) (s.enter none) bs u s₁ → Lowers P job (.body ts) s₁ cs v s₂ →
      Lowers P job (.form .bindings c) s [.thunk job.options.variadic (.scope bs (.lines cs))]
        [.layer (s.enter none) (u ++ v)] s₂.leave
  | conditional : c.args = test :: yes :: no → Lowers P job (.term test) s [code₁] u s₁ →
      Lowers P job (.term yes) s₁ [code₂] v s₂ → Lowers P job (.body no) s₂ cs w s' →
      Lowers P job (.form .conditional c) s
        [.thunk job.options.variadic (.branch code₁ code₂ (.lines cs))] (u ++ (v ++ w)) s'
  | matching : c.args = value :: cases → Gen.fallback? cases = none →
      Lowers P job (.term value) s [subject] u s₁ →
      Lowers P job (.arms subject cases) s₁ cs v s' →
      Lowers P job (.form .matching c) s [.thunk job.options.variadic (Gen.choice cs none)] (u ++ v) s'
  | matchingElse : c.args = value :: cases → Gen.fallback? cases = some last →
      Lowers P job (.term value) s [subject] u s₁ →
      Lowers P job (.arms subject cases) s₁ cs v s₂ → Lowers P job (.body [last]) s₂ ds w s' →
      Lowers P job (.form .matching c) s [.thunk job.options.variadic (Gen.choice cs (some ds))]
        (u ++ (v ++ w)) s'
  | block : Lowers P job (.body c.args) s cs u s' →
      Lowers P job (.form .block c) s [.thunk job.options.variadic (.lines cs)] u s'
  | loopCount : c.args = .list [item, .call (.name r) bounds span₁] span :: ts →
      Lowers P job (.values bounds) (s.enter none) bs u s₁ →
      Lowers P job (.values ts) (s₁.withLocal t) cs v s₂ →
      Lowers P job (.form .loop c) s
        [.thunk job.options.variadic (.count (mangle t.text) bs cs)]
        [.layer (s.enter none) (u ++ v)] s₂.leave
  | loopEach : c.args = .list [item, source] span :: ts →
      Lowers P job (.term source) (s.enter none) [code] u s₁ →
      Lowers P job (.values ts) (s₁.withLocal t) cs v s₂ →
      Lowers P job (.form .loop c) s
        [.thunk job.options.variadic (.each "_" (mangle t.text) code cs)]
        [.layer (s.enter none) (u ++ v)] s₂.leave
  | loopPairs : c.args = .list [item, key, source] span :: ts →
      Lowers P job (.term source) (s.enter none) [code] u s₁ →
      Lowers P job (.values ts) ((s₁.withLocal t).withLocal t') cs v s₂ →
      Lowers P job (.form .loop c) s
        [.thunk job.options.variadic (.each (mangle t'.text) (mangle t.text) code cs)]
        [.layer (s.enter none) (u ++ v)] s₂.leave
  | lambda : c.args = .list formals span :: ts →
      Lowers P job (.closure formals ts) (s.enter none) cs u s₁ →
      Lowers P job (.form .lambda c) s cs [.layer (s.enter none) u] s₁.leave
  | attempt : Lowers P job (.body (c.args.filter fun t => !t.isCatch)) s cs u s₁ →
      Lowers P job (.body (c.args.filter Term.isCatch)) s₁ ds v s' →
      Lowers P job (.form .attempt c) s
        [.thunk job.options.variadic (.protect job.options.variadic (.lines cs) (.lines ds))]
        (u ++ v) s'
  | handler : c.args = .list items span :: ts →
      Lowers P job (.body ts) ((s.enter none).withLocal t) cs u s₁ →
      Lowers P job (.form .handler c) s [.handler (mangle t.text) (.lines cs)]
        [.layer (s.enter none) u] s₁.leave
  | arguments : Lowers P job (.form .arguments c) s [.arguments] [] s
  | sugar : form.Expands c t → Lowers P job (.term t) s cs u s' →
      Lowers P job (.form form c) s cs u s'
  | negation : c.args = [t] → Lowers P job (.term t) s [code] u s' →
      Lowers P job (.form .negation c) s [.negate code] u s'
  | operator : 2 ≤ c.args.length → Lowers P job (.values c.args) s cs u s' →
      Lowers P job (.form (.operator op) c) s
        [Gen.combine op job.options.target (cs.map Gen.operand)] u s'

/-- A class of terms that goes over to the terms inside a term and to what sugar makes of it. -/
structure Term.Hereditary (P : Term → Prop) : Prop where
  items {ts : List Term} {span : Span} : P (.list ts span) → ∀ t ∈ ts, P t
  cells {ts : List Term} {escaped : Bool} {span : Span} :
    P (.table ts escaped span) → ∀ t ∈ ts, P t
  args {c : Call} : P c.term → ∀ t ∈ c.args, P t
  list {ts : List Term} (span : Span) : (∀ t ∈ ts, P t) → P (.list ts span)
  named {name : String} {ts : List Term} (span : Span) : name ∈ ["not", "and", "or"] →
    (∀ t ∈ ts, P t) → P (Term.named name span ts)
  insert {c : Call} {t : Term} (slot : Slot) : P c.term → P t → P (c.insert slot t).term
  indexed {c : Call} : P c.term → P c.indexed.term

namespace Term.Hereditary

variable {P : Term → Prop} (hP : Hereditary P)

include hP

theorem feed {slot : Slot} {value stage t : Term} (hvalue : P value) (hstage : P stage)
    (h : Term.feed slot value stage = .ok t) : P t := by
  cases stage with
  | call target args span =>
    cases h
    exact hP.insert (c := ⟨target, args, span⟩) slot hstage hvalue
  | _ => cases h

theorem foldlM_feed {slot : Slot} {stages : List Term} {value t : Term} (hvalue : P value)
    (hstages : ∀ t ∈ stages, P t)
    (h : stages.foldlM (fun value stage => Term.feed slot value stage) value = .ok t) : P t := by
  induction stages generalizing value with
  | nil =>
    cases h
    exact hvalue
  | cons stage stages ih =>
    obtain ⟨hstage, hstages⟩ := List.forall_mem_cons.1 hstages
    rw [List.foldlM_cons] at h
    cases hfeed : Term.feed slot value stage with
    | error f =>
      rw [hfeed] at h
      cases h
    | ok next =>
      rw [hfeed] at h
      exact ih (hP.feed hvalue hstage hfeed) hstages h

theorem mapM_feed {slot : Slot} {stages ts : List Term} {value : Term} (hvalue : P value)
    (hstages : ∀ t ∈ stages, P t) (h : stages.mapM (Term.feed slot value) = .ok ts) :
    ∀ t ∈ ts, P t := by
  induction stages generalizing ts with
  | nil =>
    cases h
    simp
  | cons stage stages ih =>
    obtain ⟨hstage, hstages⟩ := List.forall_mem_cons.1 hstages
    rw [List.mapM_cons] at h
    cases hfeed : Term.feed slot value stage with
    | error f =>
      rw [hfeed] at h
      cases h
    | ok first =>
      rw [hfeed] at h
      cases hrest : stages.mapM (Term.feed slot value) with
      | error f =>
        rw [hrest] at h
        cases h
      | ok rest =>
        rw [hrest] at h
        cases h
        exact List.forall_mem_cons.2 ⟨hP.feed hvalue hstage hfeed, ih hstages hrest⟩

theorem thread {slot : Slot} {ts : List Term} {span : Span} {t : Term} (hts : ∀ t ∈ ts, P t)
    (h : Term.thread slot ts span = .ok t) : P t := by
  cases ts with
  | nil => cases h
  | cons value stages =>
    obtain ⟨hvalue, hstages⟩ := List.forall_mem_cons.1 hts
    exact hP.foldlM_feed hvalue hstages h

theorem fan {slot : Slot} {ts : List Term} {span : Span} {t : Term} (hts : ∀ t ∈ ts, P t)
    (h : Term.fan slot ts span = .ok t) : P t := by
  cases ts with
  | nil => cases h
  | cons value stages =>
    obtain ⟨hvalue, hstages⟩ := List.forall_mem_cons.1 hts
    simp only [Term.fan] at h
    cases hitems : stages.mapM (Term.feed slot value) with
    | error f =>
      rw [hitems] at h
      cases h
    | ok items =>
      rw [hitems] at h
      cases h
      exact hP.list span (hP.mapM_feed hvalue hstages hitems)

theorem exclusive (span : Span) {a b : Term} (ha : P a) (hb : P b) :
    P (Term.exclusive span a b) := by
  have hnot : ∀ {t : Term}, P t → P (Term.named "not" t.span [t]) := by
    intro t ht
    exact hP.named _ (by simp) (by simpa using ht)
  have hand : ∀ {t t' : Term} (span : Span), P t → P t' → P (Term.named "and" span [t, t']) := by
    intro t t' span ht ht'
    exact hP.named _ (by simp) (by simpa using ⟨ht, ht'⟩)
  exact hP.named _ (by simp) (by simpa using ⟨hand _ (hnot ha) hb, hand _ ha (hnot hb)⟩)

theorem parity {ts : List Term} {span : Span} {t : Term} (hts : ∀ t ∈ ts, P t)
    (h : Term.parity ts span = .ok t) : P t := by
  cases ts with
  | nil => cases h
  | cons first rest =>
    obtain ⟨hfirst, hrest⟩ := List.forall_mem_cons.1 hts
    cases h
    clear hts
    induction rest generalizing first with
    | nil => exact hfirst
    | cons t rest ih =>
      obtain ⟨ht, hrest⟩ := List.forall_mem_cons.1 hrest
      exact ih (Term.exclusive span first t) (hP.exclusive span hfirst ht) hrest

/-- What sugar stands for is in the class of its arguments. -/
theorem expands {form : Form} {c : Call} {t : Term} (hc : ∀ t ∈ c.args, P t)
    (h : form.Expands c t) : P t := by
  cases form with
  | threadFirst => exact hP.thread hc h
  | threadLast => exact hP.thread hc h
  | fanFirst => exact hP.fan hc h
  | fanLast => exact hP.fan hc h
  | parity => exact hP.parity hc h
  | _ => cases h

end Term.Hereditary

end LispLua
