import LispLua.Proofs.Lowering.Rules
import LispLua.Proofs.Pairing.Weakening

/-!
# Free names

The names that a term refers to and does not bind itself, by lexical scoping. It is said for the
terms in which scoping can be told from the text: those that use the standard forms for binding
names, and in the way they are meant to be used.
-/

namespace LispLua

/-- The special form a standard name stands for. -/
def Standard.form? (name : String) : Option Form :=
  (Standard.find? name).bind fun e => (Meaning.standard e).form?

/-- Whether a standard name stands for a special form that has no value. -/
def Standard.isValueless (name : String) : Bool :=
  (Standard.find? name).any fun e =>
    (Meaning.standard e).isForm && (Meaning.standard e).function?.isNone

/-! ### Names that terms bind -/

/-- The names of the left sides of pairs. -/
def Term.boundNames : List Term → List String
  | left :: _ :: rest => left.names ++ boundNames rest
  | _ => []

/-- The names of formal arguments. The mark in front of the last one is none. -/
def Term.parameterNames : List Term → List String
  | .name t :: ts => if t.text = "&" then Term.namesAll ts else t.text :: parameterNames ts
  | _ => []

/-- The name a call is made through, unless it is a special form. -/
def Token.callee (t : Token) : List Token :=
  if (Standard.form? t.text).isSome then [] else [t]

mutual

/-- The free names of a term. The value of a pair does not see its own left side, but those in front
of it, and what a loop runs over does not see the names of the loop. -/
def Term.free : Term → List Token
  | .list items _ | .table items _ _ => Term.freeAll items
  | .path p => [p.root]
  | .name t => [t]
  | .call (.name t) (.list first _ :: ts) _ =>
    match Standard.form? t.text with
    | some .bindings =>
      Term.freePairs first ++ (Term.freeAll ts).filter (·.text ∉ Term.boundNames first)
    | some .lambda => (Term.freeAll ts).filter (·.text ∉ Term.parameterNames first)
    | some .loop =>
      Term.freeLast first ++ (Term.freeAll ts).filter (·.text ∉ Term.namesAll first.dropLast)
    | _ => t.callee ++ (Term.freeAll first ++ Term.freeAll ts)
  | .call (.name t) args _ => t.callee ++ Term.freeAll args
  | .call _ args _ => Term.freeAll args
  | _ => []

/-- The free names of some terms. -/
def Term.freeAll : List Term → List Token
  | [] => []
  | t :: ts => t.free ++ Term.freeAll ts

/-- The free names of the values of pairs. -/
def Term.freePairs : List Term → List Token
  | left :: right :: rest => right.free ++ (Term.freePairs rest).filter (·.text ∉ left.names)
  | _ => []

/-- The free names of the last of some terms. -/
def Term.freeLast : List Term → List Token
  | [] => []
  | [t] => t.free
  | _ :: t :: ts => Term.freeLast (t :: ts)

end

theorem Term.freeAll_eq_flatMap (ts : List Term) : Term.freeAll ts = ts.flatMap Term.free := by
  induction ts with
  | nil => rfl
  | cons t ts ih => rw [Term.freeAll, List.flatMap_cons, ih]

theorem Term.namesAll_eq_flatMap (ts : List Term) : Term.namesAll ts = ts.flatMap Term.names := by
  induction ts with
  | nil => rfl
  | cons t ts ih => rw [Term.namesAll, List.flatMap_cons, ih]

theorem Term.namesAll_name (tokens : List Token) :
    Term.namesAll (tokens.map Term.name) = tokens.map Token.text := by
  induction tokens with
  | nil => rfl
  | cons t tokens ih => exact congrArg (t.text :: ·) ih

/-- The free names of a call that binds nothing. -/
theorem Term.free_call {t : Token} (ts : List Term) (span : Span)
    (h : ∀ form, Standard.form? t.text = some form →
      form ≠ .bindings ∧ form ≠ .lambda ∧ form ≠ .loop) :
    (Term.call (.name t) ts span).free = t.callee ++ Term.freeAll ts := by
  cases ts with
  | nil => rfl
  | cons first ts =>
    cases first with
    | list items sp =>
      rw [Term.free]
      split
      · exact absurd rfl (h _ ‹_›).1
      · exact absurd rfl (h _ ‹_›).2.1
      · exact absurd rfl (h _ ‹_›).2.2
      · rfl
    | _ => rfl

theorem Term.free_function {t : Token} (h : Standard.form? t.text = none) (ts : List Term)
    (span : Span) : (Term.call (.name t) ts span).free = t :: Term.freeAll ts := by
  rw [Term.free_call ts span fun form hform => ?_, Token.callee, h]
  · rfl
  · rw [h] at hform
    cases hform

theorem Term.freeLast_append (ts : List Term) (t : Term) : Term.freeLast (ts ++ [t]) = t.free := by
  induction ts with
  | nil => rfl
  | cons u us ih =>
    cases us with
    | nil => rfl
    | cons v vs => exact ih

/-! ### Terms in which scoping is lexical -/

/-- Names and lists of patterns; no name is a standard one. -/
inductive Term.Pattern : Term → Prop
  | name {t : Token} : Standard.find? t.text = none → Pattern (.name t)
  | list {ts : List Term} {span : Span} : (∀ t ∈ ts, Pattern t) → Pattern (.list ts span)

namespace Term.Pattern

/-- A pattern binds all its names. -/
theorem names_eq {t : Term} (h : t.Pattern) : t.names = t.free.map Token.text := by
  induction h with
  | name _ => rfl
  | list _ ih =>
    rw [Term.names, Term.free, Term.namesAll_eq_flatMap, Term.freeAll_eq_flatMap, List.map_flatMap]
    exact List.flatMap_congr ih

theorem find?_eq_none {t : Term} (h : t.Pattern) : ∀ x ∈ t.free, Standard.find? x.text = none := by
  induction h with
  | name ht =>
    intro x hx
    rw [List.mem_singleton.1 hx]
    exact ht
  | list _ ih =>
    intro x hx
    rw [Term.free, Term.freeAll_eq_flatMap, List.mem_flatMap] at hx
    obtain ⟨t, ht, hx⟩ := hx
    exact ih t ht x hx

end Term.Pattern

/-- How many arguments a form takes, of those that bind nothing. -/
def Form.takes : Form → Nat → Bool
  | block, _ => true
  | conditional, n => n == 2 || n == 3
  | negation, n => n == 1
  | operator _, n => 2 ≤ n
  | parity, n => 1 ≤ n
  | _, _ => false

/-- The free names of a form that binds nothing are those of its arguments. -/
theorem Term.free_form {t : Token} {form : Form} {ts : List Term}
    (h : Standard.form? t.text = some form) (htakes : form.takes ts.length = true) (span : Span) :
    (Term.call (.name t) ts span).free = Term.freeAll ts := by
  rw [Term.free_call ts span fun form' hform => ?_, Token.callee, h]
  · rfl
  · rw [h] at hform
    cases hform
    refine ⟨?_, ?_, ?_⟩ <;> rintro rfl <;> cases htakes

/-- Terms in which the text tells what is bound: no standard name is bound, and no special form is
used as a value or called with other arguments than it takes. -/
inductive Term.Lexical : Term → Prop
  | number (t : Token) : Lexical (.number t)
  | string (t : Token) : Lexical (.string t)
  | symbol (t : Token) : Lexical (.symbol t)
  | name {t : Token} : Standard.isValueless t.text = false → Lexical (.name t)
  | path {p : Path} : Standard.form? p.root.text = none → (∀ s ∈ p.segments, s.link = .field) →
      Lexical (.path p)
  | list {ts : List Term} {span : Span} : (∀ t ∈ ts, Lexical t) → Lexical (.list ts span)
  | table {ts : List Term} {escaped : Bool} {span : Span} : (∀ t ∈ ts, Lexical t) →
      Lexical (.table ts escaped span)
  | call {t : Token} {ts : List Term} {span : Span} : Standard.form? t.text = none →
      (∀ u ∈ ts, Lexical u) → Lexical (.call (.name t) ts span)
  | symbolCall (t : Token) {ts : List Term} {span : Span} : (∀ u ∈ ts, Lexical u) →
      Lexical (.call (.symbol t) ts span)
  | numberCall (t : Token) {ts : List Term} {span : Span} : (∀ u ∈ ts, Lexical u) →
      Lexical (.call (.number t) ts span)
  | form {t : Token} {form : Form} {ts : List Term} {span : Span} :
      Standard.form? t.text = some form → form.takes ts.length = true → (∀ u ∈ ts, Lexical u) →
      Lexical (.call (.name t) ts span)
  | bindings {t : Token} {pairs : List (Term × Term)} {ts : List Term} {inner span : Span} :
      Standard.form? t.text = some .bindings → (∀ b ∈ pairs, b.1.Pattern) →
      (∀ b ∈ pairs, Lexical b.2) → (∀ u ∈ ts, Lexical u) →
      Lexical (.call (.name t) (.list (pairs.flatMap fun b => [b.1, b.2]) inner :: ts) span)
  | lambda {t : Token} {formals tail : List Token} {ts : List Term} {inner span : Span} :
      Standard.form? t.text = some .lambda →
      (∀ x ∈ formals, x.text ≠ "&" ∧ Standard.find? x.text = none) →
      (tail = [] ∨ ∃ mark rest, tail = [mark, rest] ∧ mark.text = "&" ∧
        Standard.find? rest.text = none) →
      (∀ u ∈ ts, Lexical u) →
      Lexical (.call (.name t) (.list ((formals ++ tail).map .name) inner :: ts) span)
  | loop {t : Token} {names : List Token} {source : Term} {ts : List Term} {inner span : Span} :
      Standard.form? t.text = some .loop → names.length = 1 ∨ names.length = 2 →
      (∀ x ∈ names, Standard.find? x.text = none) → Lexical source → (∀ u ∈ ts, Lexical u) →
      Lexical (.call (.name t) (.list (names.map .name ++ [source]) inner :: ts) span)

/-! ### Sessions that know the standard names -/

namespace Session

/-- No standard name is hidden. -/
def KeepsStandard (s : Session) : Prop :=
  ∀ name, (Standard.find? name).isSome = true → s.scope.get? name = none

/-- Whether a name refers to nothing. -/
def lacks (s : Session) (t : Token) : Bool :=
  (s.find? t.text).isNone

/-- The session with values declared in the innermost block. -/
def withLocals (s : Session) (tokens : List Token) : Session :=
  tokens.foldl withLocal s

variable {s : Session}

theorem KeepsStandard.find?_eq (h : s.KeepsStandard) {name : String} {e : Standard.Entry}
    (he : Standard.find? name = some e) : s.find? name = some (.standard e) := by
  rw [find?, h name (by rw [he]; rfl), he]
  rfl

theorem KeepsStandard.lacks_eq (h : s.KeepsStandard) {t : Token}
    (ht : (Standard.find? t.text).isSome = true) : s.lacks t = false := by
  obtain ⟨e, he⟩ := Option.isSome_iff_exists.1 ht
  rw [lacks, h.find?_eq he]
  rfl

/-- A special form can only be a standard one. -/
theorem KeepsStandard.form?_eq (h : s.KeepsStandard) (c : Call) :
    s.form? c = c.name?.bind Standard.form? := by
  rw [form?, meaning?]
  cases c.name? with
  | none => rfl
  | some name =>
    show (s.find? name).bind Meaning.form? = Standard.form? name
    rw [find?, Standard.form?]
    cases hget : s.scope.get? name with
    | some b =>
      cases he : Standard.find? name with
      | none => rfl
      | some e =>
        rw [h name (by rw [he]; rfl)] at hget
        cases hget
    | none =>
      cases Standard.find? name with
      | none => rfl
      | some e => rfl

theorem KeepsStandard.enter (h : s.KeepsStandard) (pure? : Option Bool) :
    (s.enter pure?).KeepsStandard := by
  intro name hname
  rw [Session.enter, Layers.get?_enter]
  exact h name hname

theorem KeepsStandard.withLocal (h : s.KeepsStandard) {t : Token}
    (ht : Standard.find? t.text = none) : (s.withLocal t).KeepsStandard := by
  intro name hname
  have hne : name ≠ t.text := by
    rintro rfl
    rw [ht] at hname
    cases hname
  rw [Session.withLocal, Layers.get?_set_of_ne _ _ hne]
  exact h name hname

theorem lacks_enter (s : Session) (pure? : Option Bool) : (s.enter pure?).lacks = s.lacks := by
  funext t
  rw [lacks, lacks, find?, find?, Session.enter, Layers.get?_enter]

theorem lacks_withLocal (s : Session) (x t : Token) :
    (s.withLocal x).lacks t = (decide (t.text ≠ x.text) && s.lacks t) := by
  rw [lacks, lacks, find?, find?, withLocal]
  by_cases h : t.text = x.text
  · rw [h, Layers.get?_set_self]
    simp
  · rw [Layers.get?_set_of_ne _ _ h]
    simp [h]

theorem lacks_withLocals (s : Session) (tokens : List Token) (t : Token) :
    (s.withLocals tokens).lacks t = (decide (t.text ∉ tokens.map Token.text) && s.lacks t) := by
  induction tokens generalizing s with
  | nil => simp [withLocals]
  | cons x tokens ih =>
    rw [withLocals, List.foldl_cons, ← withLocals, ih, lacks_withLocal]
    by_cases h : t.text = x.text <;> simp [h]

/-- The first name that refers to nothing behind some local names is the first one of the others that
refers to nothing in front of them. -/
theorem find?_lacks_locals (s : Session) {tokens : List Token} {bound : List String}
    (hbound : tokens.map Token.text = bound) (names : List Token) :
    names.find? (s.withLocals tokens).lacks = (names.filter (·.text ∉ bound)).find? s.lacks := by
  subst hbound
  rw [List.find?_filter]
  congr 1
  funext t
  simp [lacks_withLocals]

theorem isPure_withLocal (s : Session) (t : Token) : (s.withLocal t).isPure = s.isPure := by
  obtain ⟨⟨root, inner⟩, package, moduleName, log⟩ := s
  cases inner <;> rfl

/-- Local names of a layer are gone behind it. -/
theorem leave_withLocals (s : Session) (pure? : Option Bool) (tokens : List Token) :
    ((s.enter pure?).withLocals tokens).leave = s := by
  suffices h : ∀ s₁ : Session, s₁.scope.inner ≠ [] → (s₁.withLocals tokens).leave = s₁.leave by
    exact h (s.enter pure?) (List.cons_ne_nil _ _)
  induction tokens with
  | nil => exact fun _ _ => rfl
  | cons x tokens ih =>
    rintro ⟨⟨root, inner⟩, package, moduleName, log⟩ hinner
    cases inner with
    | nil => exact absurd rfl hinner
    | cons layer outer => exact ih _ (List.cons_ne_nil _ _)

/-- What a lexical term relies on: no standard name is hidden, and effects are allowed. -/
structure Ready (s : Session) : Prop where
  standard : s.KeepsStandard
  impure : s.isPure = false

theorem Ready.enter (h : s.Ready) : (s.enter none).Ready :=
  ⟨h.standard.enter none, h.impure⟩

theorem Ready.withLocals (h : s.Ready) {tokens : List Token}
    (htokens : ∀ t ∈ tokens, Standard.find? t.text = none) : (s.withLocals tokens).Ready := by
  induction tokens generalizing s with
  | nil => exact h
  | cons t tokens ih =>
    obtain ⟨ht, htokens⟩ := List.forall_mem_cons.1 htokens
    exact ih ⟨h.standard.withLocal ht, (isPure_withLocal s t).trans h.impure⟩ htokens

end Session

end LispLua
