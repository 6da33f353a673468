import LispLua.Proofs.Generation.Frame
import LispLua.Proofs.Lexical.Grammar
import LispLua.Proofs.Lowering.Literal

/-!
# What code is made from

The terms that a lowering can meet and the bindings that a session holds, as far as their texts get
into code: each is emitted as a word that closes what it opens, or within quotes or a comment that
it does not leave.
-/

namespace LispLua

open Lua

/-! ### Terms -/

mutual

/-- The segments of the access expressions in a term. -/
def Term.segments : Term → List Segment
  | .list items _ | .table items _ _ => segmentsAll items
  | .call target args _ => target.segments ++ segmentsAll args
  | .path p => p.segments
  | _ => []

/-- The segments of the access expressions in some terms. -/
def Term.segmentsAll : List Term → List Segment
  | [] => []
  | t :: ts => t.segments ++ segmentsAll ts

end

theorem Term.mem_segmentsAll {x : Segment} {t : Term} {ts : List Term} (hx : x ∈ t.segments)
    (ht : t ∈ ts) : x ∈ segmentsAll ts := by
  induction ts with
  | nil => cases ht
  | cons t' ts ih =>
    rw [segmentsAll, List.mem_append]
    rcases List.mem_cons.1 ht with rfl | ht
    · exact .inl hx
    · exact .inr (ih ht)

/-- The texts in a term can be emitted. -/
inductive Term.Emittable : Term → Prop
  | list {items : List Term} {span : Span} :
      (∀ t ∈ items, t.Emittable) → (Term.list items span).Emittable
  | table {items : List Term} {escaped : Bool} {span : Span} :
      (∀ t ∈ items, t.Emittable) → (Term.table items escaped span).Emittable
  | call {target : Term} {args : List Term} {span : Span} :
      target.Emittable → (∀ t ∈ args, t.Emittable) → (Term.call target args span).Emittable
  | path {p : Path} : (∀ x ∈ p.segments, isIdentifier x.name.text = true) → (Term.path p).Emittable
  | number {t : Token} : IsAtom t.text → (Term.number t).Emittable
  | string {t : Token} : IsAtom (Gen.stringText t.text) → (Term.string t).Emittable
  | symbol {t : Token} : t.text.toList.all isSubsequent = true → (Term.symbol t).Emittable
  | name {t : Token} : t.text.toList.all isSubsequent = true → (Term.name t).Emittable
  | wildcard {t : Token} : (Term.wildcard t).Emittable

namespace Term.Emittable

variable {target t : Term} {args : List Term} {span : Span}

theorem target_of_call (h : (Term.call target args span).Emittable) : target.Emittable := by
  cases h with
  | call htarget _ => exact htarget

theorem args_of_call (h : (Term.call target args span).Emittable) : ∀ t ∈ args, t.Emittable := by
  cases h with
  | call _ hargs => exact hargs

/-- The function and the key that a symbol or a number stands for as a target. -/
theorem indexer (h : t.Emittable) :
    t.indexer.1.toList.all isSubsequent = true ∧ t.indexer.2.Emittable := by
  have hgetters : ∀ getter ∈ ["list/get", "table/get"],
      getter.toList.all isSubsequent = true := by decide
  unfold Term.indexer
  split
  · split
    · exact ⟨hgetters _ (by simp), .number (.index ‹_›)⟩
    · exact ⟨hgetters _ (by simp), h⟩
  · exact ⟨hgetters _ (by simp), h⟩
  · exact ⟨hgetters _ (by simp), h⟩

theorem quotable {t : Token} (h : (Term.name t).Emittable) : Quotable t.text := by
  cases h with
  | name h => exact stays_of_isSubsequent (.inl rfl) h

end Term.Emittable

theorem hereditary_emittable : Term.Hereditary Term.Emittable where
  items h := by
    cases h with
    | list h => exact h
  cells h := by
    cases h with
    | table h => exact h
  args h := h.args_of_call
  list _ h := .list h
  named {name ts} _ hname h := by
    have hnames : ∀ name ∈ ["not", "and", "or"], name.toList.all isSubsequent = true := by decide
    exact .call (.name (hnames name hname)) h
  insert {c t} slot hc ht := by
    have hargs := hc.args_of_call
    cases slot with
    | first => exact .call hc.target_of_call (List.forall_mem_cons.2 ⟨ht, hargs⟩)
    | last =>
      exact .call hc.target_of_call
        (List.forall_mem_append.2 ⟨hargs, List.forall_mem_singleton.2 ht⟩)
  indexed hc := by
    obtain ⟨hgetter, hkey⟩ := hc.target_of_call.indexer
    exact .call (.name hgetter) (List.forall_mem_cons.2 ⟨hkey, hc.args_of_call⟩)

/-- The arguments of a clause of a module, which is written as a list or as a call. -/
theorem Term.Emittable.of_clause {clause : Term} {t : Token} {ts : List Term} {span : Span}
    (h : clause.Emittable)
    (hclause : clause = .list (.symbol t :: ts) span ∨ clause = .call (.symbol t) ts span) :
    ∀ t ∈ ts, t.Emittable := by
  rcases hclause with rfl | rfl
  · exact (List.forall_mem_cons.1 (hereditary_emittable.items h)).2
  · exact h.args_of_call

/-- A term that can be written down can be emitted if the names behind its access operators can. -/
theorem Term.WellFormed.emittable {t : Term} (h : t.WellFormed) :
    (∀ x ∈ t.segments, isIdentifier x.name.text = true) → t.Emittable := by
  induction h with
  | list _ ih =>
    intro hsegments
    exact .list fun t ht => ih t ht fun x hx => hsegments x (mem_segmentsAll hx ht)
  | table _ ih =>
    intro hsegments
    exact .table fun t ht => ih t ht fun x hx => hsegments x (mem_segmentsAll hx ht)
  | call _ _ _ ih ih' =>
    intro hsegments
    obtain ⟨htarget, hargs⟩ := List.forall_mem_append.1 hsegments
    exact .call (ih htarget) fun t ht => ih' t ht fun x hx => hargs x (mem_segmentsAll hx ht)
  | path _ => exact .path
  | number h => exact fun _ => .number (.numeral h)
  | string h => exact fun _ => .string (isAtom_stringText h)
  | symbol _ h => exact fun _ => .symbol (List.all_eq_true.2 h)
  | name h => exact fun _ => .name (List.all_eq_true.2 h.1.isSubsequent)
  | wildcard _ => exact fun _ => .wildcard

theorem emittable_of_parse {source : String} {p : Program} (h : parse source = .ok p)
    (hsegments : ∀ c ∈ p, ∀ x ∈ c.term.segments, isIdentifier x.name.text = true) :
    ∀ c ∈ p, c.term.Emittable :=
  fun c hc => (wellFormed_of_parse h c hc).emittable (hsegments c hc)

/-! ### Bindings -/

/-- A property holds of all values in a store. -/
def Layers.All {τ κ ν : Type} (Q : ν → Prop) (l : Layers τ κ ν) : Prop :=
  (∀ e ∈ l.root, Q e.2) ∧ ∀ layer ∈ l.inner, ∀ e ∈ layer.entries, Q e.2

namespace Layers.All

variable {τ κ ν : Type} {Q : ν → Prop} {l : Layers τ κ ν}

theorem enter (h : l.All Q) (tag : τ) : (l.enter tag).All Q :=
  ⟨h.1, List.forall_mem_cons.2 ⟨by simp, h.2⟩⟩

theorem leave (h : l.All Q) : l.leave.All Q :=
  ⟨h.1, fun layer hlayer => h.2 layer (List.mem_of_mem_tail hlayer)⟩

theorem setRoot (h : l.All Q) (key : κ) {value : ν} (hvalue : Q value) :
    (l.setRoot key value).All Q :=
  ⟨List.forall_mem_cons.2 ⟨hvalue, h.1⟩, h.2⟩

theorem set (h : l.All Q) (key : κ) {value : ν} (hvalue : Q value) : (l.set key value).All Q := by
  obtain ⟨root, inner⟩ := l
  cases inner with
  | nil => exact h.setRoot key hvalue
  | cons layer outer =>
    obtain ⟨hlayer, houter⟩ := List.forall_mem_cons.1 h.2
    exact ⟨h.1, List.forall_mem_cons.2 ⟨List.forall_mem_cons.2 ⟨hvalue, hlayer⟩, houter⟩⟩

theorem of_lookup [BEq κ] [LawfulBEq κ] {entries : List (κ × ν)} {key : κ} {value : ν}
    (hentries : ∀ e ∈ entries, Q e.2) (h : entries.lookup key = some value) : Q value := by
  obtain ⟨front, back, rfl, -⟩ := List.lookup_eq_some_iff.1 h
  exact hentries (key, value) (by simp)

theorem of_get? [BEq κ] [LawfulBEq κ] (h : l.All Q) {key : κ} {value : ν}
    (hget : l.get? key = some value) : Q value := by
  rw [get?, Option.orElse_eq_orElse, Option.orElse_eq_or, Option.or_eq_some_iff] at hget
  rcases hget with hinner | ⟨-, hroot⟩
  · obtain ⟨layer, hlayer, hlookup⟩ := List.exists_of_findSome?_eq_some hinner
    exact of_lookup (h.2 layer hlayer) hlookup
  · exact of_lookup h.1 hroot

end Layers.All

/-- The reference to a binding is a word that closes what it opens, or a member under a key that
does not leave its quotes. -/
def Binding.Clean (b : Binding) : Prop :=
  match b.reach with
  | .block => isIdentifier b.emitted = true
  | .package => Quotable b.surface
  | .everywhere => Quotable b.emitted

theorem Binding.Clean.formed_reference {b : Binding} (h : b.Clean) {package : String}
    (hpackage : IsTable package) : Formed .value (b.reference package) := by
  unfold Clean at h
  unfold reference
  cases hreach : b.reach with
  | block =>
    rw [hreach] at h
    exact .word (.name h)
  | package =>
    rw [hreach] at h
    exact .member hpackage h
  | everywhere =>
    rw [hreach] at h
    exact .member (.name rfl) h

/-- A function is declared under its own name everywhere, or else as a local name or as a member. -/
theorem Binding.clean_function {t : Token} (ht : (Term.name t).Emittable) (kind : Kind)
    (hidden everywhere : Bool) :
    (Binding.declare t.text kind
      (if everywhere then .everywhere else if hidden then .block else .package)
      everywhere).Clean := by
  cases everywhere with
  | true => exact ht.quotable
  | false =>
    cases hidden with
    | true => exact isIdentifier_mangle t.text
    | false => exact ht.quotable

namespace Standard

/-- The standard names are emitted as names of Lua or of tables of Lua. -/
theorem isReference_table : ∀ e ∈ table, ((Meaning.standard e).isForm = false →
    isReference e.emitted = true) ∧ ∀ f ∈ (Meaning.standard e).function?, isReference f = true := by
  decide +kernel

end Standard

namespace Session

/-- All that is declared, and the package table, can be referred to. -/
structure Clean (s : Session) : Prop where
  scope : s.scope.All Binding.Clean
  package : IsTable s.package

namespace Clean

variable {s s' : Session}

theorem start : Session.start.Clean :=
  ⟨⟨by simp [Session.start, Layers.empty], by simp [Session.start, Layers.empty]⟩, .name rfl⟩

theorem publish {job : Job} (h : s.Clean)
    (hmodule : job.options.publish = true → Quotable job.fallbackModule) :
    (s.publish job).Clean := by
  refine ⟨h.scope, ?_⟩
  unfold Session.publish
  split
  · rename_i hpublish
    exact .published (hmodule hpublish)
  · exact h.package

theorem withLog (h : s.Clean) (events : List Event) : { s with log := events }.Clean :=
  ⟨h.scope, h.package⟩

theorem enter (h : s.Clean) (pure? : Option Bool) : (s.enter pure?).Clean :=
  ⟨h.scope.enter _, h.package⟩

theorem leave (h : s.Clean) : s.leave.Clean :=
  ⟨h.scope.leave, h.package⟩

theorem withLocal (h : s.Clean) (t : Token) : (s.withLocal t).Clean :=
  ⟨h.scope.set _ (isIdentifier_mangle t.text), h.package⟩

theorem binds {names : List String} (h : s.Clean) (hbinds : s.Binds names s') : s'.Clean := by
  induction hbinds with
  | nil => exact h
  | cons t _ ih => exact ih (h.withLocal t)

theorem destructs {value : Code} {bs : List Code} (h : s.Clean)
    (hdestructs : s.Destructs value bs s') : s'.Clean := by
  induction hdestructs with
  | nil => exact h
  | cons t _ _ ih => exact ih (h.withLocal t)

theorem register {t : Token} {kind : Kind} {reach : Reach} {preserve : Bool} {b : Binding}
    (h : s.Clean) (hregister : s.register t kind reach preserve = .ok (b, s')) (hb : b.Clean) :
    s'.Clean := by
  obtain ⟨-, ⟨-, rfl⟩ | ⟨-, rfl⟩⟩ := register_cases hregister
  · exact ⟨h.scope.set _ hb, h.package⟩
  · exact ⟨h.scope.setRoot _ hb, h.package⟩

theorem withExtern {t : Token} (h : s.Clean) (kind : Kind) (everywhere : Bool)
    (ht : (Term.name t).Emittable) (hname : isIdentifier t.text = true) :
    (s.withExtern kind everywhere t).Clean := by
  cases everywhere with
  | true => exact ⟨h.scope.setRoot _ ht.quotable, h.package⟩
  | false => exact ⟨h.scope.set _ hname, h.package⟩

theorem externs {tokens : List Token} (h : s.Clean) (kind : Kind) (everywhere : Bool)
    (ht : ∀ t ∈ tokens, (Term.name t).Emittable ∧ isIdentifier t.text = true) :
    (tokens.foldl (Session.withExtern · kind everywhere ·) s).Clean := by
  induction tokens generalizing s with
  | nil => exact h
  | cons t tokens ih =>
    obtain ⟨ht, htokens⟩ := List.forall_mem_cons.1 ht
    exact ih (h.withExtern kind everywhere ht.1 ht.2) htokens

theorem nameModule {name : String} (h : s.Clean) (options : Options) (hname : Quotable name) :
    (s.nameModule options name).Clean := by
  refine ⟨h.scope, ?_⟩
  unfold Session.nameModule
  cases options.publish with
  | true => exact .published hname
  | false => exact h.package

/-- What a name refers to is referred to by a value. -/
theorem formed_reference {name package : String} {m : Meaning} (h : s.Clean)
    (hfind : s.find? name = some m) (hform : m.isForm = false) (hpackage : IsTable package) :
    Formed .value (m.reference package) := by
  unfold find? at hfind
  split at hfind
  · rename_i b hb
    cases hfind
    exact (h.scope.of_get? hb).formed_reference hpackage
  · obtain ⟨e, he, rfl⟩ := Option.map_eq_some_iff.1 hfind
    have hentry := Standard.isReference_table e (Standard.mem_table_of_find? he)
    have hplain := Standard.startsPlain_table e (Standard.mem_table_of_find? he)
    exact .word (.reference (hentry.1 hform) hplain.1.2)

/-- So is the function that stands for a special form. -/
theorem formed_function {name f : String} {m : Meaning} (hfind : s.find? name = some m)
    (hf : m.function? = some f) : Formed .value (.word f) := by
  unfold find? at hfind
  split at hfind
  · cases hfind
    cases hf
  · obtain ⟨e, he, rfl⟩ := Option.map_eq_some_iff.1 hfind
    have hentry := Standard.isReference_table e (Standard.mem_table_of_find? he)
    have hplain := Standard.startsPlain_table e (Standard.mem_table_of_find? he)
    exact .word (.reference (hentry.2 f hf) (hplain.2 f hf).2)

end Clean

theorem Binds.isIdentifier {s s' : Session} {names : List String} (h : s.Binds names s') :
    ∀ name ∈ names, Lua.isIdentifier name = true := by
  induction h with
  | nil => simp
  | cons t _ ih => exact List.forall_mem_cons.2 ⟨isIdentifier_mangle t.text, ih⟩

end Session

end LispLua
