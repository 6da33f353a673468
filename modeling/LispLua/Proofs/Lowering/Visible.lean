import LispLua.Proofs.Generation.Scoping
import LispLua.Proofs.Lowering.Literal

/-!
# Names in the rules of lowering

The rules leave the layers alone in the way a generation does, and what they make visible are names
that they emit. So a property of the emitted names of all visible locals goes through a lowering if
it holds of the names that are declared on the way.
-/

namespace LispLua

open Lua

variable {P : Term → Prop} {job : Job} {s s' : Session} {u : List Step}

namespace Session

theorem kept_withLocal (s : Session) (t : Token) : Kept s (s.withLocal t) :=
  .set s _ _

theorem kept_withExtern (hs : s.isPure = false) (kind : Kind) (everywhere : Bool) (t : Token) :
    Kept s (s.withExtern kind everywhere t) := by
  unfold withExtern
  split
  · exact .setRoot hs _ (by simp [Binding.declare])
  · exact .set s _ _

theorem kept_externs (hs : s.isPure = false) (kind : Kind) (everywhere : Bool)
    (tokens : List Token) : Kept s (tokens.foldl (withExtern · kind everywhere ·) s) := by
  induction tokens generalizing s with
  | nil => exact .refl s
  | cons t tokens ih =>
    have hfirst := kept_withExtern hs kind everywhere t
    exact hfirst.trans (ih (hfirst.isPure.trans hs))

theorem Binds.kept {names : List String} (h : s.Binds names s') : Kept s s' := by
  induction h with
  | nil => exact .refl _
  | cons t _ ih => exact (kept_withLocal _ t).trans ih

theorem Destructs.kept {value : Code} {bs : List Code} (h : s.Destructs value bs s') :
    Kept s s' := by
  induction h with
  | nil => exact .refl _
  | cons t _ _ ih => exact (kept_withLocal _ t).trans ih

end Session

open Session (Kept Sealed)

/-- What a fragment relies on: a named function is defined outside pure functions. -/
def Fragment.Outside (s : Session) : Fragment → Prop
  | .named _ _ _ _ _ => s.isPure = false
  | _ => True

/-- The rules leave the layers alone. -/
theorem Lowers.kept {f : Fragment} {cs : List Code} (h : Lowers P job f s cs u s') :
    f.Outside s → Kept s s' := by
  induction h with
  | path | nameForm | name | symbol | number | string | valuesNil | argsNil | keyQuoted | entriesNil
  | bodyNil | pairsNil | testsNil | armsNil | importNamed | clausesNil | arguments =>
    intro _
    exact .refl _
  | list _ _ ih | table _ _ ih | indexed _ _ _ ih | self _ _ _ ih | special _ _ _ ih
  | through _ _ _ _ _ _ ih | reached _ _ _ _ _ _ _ ih | argsForm _ _ _ _ ih | keyTerm _ ih
  | entriesLast _ _ _ ih | bodyLast _ _ _ ih | testsAny _ ih | importWhole _ ih
  | importModule _ ih | block _ ih | sugar _ _ ih | negation _ _ ih | operator _ _ ih =>
    intro _
    exact ih trivial
  | valuesCons _ _ ih ih' | argsCons _ _ ih ih' | bodyCons _ _ _ ih ih' | testsCons _ _ ih ih'
  | clausesCons _ _ _ ih ih' | matching _ _ _ _ ih ih' | attempt _ _ ih ih' =>
    intro _
    exact (ih trivial).trans (ih' trivial)
  | entriesCons _ _ _ ih ih' ih'' | armsList _ _ _ ih ih' ih'' | armsTerm _ _ _ _ ih ih' ih''
  | conditional _ _ _ _ ih ih' ih'' | matchingElse _ _ _ _ _ ih ih' ih'' =>
    intro _
    exact ((ih trivial).trans (ih' trivial)).trans (ih'' trivial)
  | pairsCons _ hdestructs _ _ ih ih' =>
    intro _
    exact ((ih trivial).trans hdestructs.kept).trans (ih' trivial)
  | importAs _ ih =>
    intro _
    exact (ih trivial).trans (Session.kept_withLocal _ _)
  | importMembers _ hbinds _ ih =>
    intro _
    exact (ih trivial).trans hbinds.kept
  | closureEmpty hbinds =>
    intro _
    exact hbinds.kept
  | closure hbinds _ _ ih =>
    intro _
    exact hbinds.kept.trans (ih trivial)
  | named hregister hlog _ ih =>
    intro hs
    have hkept := Session.kept_register hregister (.inr hs)
    refine hkept.trans (Kept.trans ?_ ((ih trivial).leave (.inr ?_)))
    · exact .of_scope_eq (by rw [hlog])
    · rw [hlog]
      exact hkept.isPure.trans hs
  | defineFunction _ hs _ ih | function _ hs _ ih =>
    intro _
    exact ih hs
  | defineValue _ hs _ hregister ih =>
    intro _
    have hvalue := ih trivial
    exact hvalue.trans (Session.kept_register hregister (.inr (hvalue.isPure.trans hs)))
  | declare hs _ _ heq =>
    intro _
    rw [heq]
    exact Session.kept_externs hs _ _ _
  | armsAny _ ih | nameModule _ _ ih =>
    intro _
    refine Kept.trans ?_ (ih trivial)
    exact .of_scope_eq rfl
  | bindings _ _ _ ih ih' =>
    intro _
    exact ((ih trivial).trans (ih' trivial)).leave (.inl rfl)
  | loopCount _ _ _ ih ih' | loopEach _ _ _ ih ih' =>
    intro _
    exact (((ih trivial).trans (Session.kept_withLocal _ _)).trans (ih' trivial)).leave (.inl rfl)
  | loopPairs _ _ _ ih ih' =>
    intro _
    refine Kept.leave (((ih trivial).trans ?_).trans (ih' trivial)) (.inl rfl)
    exact (Session.kept_withLocal _ _).trans (Session.kept_withLocal _ _)
  | lambda _ _ ih =>
    intro _
    exact (ih trivial).leave (.inl rfl)
  | handler _ _ ih =>
    intro _
    exact ((Session.kept_withLocal _ _).trans (ih trivial)).leave (.inl rfl)

/-- A form that binds names for its own parts seals them. -/
theorem Lowers.sealed {form : Form} {c : Call} {cs : List Code}
    (h : Lowers P job (.form form c) s cs u s') (hbinds : form.bindsInside = true) :
    Sealed s s' := by
  cases h with
  | bindings _ hpairs hbody => exact ((hpairs.kept trivial).trans (hbody.kept trivial)).sealed
  | loopCount _ hheader hbody | loopEach _ hheader hbody =>
    have hitem := (Session.kept_withLocal _ _).trans (hbody.kept trivial)
    exact ((hheader.kept trivial).trans hitem).sealed
  | loopPairs _ hheader hbody =>
    have hkey := (Session.kept_withLocal _ _).trans (hbody.kept trivial)
    have hitem := (Session.kept_withLocal _ _).trans hkey
    exact ((hheader.kept trivial).trans hitem).sealed
  | lambda _ hclosure => exact (hclosure.kept trivial).sealed
  | handler _ hbody =>
    exact ((Session.kept_withLocal _ _).trans (hbody.kept trivial)).sealed
  | sugar hexpands =>
    cases form with
    | bindings | loop | lambda | handler => cases hexpands
    | _ => cases hbinds
  | _ => cases hbinds

namespace Session

/-- A function that is not local to a block is declared outside blocks. -/
theorem reach_ne_block {hidden everywhere : Bool} (h : (hidden && !everywhere) = false) :
    (if everywhere then Reach.everywhere else if hidden then .block else .package) ≠ .block := by
  cases everywhere with
  | true => simp
  | false =>
    cases hidden with
    | true => cases h
    | false => simp

/-- What is not local to a block is referred to as a member of a table. -/
theorem reference_of_register {t : Token} {kind : Kind} {reach : Reach} {preserve : Bool}
    {b : Binding} (h : s.register t kind reach preserve = .ok (b, s')) (hreach : reach ≠ .block)
    (package : String) : ∃ owner key, b.reference package = .member owner key := by
  obtain ⟨rfl, -⟩ := register_cases h
  cases reach with
  | block => exact absurd rfl hreach
  | package => exact ⟨_, _, rfl⟩
  | everywhere => exact ⟨_, _, rfl⟩

/-- All visible names of a block have some property together with what they are emitted as. -/
def Shows (Q : String → String → Prop) (s : Session) : Prop :=
  ∀ name b, s.scope.get? name = some b → b.reach = .block → Q name b.emitted

theorem shows_start (Q : String → String → Prop) (job : Job) : (start.publish job).Shows Q := by
  intro name b h
  cases h

namespace Shows

variable {Q R : String → String → Prop}

theorem mono (h : s.Shows Q) (hQ : ∀ name text, Q name text → R name text) : s.Shows R :=
  fun name b hb hreach => hQ _ _ (h name b hb hreach)

theorem of_scope_eq (h : s.Shows Q) (heq : s'.scope = s.scope) : s'.Shows Q := by
  intro name b hb
  rw [heq] at hb
  exact h name b hb

theorem enter (h : s.Shows Q) (pure? : Option Bool) : (s.enter pure?).Shows Q := by
  intro name b hb
  rw [Session.enter, Layers.get?_enter] at hb
  exact h name b hb

/-- Across a layer of its own no name of a block becomes visible. -/
theorem of_sealed (h : s.Shows Q) (hsealed : Sealed s s') : s'.Shows Q := by
  intro name b hb hreach
  by_cases hbefore : s.find? name = some (.declared b)
  · exact h name b (find?_eq_declared_iff.1 hbefore) hreach
  · exact absurd ⟨find?_eq_declared_iff.2 hb, hreach, hbefore⟩ (hsealed.not_reveals name b)

theorem leave {pure? : Option Bool} (h : s.Shows Q) (hkept : Kept (s.enter pure?) s') :
    s'.leave.Shows Q :=
  h.of_sealed hkept.sealed

/-- A declaration makes only the declared name visible. -/
theorem register {t : Token} {kind : Kind} {reach : Reach} {preserve : Bool} {b : Binding}
    (h : s.Shows Q) (hregister : s.register t kind reach preserve = .ok (b, s'))
    (hb : reach = .block → Q t.text b.emitted) : s'.Shows Q := by
  intro name b' hb' hreach
  by_cases hbefore : s.find? name = some (.declared b')
  · exact h name b' (find?_eq_declared_iff.1 hbefore) hreach
  · have hreveals : Reveals s s' name b' := ⟨find?_eq_declared_iff.2 hb', hreach, hbefore⟩
    obtain ⟨rfl, rfl⟩ := reveals_register hregister hreveals
    obtain ⟨rfl, -⟩ := register_cases hregister
    exact hb hreach

theorem withLocal {t : Token} (h : s.Shows Q) (ht : Q t.text (mangle t.text)) :
    (s.withLocal t).Shows Q := by
  have hregister : s.register t .value .block false =
      .ok (.declare t.text .value .block false, s.withLocal t) := rfl
  exact h.register hregister fun _ => ht

theorem withExtern {t : Token} (h : s.Shows Q) (kind : Kind) (everywhere : Bool)
    (ht : Q t.text t.text) : (s.withExtern kind everywhere t).Shows Q := by
  cases everywhere with
  | true =>
    have hregister : s.register t kind .everywhere true =
        .ok (.declare t.text kind .everywhere true, s.withExtern kind true t) := rfl
    exact h.register hregister fun _ => ht
  | false =>
    have hregister : s.register t kind .block true =
        .ok (.declare t.text kind .block true, s.withExtern kind false t) := rfl
    exact h.register hregister fun _ => ht

theorem externs {tokens : List Token} (h : s.Shows Q) (kind : Kind) (everywhere : Bool)
    (ht : ∀ t ∈ tokens, Q t.text t.text) :
    (tokens.foldl (Session.withExtern · kind everywhere ·) s).Shows Q := by
  induction tokens generalizing s with
  | nil => exact h
  | cons t tokens ih =>
    obtain ⟨ht, htokens⟩ := List.forall_mem_cons.1 ht
    exact ih (h.withExtern kind everywhere ht) htokens

theorem binds {names : List String} (h : s.Shows Q) (hbinds : s.Binds names s')
    (hnames : ∀ name, mangle name ∈ names → Q name (mangle name)) : s'.Shows Q := by
  induction hbinds with
  | nil => exact h
  | cons t _ ih =>
    refine ih (h.withLocal (hnames t.text List.mem_cons_self)) fun name hname => ?_
    exact hnames name (List.mem_cons_of_mem _ hname)

/-- What a name refers to is a local with the property, a member of a table or a standard name. -/
theorem reference {C : Code → Prop} {name : String} {m : Meaning} (h : s.Shows Q)
    (hfind : s.find? name = some m) (hlocal : ∀ text, Q name text → C (.word text))
    (hmember : ∀ owner key, C (.member owner key))
    (hstandard : ∀ text, StartsPlain text → C (.word text)) (package : String) :
    C (m.reference package) := by
  cases m with
  | declared b =>
    have hb := h name b (find?_eq_declared_iff.1 hfind)
    cases hreach : b.reach with
    | block =>
      rw [Meaning.reference, Binding.reference, hreach]
      exact hlocal _ (hb hreach)
    | package =>
      rw [Meaning.reference, Binding.reference, hreach]
      exact hmember _ _
    | everywhere =>
      rw [Meaning.reference, Binding.reference, hreach]
      exact hmember _ _
  | standard e =>
    unfold find? at hfind
    split at hfind
    · cases hfind
    · obtain ⟨e', he, heq⟩ := Option.map_eq_some_iff.1 hfind
      cases heq
      exact hstandard _ (Standard.startsPlain_table e (Standard.mem_table_of_find? he)).1

end Shows

end Session

end LispLua
