import LispLua.Proofs.Pairing.Term

/-!
# Unrelated bindings

What a term is lowered to depends only on the names in it, and on the few that sugar brings in. A
binding of any other name may be added, replaced or removed in any layer: the result is the same,
and so is the session behind it, but for that binding.

Layers are counted from the root, which has the number 0, so that the number of a layer does not
change when layers are opened and closed inside it.
-/

namespace LispLua

mutual

/-- The names in a term: plain ones and the roots of paths, in order. -/
def Term.names : Term → List String
  | .list items _ | .table items _ _ => Term.namesAll items
  | .call target args _ => target.names ++ Term.namesAll args
  | .path p => [p.root.text]
  | .name t => [t.text]
  | _ => []

/-- The names in some terms. -/
def Term.namesAll : List Term → List String
  | [] => []
  | t :: ts => t.names ++ Term.namesAll ts

end

theorem Term.not_mem_names_of_mem {name : String} {ts : List Term} (h : name ∉ Term.namesAll ts)
    {t : Term} (ht : t ∈ ts) : name ∉ t.names := by
  induction ts with
  | nil => cases ht
  | cons u us ih =>
    rw [Term.namesAll, List.mem_append, not_or] at h
    rcases List.mem_cons.1 ht with rfl | ht
    · exact h.1
    · exact ih h.2 ht

/-! ### Writing one binding -/

namespace Layers

variable {τ ν : Type}

/-- Write the entry of a key, or remove it. -/
def put (entries : List (String × ν)) (key : String) : Option ν → List (String × ν)
  | some value => (key, value) :: entries
  | none => entries.filter fun entry => entry.1 != key

/-- Write or remove the entry of a key in the layer with a given number. -/
def putInner (inner : List (Layer τ String ν)) (frame : Nat) (key : String) (value? : Option ν) :
    List (Layer τ String ν) :=
  match inner with
  | [] => []
  | layer :: outer =>
    if frame = outer.length + 1 then
      { layer with entries := put layer.entries key value? } :: outer
    else layer :: putInner outer frame key value?

theorem lookup_put_of_ne (entries : List (String × ν)) {key other : String} (value? : Option ν)
    (h : other ≠ key) : (put entries key value?).lookup other = entries.lookup other := by
  have hne : (other == key) = false := beq_eq_false_iff_ne.2 h
  cases value? with
  | some value => rw [put, List.lookup_cons, hne]
  | none =>
    induction entries with
    | nil => rfl
    | cons entry entries ih =>
      rw [put] at ih ⊢
      rw [List.filter_cons, List.lookup_cons]
      by_cases hkey : entry.1 = key
      · rw [hkey, bne_self_eq_false, if_neg (by decide), hne, ih]
      · rw [bne_iff_ne.2 hkey, if_pos rfl, List.lookup_cons, ih]

/-- Two rows of layers, the innermost first, with the same tags, and with the same values under all
keys but one in the layer with a given number. -/
inductive SameBut (frame : Nat) (key : String) :
    List (Layer τ String ν) → List (Layer τ String ν) → Prop
  | nil : SameBut frame key [] []
  | cons {layer layer' : Layer τ String ν} {outer outer' : List (Layer τ String ν)} :
      layer'.tag = layer.tag →
      (∀ k, ¬(frame = outer.length + 1 ∧ k = key) →
        layer'.entries.lookup k = layer.entries.lookup k) →
      SameBut frame key outer outer' → SameBut frame key (layer :: outer) (layer' :: outer')

namespace SameBut

variable {frame : Nat} {key : String} {inner inner' : List (Layer τ String ν)}

theorem refl (inner : List (Layer τ String ν)) : SameBut frame key inner inner := by
  induction inner with
  | nil => exact .nil
  | cons layer outer ih => exact .cons rfl (fun _ _ => rfl) ih

theorem tail (h : SameBut frame key inner inner') : SameBut frame key inner.tail inner'.tail := by
  cases h with
  | nil => exact .nil
  | cons _ _ h => exact h

theorem tag?_eq (h : SameBut frame key inner inner') :
    inner'.head?.map Layer.tag = inner.head?.map Layer.tag := by
  cases h with
  | nil => rfl
  | cons htag _ _ => exact congrArg some htag

theorem findSome?_eq (h : SameBut frame key inner inner') {k : String} (hk : k ≠ key) :
    (inner'.findSome? fun layer => layer.entries.lookup k) =
      inner.findSome? fun layer => layer.entries.lookup k := by
  induction h with
  | nil => rfl
  | cons _ hlookup _ ih =>
    rw [List.findSome?_cons, List.findSome?_cons, hlookup k fun h => hk h.2, ih]

theorem putInner (inner : List (Layer τ String ν)) (frame : Nat) (key : String)
    (value? : Option ν) : SameBut frame key inner (Layers.putInner inner frame key value?) := by
  induction inner with
  | nil => exact .nil
  | cons layer outer ih =>
    rw [Layers.putInner]
    by_cases hframe : frame = outer.length + 1
    · rw [if_pos hframe]
      refine .cons rfl (fun k hk => ?_) (refl outer)
      exact lookup_put_of_ne _ _ fun h => hk ⟨hframe, h⟩
    · rw [if_neg hframe]
      exact .cons rfl (fun _ _ => rfl) ih

end SameBut

end Layers

namespace Session

/-- Write the binding of a name in one layer, or remove it. Layers are counted from the root; where
there is none nothing happens. -/
def put (s : Session) (frame : Nat) (name : String) (b? : Option Binding) : Session :=
  match frame with
  | 0 => { s with scope.root := Layers.put s.scope.root name b? }
  | _ + 1 => { s with scope.inner := Layers.putInner s.scope.inner frame name b? }

/-- Two sessions differ at most in the binding of one name in one layer. -/
structure DifferAt (frame : Nat) (name : String) (s s' : Session) : Prop where
  root : ∀ k, ¬(frame = 0 ∧ k = name) → s'.scope.root.lookup k = s.scope.root.lookup k
  inner : Layers.SameBut frame name s.scope.inner s'.scope.inner
  package : s'.package = s.package
  moduleName : s'.moduleName = s.moduleName
  log : s'.log = s.log

/-- A session differs from the one before in the binding that is written or removed. -/
theorem differAt_put (s : Session) (frame : Nat) (name : String) (b? : Option Binding) :
    DifferAt frame name s (s.put frame name b?) := by
  cases frame with
  | zero =>
    refine ⟨fun k hk => ?_, .refl _, rfl, rfl, rfl⟩
    exact Layers.lookup_put_of_ne _ _ fun h => hk ⟨rfl, h⟩
  | succ frame => exact ⟨fun _ _ => rfl, .putInner _ _ _ _, rfl, rfl, rfl⟩

namespace DifferAt

variable {frame : Nat} {name : String} {s s' : Session}

theorem isPure_eq (h : DifferAt frame name s s') : s'.isPure = s.isPure := by
  rw [isPure, isPure, Layers.tag?, Layers.tag?, h.inner.tag?_eq]

theorem getRoot?_eq (h : DifferAt frame name s s') {k : String} (hk : k ≠ name) :
    s'.scope.getRoot? k = s.scope.getRoot? k :=
  h.root k fun hk' => hk hk'.2

theorem find?_eq (h : DifferAt frame name s s') {k : String} (hk : k ≠ name) :
    s'.find? k = s.find? k := by
  rw [find?, find?, Layers.get?, Layers.get?, h.inner.findSome?_eq hk, h.getRoot?_eq hk]

theorem enter (h : DifferAt frame name s s') (pure? : Option Bool) :
    DifferAt frame name (s.enter pure?) (s'.enter pure?) := by
  refine ⟨h.root, .cons ?_ (fun _ _ => rfl) h.inner, h.package, h.moduleName, h.log⟩
  rw [h.isPure_eq]

theorem leave (h : DifferAt frame name s s') : DifferAt frame name s.leave s'.leave :=
  ⟨h.root, h.inner.tail, h.package, h.moduleName, h.log⟩

theorem setRoot (h : DifferAt frame name s s') (key : String) (b : Binding) :
    DifferAt frame name { s with scope := s.scope.setRoot key b }
      { s' with scope := s'.scope.setRoot key b } := by
  refine ⟨fun k hk => ?_, h.inner, h.package, h.moduleName, h.log⟩
  simp only [Layers.setRoot, List.lookup_cons, h.root k hk]

theorem set (h : DifferAt frame name s s') (key : String) (b : Binding) :
    DifferAt frame name { s with scope := s.scope.set key b }
      { s' with scope := s'.scope.set key b } := by
  obtain ⟨⟨root, inner⟩, package, moduleName, log⟩ := s
  obtain ⟨⟨root', inner'⟩, package', moduleName', log'⟩ := s'
  obtain ⟨hroot, hinner, hpackage, hmodule, hlog⟩ := h
  cases hinner with
  | nil =>
    refine ⟨fun k hk => ?_, .nil, hpackage, hmodule, hlog⟩
    simp only [Layers.set, List.lookup_cons, hroot k hk]
  | cons htag hlookup houter =>
    refine ⟨hroot, .cons htag (fun k hk => ?_) houter, hpackage, hmodule, hlog⟩
    simp only [List.lookup_cons, hlookup k hk]

end DifferAt

end Session

namespace Gen

/-- From sessions that differ in a binding, a generation ends in the same way, and leaves sessions
that differ in that binding. -/
def Ignores {α : Type} (frame : Nat) (name : String) (g : Gen α) : Prop :=
  ∀ job s s', Session.DifferAt frame name s s' →
    (g.exec job s').1 = (g.exec job s).1 ∧
      Session.DifferAt frame name (g.exec job s).2 (g.exec job s').2

section

variable (frame : Nat) {name : String} (hname : name ∉ impliedNames)

/-- All names but one may be looked up, and the sessions differ in that one. -/
def weakeningPairing : Pairing where
  name k := k ≠ name
  cause _ := True
  span sp sp' := sp' = sp
  job j j' := j' = j
  session := Session.DifferAt frame name
  fault _ _ f f' := f' = f
  implied _ hk h := hname (h ▸ hk)
  ordinary _ := trivial
  options_eq := @Pairing.options_of_eq
  sourceName_eq := @Pairing.sourceName_of_eq
  find?_eq h hk := h.find?_eq hk
  getRoot?_eq h hk := h.getRoot?_eq hk
  isPure_eq h := h.isPure_eq
  package_eq h := h.package
  moduleName_eq h := h.moduleName
  session_enter pure? h := h.enter pure?
  session_leave h := h.leave
  session_set b h _ := h.set _ b
  session_setRoot b h _ := h.setRoot _ b
  session_rename _ _ h := ⟨h.root, h.inner, rfl, rfl, h.log⟩
  session_log event h := ⟨h.root, h.inner, h.package, h.moduleName, by simp only [h.log]⟩
  session_warn _ hj hsp h :=
    ⟨h.root, h.inner, h.package, h.moduleName, by simp only [h.log, hj, hsp]⟩
  fault_refuse _ hsp := by rw [hsp]
  fault_append _ h := h
  fault_layer _ h := h
  fault_call _ _ h := h

theorem hereditary_names :
    (weakeningPairing frame hname).Hereditary fun t => name ∉ t.names where
  span _ := rfl
  name h heq := h (List.mem_singleton.2 heq.symm)
  path h := by
    refine ⟨⟨⟨rfl, rfl⟩, fun heq => h (List.mem_singleton.2 heq.symm)⟩, ?_, rfl⟩
    exact List.forall₂_same.2 fun _ _ => ⟨rfl, rfl, rfl⟩
  items h _ := Term.not_mem_names_of_mem h
  entries h _ := Term.not_mem_names_of_mem h
  target h := fun hmem => h (List.mem_append_left _ hmem)
  args h _ := Term.not_mem_names_of_mem fun hmem => h (List.mem_append_right _ hmem)
  refusal _ _ _ := trivial

variable {frame} {α : Type} {g : Gen α}

theorem ignores_of_ends
    (h : ∀ job s s', Session.DifferAt frame name s s' →
      (weakeningPairing frame hname).Ends (fun f f' => f' = f) Eq (g.exec job s) (g.exec job s')) :
    Ignores frame name g := by
  intro job s s' hs
  have hends := h job s s' hs
  generalize g.exec job s = r at hends
  generalize g.exec job s' = r' at hends
  cases hends with
  | ok ha hs => exact ⟨congrArg Except.ok ha.symm, hs⟩
  | error hf hs => exact ⟨congrArg Except.error hf, hs⟩

theorem ignores_of_runs (h : (weakeningPairing frame hname).Runs Eq g g) : Ignores frame name g :=
  ignores_of_ends hname fun _ _ _ hs => h rfl hs

end

/-- Unrelated bindings do not matter. Where a name is neither in what is lowered nor one that sugar
brings in, any binding of it in any layer is passed over: the code or the fault is the same, and the
sessions behind differ in that binding at most. Writing or removing a binding makes such sessions. -/
theorem generation_ignores_unrelated_binding (frame : Nat) {name : String}
    (hname : name ∉ impliedNames) :
    (∀ s b?, Session.DifferAt frame name s (s.put frame name b?)) ∧
    (∀ t : Term, name ∉ t.names → Ignores frame name (term t) ∧ Ignores frame name (value t)) ∧
    (∀ c : Call, name ∉ c.term.names → Ignores frame name (call term c)) ∧
    (∀ ts : List Term, name ∉ Term.namesAll ts →
      Ignores frame name (body term ts) ∧ Ignores frame name (args term ts)) := by
  have hterms := hereditary_names frame hname
  have haccounts := (weakeningPairing frame hname).accounts_of_cause (fun _ => trivial) term
  have hlowers := Pairing.lowers_term haccounts
  refine ⟨fun s b? => s.differAt_put frame name b?, fun t ht => ?_, fun c hc => ?_, fun ts hts => ?_⟩
  · have hruns := Pairing.runs_term haccounts (hterms.terms ht)
    exact ⟨ignores_of_runs hname hruns, ignores_of_runs hname hruns.mapEq⟩
  · exact ignores_of_runs hname ((hlowers _).call haccounts (hterms.terms hc) rfl)
  · have hbelow := Pairing.forall₂_below
      (hterms.forall₂_terms fun _ => Term.not_mem_names_of_mem hts)
      fun _ hmem => Nat.lt_succ_of_le (Term.rank_le_rankMax hmem)
    refine ⟨ignores_of_runs hname ((hlowers _).body hbelow), ?_⟩
    refine ignores_of_ends hname fun job s s' hs => ?_
    refine ((hlowers _).args hbelow rfl hs).imp (fun f f' hf => ?_) fun _ _ => id
    cases hf with
    | inside hf => exact hf
    | unvalued _ hsp => rw [hsp]

/-- A binding of `y` in the layer around a `let`, inside of which sugar looks names up. -/
theorem generation_ignores_unrelated_binding_let :
    ∃ t : Term, t.render = "(let [x 1] (xor x (:k x)))" ∧ "y" ∉ impliedNames ∧ "y" ∉ t.names ∧
      ∀ job b?, ((value t).exec job ((Session.start.enter none).put 1 "y" b?)).1 =
        ((value t).exec job (Session.start.enter none)).1 := by
  let t := Term.named "let" .none [.list [.name ⟨"x", .none⟩, .number ⟨"1", .none⟩] .none,
    .named "xor" .none [.name ⟨"x", .none⟩, .call (.symbol ⟨"k", .none⟩) [.name ⟨"x", .none⟩] .none]]
  have hname : "y" ∉ impliedNames := by decide
  have ht : "y" ∉ t.names := by decide +kernel
  obtain ⟨hput, hterm, -⟩ := generation_ignores_unrelated_binding 1 hname
  exact ⟨t, by decide +kernel, hname, ht, fun job b? => ((hterm t ht).2 job _ _ (hput _ b?)).1⟩

end Gen

end LispLua
