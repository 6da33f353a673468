import LispLua.Proofs.Lowering.Sound
import LispLua.Proofs.Operators.Meaning

/-!
# Names in rewrites

Some terms are lowered by way of names that they do not contain: exclusive or by way of `and`, `or`
and `not`, the call of a symbol or a number by way of a function that looks it up, and a table with
a key too many by way of `unit`. And a loop is counted if what it runs over is written as a range.
This module says what these names refer to, whatever a program has declared before.

Rewrites are not hygienic. The names that they bring in are looked up where they come to stand, as
names of the program are, and the name of a range is not looked up at all. So each statement here
has two sides: what happens where a name has its standard meaning, and where it is declared.
-/

namespace LispLua

open Lua

namespace Session

variable {s : Session} {name : String}

/-- A name has its standard meaning. -/
def HasStandard (s : Session) (name : String) : Prop :=
  s.find? name = (Standard.find? name).map .standard

theorem hasStandard_iff : s.HasStandard name ↔ s.scope.get? name = none := by
  rw [HasStandard, find?]
  cases s.scope.get? name with
  | none => simp
  | some b => cases Standard.find? name <;> simp

theorem exists_of_not_hasStandard (h : ¬ s.HasStandard name) : ∃ b, s.scope.get? name = some b :=
  Option.ne_none_iff_exists'.1 (mt hasStandard_iff.2 h)

theorem find?_of_get? {b : Binding} (h : s.scope.get? name = some b) :
    s.find? name = some (.declared b) := by
  rw [find?, h]

/-- A name with its standard meaning stands for the form that it is in the standard table. -/
theorem form?_of_hasStandard (h : s.HasStandard name) (head span : Span) (args : List Term) :
    s.form? ⟨.name ⟨name, head⟩, args, span⟩ =
      ((Standard.find? name).map Meaning.standard).bind Meaning.form? := by
  rw [form?, meaning?_of_target rfl, h]

/-- Code refers to a name as the scope has it: to what the name is declared as, or else to the
standard. -/
structure Refers (s : Session) (name standard package : String) (code : Code) : Prop where
  declared (b : Binding) : s.scope.get? name = some b → code = b.reference package
  standard : s.HasStandard name → code = .word standard

theorem refers_reference {m : Meaning} {standard package : String} {role : Standard.Role}
    (hstandard : Standard.find? name = some ⟨name, standard, role⟩) (hm : s.find? name = some m) :
    s.Refers name standard package (m.reference package) where
  declared b hb := by
    cases hm.symm.trans (find?_of_get? hb)
    rfl
  standard h := by
    rw [h, hstandard] at hm
    cases hm
    rfl

end Session

/-- Whether a term is written as a range with two or three bounds. -/
def Term.isRange : Term → Bool
  | .call (.name t) bounds _ => t.text == "range" && (bounds.length == 2 || bounds.length == 3)
  | _ => false

namespace Gen

variable {job : Job} {s s' : Session} {code : Code}

/-! ### Calls through names -/

theorem term_call (c : Call) : term c.term = inCall c (dispatch term c) :=
  term_eq_step c.term

/-- A call through a name that is no special form. -/
theorem call_of_find? {t : Token} {m : Meaning} {ts : List Term} {span : Span}
    (hm : s.find? t.text = some m) (hform : m.form? = none)
    (h : (value (.call (.name t) ts span)).exec job s = (.ok code, s')) :
    ∃ as, (args term ts).exec job s = (.ok as, s') ∧ code = .call (m.reference s'.package) as := by
  obtain ⟨stmt, hstmt, rfl⟩ := gives_map.1 (gives_iff.2 ⟨h, rfl⟩)
  have hcall := term_call ⟨.name t, ts, span⟩
  obtain ⟨v, hdispatch, -⟩ := gives_inCall.1 (hcall ▸ hstmt)
  obtain ⟨m', _, s₁, _, hresolve, hk, -⟩ := gives_bind.1 hdispatch
  obtain ⟨hm', rfl, rfl⟩ := gives_resolve.1 hresolve
  cases hm.symm.trans hm'
  obtain ⟨_, _, s₂, _, hpermit, hk', -⟩ := gives_bind.1 hk
  obtain ⟨rfl, rfl⟩ := quiet_permit hpermit
  rw [through, hform] at hk'
  obtain ⟨as, _, s₁, _, has, hcall, -⟩ := gives_bind.1 (gives_plain hk')
  obtain ⟨callee, hcallee, hcode⟩ := gives_map.1 hcall
  obtain ⟨rfl, -, rfl⟩ := gives_reference.1 hcallee
  exact ⟨as, (gives_iff.1 has).1, hcode⟩

/-- A call through a declared name is lowered to a call, so what is lowered to anything else goes
through a name with its standard meaning. -/
theorem hasStandard_of_not_call {t : Token} {ts : List Term} {span : Span}
    (h : (value (.call (.name t) ts span)).exec job s = (.ok code, s'))
    (hcode : ∀ callee as, code ≠ .call callee as) : s.HasStandard t.text := by
  by_contra hdeclared
  obtain ⟨b, hb⟩ := Session.exists_of_not_hasStandard hdeclared
  obtain ⟨as, -, hcall⟩ := call_of_find? (Session.find?_of_get? hb) rfl h
  exact hcode _ _ hcall

/-! ### Symbols and numbers as functions -/

theorem exec_value_indexed {c : Call} {t : Token}
    (ht : c.target = .symbol t ∨ c.target = .number t) :
    (value c.term).exec job s = (value c.indexed.term).exec job s := by
  have hdispatch : dispatch term c = term c.indexed.term := by
    rw [dispatch]
    rcases ht with ht | ht <;> rw [ht]
  rw [value, value, exec_eval, exec_eval, term_call, exec_inCall, hdispatch]

/-- The function that looks something up, as it is emitted. -/
def getterText (getter : String) : String :=
  if getter = "list/get" then "charon.list_get" else "charon.table_get"

theorem find?_indexer (t : Term) :
    Standard.find? t.indexer.1 =
      some ⟨t.indexer.1, getterText t.indexer.1, .plain .function⟩ := by
  cases t with
  | symbol t =>
    rw [Term.indexer]
    split <;> rfl
  | _ => rfl

/-- A name that is no special form in the standard table refers to none in any session. -/
theorem exists_plain {name emitted : String} {kind : Kind} (s : Session)
    (hstandard : Standard.find? name = some ⟨name, emitted, .plain kind⟩) :
    ∃ m, s.find? name = some m ∧ m.form? = none := by
  cases hb : s.scope.get? name with
  | some b => exact ⟨.declared b, Session.find?_of_get? hb, rfl⟩
  | none =>
    rw [Session.hasStandard_iff.2 hb, hstandard]
    exact ⟨_, rfl, rfl⟩

/-- A symbol or a number is called by way of a function, which is looked up in front of the
arguments. -/
theorem indexed_follows_scope {c : Call} {t : Token}
    (ht : c.target = .symbol t ∨ c.target = .number t)
    (h : (value c.term).exec job s = (.ok code, s')) :
    ∃ callee as, code = .call callee as ∧ (args term c.indexed.args).exec job s = (.ok as, s') ∧
      s.Refers c.target.indexer.1 (getterText c.target.indexer.1) s'.package callee := by
  rw [exec_value_indexed ht] at h
  have hstandard := find?_indexer c.target
  obtain ⟨m, hm, hform⟩ := exists_plain s hstandard
  obtain ⟨as, has, rfl⟩ := call_of_find? hm hform h
  exact ⟨_, as, rfl, has, Session.refers_reference hstandard hm⟩

/-! ### Tables with a key too many -/

theorem unit_follows_scope {span : Span} {u : List Step}
    (h : (nameValue ⟨"unit", span⟩).Gives job s code u s') :
    s'.Refers "unit" "charon.Unit" s'.package code := by
  obtain ⟨m, hm, -, rfl, ⟨hform, -⟩ | ⟨-, rfl⟩⟩ := gives_nameValue h
  · rw [isForm_unit hm] at hform
    cases hform
  · have hstandard : Standard.find? "unit" = some ⟨"unit", "charon.Unit", .plain .value⟩ := rfl
    exact Session.refers_reference hstandard hm

/-- The value that is missing is looked up behind all others. -/
theorem entries_follow_scope {escaped : Bool} {k : Term} : ∀ {ts : List Term} {s : Session}
    {es : List Code} {u : List Step}, ts.length % 2 = 0 →
      (entries term escaped (ts ++ [k])).Gives job s es u s' →
        ∃ front key unit, es = front ++ [.entry key unit] ∧
          s'.Refers "unit" "charon.Unit" s'.package unit
  | [], _, _, _, _, h => by
    obtain ⟨key, _, _, _, -, hk, -⟩ := gives_bind.1 h
    obtain ⟨unit, hunit, rfl⟩ := gives_map.1 hk
    exact ⟨[], key, unit, rfl, unit_follows_scope hunit⟩
  | [_], _, _, _, heven, _ => by
    cases heven
  | key :: value :: rest, _, _, _, heven, h => by
    obtain ⟨key', _, _, _, -, hk, -⟩ := gives_bind.1 h
    obtain ⟨value', _, _, _, -, hk', -⟩ := gives_bind.1 hk
    obtain ⟨es, hes, rfl⟩ := gives_map.1 hk'
    obtain ⟨front, last, unit, rfl, hunit⟩ :=
      entries_follow_scope ((Nat.add_mod_right rest.length 2).symm.trans heven) hes
    exact ⟨.entry key' value' :: front, last, unit, rfl, hunit⟩

theorem table_follows_scope {escaped : Bool} {ts : List Term} {k : Term} {span : Span}
    (heven : ts.length % 2 = 0)
    (h : (value (.table (ts ++ [k]) escaped span)).exec job s = (.ok code, s')) :
    ∃ front key unit,
      code = (if escaped then Code.record else Code.table) (front ++ [.entry key unit]) ∧
      s'.Refers "unit" "charon.Unit" s'.package unit := by
  rw [exec_value_plain (congrArg (exec · job s) (term_eq_step _))] at h
  obtain ⟨es, hes, rfl⟩ := gives_map.1 (gives_iff.2 ⟨h, rfl⟩)
  obtain ⟨front, key, unit, rfl, hunit⟩ := entries_follow_scope heven hes
  refine ⟨front, key, unit, ?_, hunit⟩
  cases escaped <;> rfl

/-! ### Loops -/

theorem isLeft_loopSource {source : Term} {x : List Code ⊕ Code} {u : List Step}
    (h : (loopSource term source).Gives job s x u s') : x.isLeft = source.isRange := by
  unfold loopSource at h
  split at h
  · rw [Term.isRange]
    split at h
    · rename_i hrange
      obtain ⟨bs, -, rfl⟩ := gives_map.1 h
      rw [hrange]
      rfl
    · rename_i hrange
      obtain ⟨c, -, rfl⟩ := gives_map.1 h
      rw [Bool.not_eq_true] at hrange
      rw [hrange]
      rfl
  · obtain ⟨c, -, rfl⟩ := gives_map.1 h
    rw [Term.isRange]
    · rfl
    · assumption

/-- A loop is counted if what it runs over is written as a range, whatever that name means. -/
theorem counts_iff_isRange {c : Call} {item source : Term} {span : Span} {ts : List Term}
    (hform : s.form? c = some .loop) (hargs : c.args = .list [item, source] span :: ts)
    (h : (value c.term).exec job s = (.ok code, s')) :
    (∃ name bounds terms, code = .thunk job.options.variadic (.count name bounds terms)) ↔
      source.isRange = true := by
  rw [exec_value_form hform rfl] at h
  obtain ⟨_, s₁, hloop, -, rfl⟩ := gives_inLayer.1 (gives_iff.2 ⟨h, rfl⟩)
  rw [loop, hargs] at hloop
  obtain ⟨token, _, _, _, -, hk, -⟩ := gives_bind.1 hloop
  obtain ⟨x, _, _, _, hx, hk, -⟩ := gives_bind.1 hk
  obtain ⟨name, _, _, _, -, hk, -⟩ := gives_bind.1 hk
  obtain ⟨terms, _, _, _, -, hk, -⟩ := gives_bind.1 hk
  rw [← isLeft_loopSource hx]
  cases x with
  | inl bounds =>
    obtain ⟨rfl, -, -⟩ := gives_thunk.1 hk
    simp
  | inr source =>
    obtain ⟨rfl, -, -⟩ := gives_thunk.1 hk
    simp

/-! ### Exclusive or -/

/-- The names that exclusive or brings in. -/
def connectives : List String :=
  ["and", "or", "not"]

/-- Lowering a term leaves names with their standard meaning. -/
def KeepsStandard (job : Job) (names : List String) (t : Term) : Prop :=
  ∀ (s s' : Session) (code : Code), (∀ n ∈ names, s.HasStandard n) →
    (value t).exec job s = (.ok code, s') → ∀ n ∈ names, s'.HasStandard n

/-- The shape of an exclusive or of two terms, each of which is lowered twice. -/
def exclusiveCode (a b a' b' : Code) : Code :=
  .chain " or " [.chain " and " [.negate a, operand b], .chain " and " [operand a', .negate b']]

/-- The code of an exclusive or by the operators of Lua. The terms in front of the last are lowered
in front of it, and once more behind it. -/
inductive Exclusive (job : Job) : List Term → Session → Code → Session → Prop
  | single {t : Term} {a : Code} {s s' : Session} : (value t).exec job s = (.ok a, s') →
      Exclusive job [t] s a s'
  | snoc {ts : List Term} {t : Term} {a b a' b' : Code} {s s₁ s₂ s₃ s' : Session} :
      Exclusive job ts s a s₁ → (value t).exec job s₁ = (.ok b, s₂) →
      Exclusive job ts s₂ a' s₃ → (value t).exec job s₃ = (.ok b', s') →
      Exclusive job (ts ++ [t]) s (exclusiveCode a b a' b') s'

theorem operand_negate (c : Code) : operand (.negate c) = .negate c := by
  have hhead : (Code.negate c).render.toList.head? ≠ some '-' := by
    show ("(not " ++ c.render ++ ")").toList.head? ≠ _
    simp
  rw [operand, if_neg hhead]

theorem operand_chain (op : String) (cs : List Code) : operand (.chain op cs) = .chain op cs := by
  have hhead : (Code.chain op cs).render.toList.head? ≠ some '-' := by
    show ("(" ++ String.intercalate op (renderAll cs) ++ ")").toList.head? ≠ _
    simp
  rw [operand, if_neg hhead]

/-- Only parentheses are put around an operand. -/
theorem eq_of_operand_eq {c d : Code} (hd : ∀ e, d ≠ .paren e) (h : operand c = d) : c = d := by
  unfold operand at h
  split at h
  · exact absurd h.symm (hd c)
  · exact h

theorem exec_value_binary {name : String} (op : Operator) {span : Span} {x y : Term}
    (hop : ((Standard.find? name).map Meaning.standard).bind Meaning.form? = some (.operator op))
    (hname : s.HasStandard name)
    (h : (value (.named name span [x, y])).exec job s = (.ok code, s')) :
    ∃ a s₁ b, (value x).exec job s = (.ok a, s₁) ∧ (value y).exec job s₁ = (.ok b, s') ∧
      code = combine op job.options.target [operand a, operand b] := by
  have hform := (Session.form?_of_hasStandard hname span span [x, y]).trans hop
  replace h := (exec_value_form hform rfl).symm.trans h
  obtain ⟨-, hoperator⟩ := gives_guard.1 (gives_iff.2 ⟨h, rfl⟩)
  obtain ⟨operands, _, _, _, hoperands, hk, -⟩ := gives_bind.1 hoperator
  obtain ⟨cs, hcs, rfl⟩ := gives_operands hoperands
  obtain ⟨a, _, s₁, _, _, ha, htail, rfl, -⟩ := gives_mapM_cons.1 hcs
  obtain ⟨b, _, s₂, _, _, hb, hnil, rfl, -⟩ := gives_mapM_cons.1 htail
  obtain ⟨rfl, -, rfl⟩ := gives_mapM_nil.1 hnil
  obtain ⟨_, hread, rfl⟩ := gives_map.1 hk
  obtain ⟨rfl, -, rfl⟩ := gives_read.1 hread
  exact ⟨a, s₁, b, (gives_iff.1 ha).1, (gives_iff.1 hb).1, rfl⟩

theorem exec_value_not {span : Span} {x : Term} (hname : s.HasStandard "not")
    (h : (value (.named "not" span [x])).exec job s = (.ok code, s')) :
    ∃ a, (value x).exec job s = (.ok a, s') ∧ code = .negate a := by
  have hform := (Session.form?_of_hasStandard hname span span [x]).trans
    (by decide +kernel : _ = some .negation)
  replace h := (exec_value_form hform rfl).symm.trans h
  obtain ⟨a, ha, rfl⟩ := gives_map.1 (gives_iff.2 ⟨h, rfl⟩)
  exact ⟨a, (gives_iff.1 ha).1, rfl⟩

/-- Where the connectives have their standard meaning, an exclusive or of two terms is lowered to
the operators of Lua, and its terms in turn. -/
theorem exec_value_exclusive {span : Span} {x y : Term} (hx : KeepsStandard job connectives x)
    (hy : KeepsStandard job connectives y) (hs : ∀ n ∈ connectives, s.HasStandard n)
    (h : (value (.exclusive span x y)).exec job s = (.ok code, s')) :
    ∃ a s₁ b s₂ a' s₃ b', (value x).exec job s = (.ok a, s₁) ∧
      (value y).exec job s₁ = (.ok b, s₂) ∧ (value x).exec job s₂ = (.ok a', s₃) ∧
      (value y).exec job s₃ = (.ok b', s') ∧ code = exclusiveCode a b a' b' := by
  have hand {s : Session} (hs : ∀ n ∈ connectives, s.HasStandard n) : s.HasStandard "and" :=
    hs "and" (by simp [connectives])
  have hnot {s : Session} (hs : ∀ n ∈ connectives, s.HasStandard n) : s.HasStandard "not" :=
    hs "not" (by simp [connectives])
  obtain ⟨left, s₂, right, hleft, hright, rfl⟩ :=
    exec_value_binary .or (by decide +kernel) (hs "or" (by simp [connectives])) h
  obtain ⟨nota, s₁, b, hnota, hb, rfl⟩ :=
    exec_value_binary .and (by decide +kernel) (hand hs) hleft
  obtain ⟨a, ha, rfl⟩ := exec_value_not (hnot hs) hnota
  have hs₂ := hy _ _ _ (hx _ _ _ hs ha) hb
  obtain ⟨a', s₃, notb, ha', hnotb, rfl⟩ :=
    exec_value_binary .and (by decide +kernel) (hand hs₂) hright
  obtain ⟨b', hb', rfl⟩ := exec_value_not (hnot (hx _ _ _ hs₂ ha')) hnotb
  refine ⟨a, s₁, b, s₂, a', s₃, b', ha, hb, ha', hb', ?_⟩
  show Code.chain " or " [operand (.chain " and " [operand (.negate a), operand b]),
    operand (.chain " and " [operand a', operand (.negate b')])] = _
  rw [operand_chain, operand_chain, operand_negate, operand_negate]
  rfl

/-- What a term is lowered to is the exclusive or of some terms, as long as the connectives have
their standard meaning, which they then keep. -/
def IsExclusive (job : Job) (ts : List Term) (t : Term) : Prop :=
  ∀ (s s' : Session) (code : Code), (∀ n ∈ connectives, s.HasStandard n) →
    (value t).exec job s = (.ok code, s') →
      Exclusive job ts s code s' ∧ ∀ n ∈ connectives, s'.HasStandard n

theorem isExclusive_single {t : Term} (ht : KeepsStandard job connectives t) :
    IsExclusive job [t] t :=
  fun s s' code hs h => ⟨.single h, ht s s' code hs h⟩

theorem IsExclusive.snoc {ts : List Term} {root t : Term} {span : Span}
    (hroot : IsExclusive job ts root) (ht : KeepsStandard job connectives t) :
    IsExclusive job (ts ++ [t]) (.exclusive span root t) := by
  intro s s' code hs h
  have hkeeps : KeepsStandard job connectives root := fun _ _ _ hs h => (hroot _ _ _ hs h).2
  obtain ⟨a, s₁, b, s₂, a', s₃, b', ha, hb, ha', hb', rfl⟩ := exec_value_exclusive hkeeps ht hs h
  obtain ⟨hexcl, hs₁⟩ := hroot _ _ _ hs ha
  obtain ⟨hexcl', hs₃⟩ := hroot _ _ _ (ht _ _ _ hs₁ hb) ha'
  exact ⟨.snoc hexcl hb hexcl' hb', ht _ _ _ hs₃ hb'⟩

theorem IsExclusive.foldl {span : Span} {rest : List Term} : ∀ {ts : List Term} {root : Term},
    IsExclusive job ts root → (∀ t ∈ rest, KeepsStandard job connectives t) →
      IsExclusive job (ts ++ rest) (rest.foldl (Term.exclusive span) root) := by
  induction rest with
  | nil =>
    intro ts root hroot _
    rw [List.append_nil]
    exact hroot
  | cons t rest ih =>
    intro ts root hroot hrest
    obtain ⟨ht, hrest⟩ := List.forall_mem_cons.1 hrest
    rw [List.append_cons]
    exact ih (hroot.snoc ht) hrest

/-- The names in front are looked up where the exclusive or stands, so its shape tells what they
mean there. -/
theorem hasStandard_of_exclusiveCode {span : Span} {x y : Term} {a b a' b' : Code}
    (h : (value (.exclusive span x y)).exec job s = (.ok (exclusiveCode a b a' b'), s')) :
    ∀ n ∈ connectives, s.HasStandard n := by
  have hor : s.HasStandard "or" := hasStandard_of_not_call h (by simp [exclusiveCode])
  obtain ⟨left, _, _, hleft, -, hcode⟩ := exec_value_binary .or (by decide +kernel) hor h
  injection hcode with _ hcode
  obtain rfl := eq_of_operand_eq (by simp) (List.cons.inj hcode).1.symm
  have hand : s.HasStandard "and" := hasStandard_of_not_call hleft (by simp)
  obtain ⟨nota, _, _, hnota, -, hcode⟩ :=
    exec_value_binary .and (by decide +kernel) hand hleft
  injection hcode with _ hcode
  obtain rfl := eq_of_operand_eq (by simp) (List.cons.inj hcode).1.symm
  have hnot : s.HasStandard "not" := hasStandard_of_not_call hnota (by simp)
  simp [connectives, hor, hand, hnot]

theorem Exclusive.eq_exclusiveCode {ts : List Term} (h : Exclusive job ts s code s')
    (hlength : 2 ≤ ts.length) : ∃ a b a' b', code = exclusiveCode a b a' b' := by
  cases h with
  | single _ => exact absurd hlength (by simp)
  | snoc _ _ _ _ => exact ⟨_, _, _, _, rfl⟩

theorem exec_value_parity {c : Call} (hform : s.form? c = some .parity)
    (h : (value c.term).exec job s = (.ok code, s')) :
    ∃ first rest, c.args = first :: rest ∧
      (value (rest.foldl (Term.exclusive c.span) first)).exec job s = (.ok code, s') := by
  rw [exec_value_form hform rfl] at h
  obtain ⟨t, _, _, _, ht, hvalue, -⟩ := gives_bind.1 (gives_iff.2 ⟨h, rfl⟩)
  obtain ⟨hparity, rfl, rfl⟩ := gives_ofExcept.1 ht
  unfold Term.parity at hparity
  split at hparity
  · cases hparity
  · rename_i first rest hargs
    cases hparity
    exact ⟨first, rest, hargs, (gives_iff.1 hvalue).1⟩

/-- Exclusive or is made of the operators of Lua just where the connectives have their standard
meaning. -/
theorem exclusive_iff_hasStandard {c : Call} (hform : s.form? c = some .parity)
    (hlength : 2 ≤ c.args.length) (hkeeps : ∀ t ∈ c.args, KeepsStandard job connectives t)
    (h : (value c.term).exec job s = (.ok code, s')) :
    Exclusive job c.args s code s' ↔ ∀ n ∈ connectives, s.HasStandard n := by
  obtain ⟨first, rest, hargs, hvalue⟩ := exec_value_parity hform h
  rw [hargs] at hkeeps hlength ⊢
  obtain ⟨hfirst, hrest⟩ := List.forall_mem_cons.1 hkeeps
  constructor
  · intro hexclusive
    obtain ⟨a, b, a', b', rfl⟩ := hexclusive.eq_exclusiveCode hlength
    -- The last term is the second one of the outermost exclusive or.
    have hne : rest ≠ [] := List.ne_nil_of_length_pos (Nat.le_of_succ_le_succ hlength)
    rw [← List.dropLast_append_getLast hne, List.foldl_append] at hvalue
    exact hasStandard_of_exclusiveCode hvalue
  · intro hs
    exact ((isExclusive_single hfirst).foldl hrest _ _ _ hs hvalue).1

/-! ### All rewrites -/

/-- What the names in rewrites refer to, in every session. A symbol or a number is called through
the name of a function as it is declared in front of the call, and a table with a key too many ends
with `unit` as it is declared behind the table; both are the standard ones if they are not declared.
A loop is counted just if it is written to run over a range, whether that name is declared or not.
And an exclusive or of terms that leave the connectives alone is made of the operators of Lua just
if none of the connectives is declared. -/
theorem rewrites_follow_scope (job : Job) (s s' : Session) (code : Code) :
    (∀ (c : Call) (t : Token), c.target = .symbol t ∨ c.target = .number t →
      (value c.term).exec job s = (.ok code, s') →
        ∃ callee as, code = .call callee as ∧ (args term c.indexed.args).exec job s = (.ok as, s') ∧
          s.Refers c.target.indexer.1 (getterText c.target.indexer.1) s'.package callee) ∧
    (∀ (ts : List Term) (k : Term) (escaped : Bool) (span : Span), ts.length % 2 = 0 →
      (value (.table (ts ++ [k]) escaped span)).exec job s = (.ok code, s') →
        ∃ front key unit,
          code = (if escaped then Code.record else Code.table) (front ++ [.entry key unit]) ∧
          s'.Refers "unit" "charon.Unit" s'.package unit) ∧
    (∀ (c : Call) (item source : Term) (span : Span) (ts : List Term), s.form? c = some .loop →
      c.args = .list [item, source] span :: ts → (value c.term).exec job s = (.ok code, s') →
        ((∃ name bounds terms, code = .thunk job.options.variadic (.count name bounds terms)) ↔
          source.isRange = true)) ∧
    ∀ c : Call, s.form? c = some .parity → 2 ≤ c.args.length →
      (∀ t ∈ c.args, KeepsStandard job connectives t) →
      (value c.term).exec job s = (.ok code, s') →
        (Exclusive job c.args s code s' ↔ ∀ n ∈ connectives, s.HasStandard n) := by
  refine ⟨?_, ?_, ?_, ?_⟩
  · intro c t ht h
    exact indexed_follows_scope ht h
  · intro ts k escaped span heven h
    exact table_follows_scope heven h
  · intro c item source span ts hform hargs h
    exact counts_iff_isRange hform hargs h
  · intro c hform hlength hkeeps h
    exact exclusive_iff_hasStandard hform hlength hkeeps h

theorem keepsStandard_number (job : Job) (names : List String) (t : Token) :
    KeepsStandard job names (.number t) := by
  intro s s' code hs h
  rw [exec_value_number] at h
  cases h
  exact hs

/-- At the start of a program nothing is declared. -/
theorem rewrites_follow_scope_start :
    ∃ (c : Call) (code : Code),
      c.args = [.number ⟨"1", .none⟩, .number ⟨"2", .none⟩, .number ⟨"3", .none⟩] ∧
      Session.start.form? c = some .parity ∧
      (value c.term).exec default Session.start = (.ok code, Session.start) ∧
      Exclusive default c.args Session.start code Session.start := by
  let one (n : String) : Code := .word n
  let pair := exclusiveCode (one "1") (one "2") (one "1") (one "2")
  refine ⟨⟨.name ⟨"xor", .none⟩, _, .none⟩, exclusiveCode pair (one "3") pair (one "3"), rfl, rfl,
    ?code, ((rewrites_follow_scope default _ _ _).2.2.2 _ rfl (by decide) ?keeps ?code).2 ?standard⟩
  case code => exact (exec_value_form rfl rfl).trans rfl
  case keeps => simp [keepsStandard_number]
  case standard =>
    intro n _
    exact Session.hasStandard_iff.2 rfl

/-- The session behind the definition of a value at the start of a program. -/
def behindDefinition (name : String) : Session :=
  ((value (.named "def" .none [.name ⟨name, .none⟩, .number ⟨"1", .none⟩])).exec default .start).2

/-- A definition reaches into rewrites: a loop over a defined `range` is counted all the same, and
the names that rewrites bring in are taken from the package. -/
theorem definitions_reach_rewrites :
    ¬ (behindDefinition "range").HasStandard "range" ∧
    (∃ s', (value (.named "for" .none [.list [.name ⟨"i", .none⟩,
        .named "range" .none [.number ⟨"1", .none⟩, .number ⟨"2", .none⟩]] .none])).exec default
          (behindDefinition "range") =
      (.ok (.thunk false (.count (mangle "i") [.word "1", .word "2"] [])), s')) ∧
    (∃ s', (value (.table [.symbol ⟨"k", .none⟩] false .none)).exec default
        (behindDefinition "unit") =
      (.ok (.table [.entry (.symbol "k") (.member localPackage "unit")]), s')) ∧
    (∃ s', (value (.call (.symbol ⟨"k", .none⟩) [.number ⟨"1", .none⟩] .none)).exec default
        (behindDefinition "table/get") =
      (.ok (.call (.member localPackage "table/get") [.symbol "k", .word "1"]), s')) ∧
    ∃ s', (value (.named "xor" .none [.number ⟨"1", .none⟩, .number ⟨"2", .none⟩])).exec default
        (behindDefinition "not") =
      (.ok (.chain " or "
        [.chain " and " [.call (.member localPackage "not") [.word "1"], .word "2"],
          .chain " and " [.word "1", .call (.member localPackage "not") [.word "2"]]]), s') := by
  refine ⟨?_, ⟨_, rfl⟩, ⟨_, rfl⟩, ⟨_, rfl⟩, _, rfl⟩
  rw [Session.hasStandard_iff]
  decide

end Gen

end LispLua
