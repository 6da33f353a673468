import LispLua.Proofs.Operators.Phrase
import LispLua.Proofs.Reading.Underline
import LispLua.Term.Sugar

/-!
# Indexing calls

A call of a symbol or a number is sugar for a call of a function that takes the key as its first
argument. What it stands for is a call that can be written down and read back, unless the symbol is
a plus sign in front of an integer: this indexes a list, but it is written like a name.
-/

namespace LispLua

/-! ### Integers in texts -/

/-- The integer that some characters write: digits, or a minus sign in front of digits. -/
inductive Writes : List Char → Int → Prop
  | plain {ds : List Char} (hds : IsDigits ds) : Writes ds (Nat.ofDigitChars 10 ds 0)
  | negative {ds : List Char} (hds : IsDigits ds) : Writes ('-' :: ds) (-Nat.ofDigitChars 10 ds 0)

/-- An integer of 64 bits. -/
def Fits (n : Int) : Prop :=
  Int64.minValue.toInt ≤ n ∧ n ≤ Int64.maxValue.toInt

/-- A plus sign in front of an integer of 64 bits. -/
def IsPlusInteger (cs : List Char) : Prop :=
  ∃ ds, cs = '+' :: ds ∧ IsDigits ds ∧ Fits (Nat.ofDigitChars 10 ds 0)

theorem fits_iff {n : Int} :
    Fits n ↔ -9223372036854775808 ≤ n ∧ n ≤ 9223372036854775807 := by
  have hmin : Int64.minValue.toInt = -9223372036854775808 := by decide
  have hmax : Int64.maxValue.toInt = 9223372036854775807 := by decide
  rw [Fits, hmin, hmax]

theorem fits_natCast {n : Nat} : Fits n ↔ n ≤ Index.limit - 1 := by
  rw [fits_iff, Index.limit]
  omega

theorem fits_neg_natCast {n : Nat} : Fits (-n) ↔ n ≤ Index.limit := by
  rw [fits_iff, Index.limit]
  omega

theorem Writes.isNumeral {cs : List Char} {n : Int} (h : Writes cs n) : IsNumeral cs := by
  cases h with
  | plain hds => exact .plain (.whole hds)
  | negative hds => exact .negative (.whole hds)

theorem IsNumeral.ne_plus {ds : List Char} : ¬ IsNumeral ('+' :: ds) := by
  intro h
  cases h with
  | plain h =>
    obtain ⟨d, rest, heq, hd⟩ := h.head
    cases heq
    cases hd

namespace Index

theorem value_eq (ds : List Char) : value ds = Nat.ofDigitChars 10 ds 0 := by
  rw [value, Nat.ofDigitChars_eq_foldl]

theorem within_iff {bound : Nat} {ds : List Char} :
    within bound ds = true ↔ IsDigits ds ∧ Nat.ofDigitChars 10 ds 0 ≤ bound := by
  simp [within, value_eq, IsDigits]

end Index

/-- A text indexes lists if it writes an integer of 64 bits, perhaps with a plus sign. -/
theorem isIndex_iff {text : String} :
    isIndex text = true ↔ (∃ n, Writes text.toList n ∧ Fits n) ∨ IsPlusInteger text.toList := by
  unfold isIndex
  split
  · rename_i ds heq
    rw [heq, Index.within_iff]
    constructor
    · rintro ⟨hds, hle⟩
      exact .inl ⟨_, .negative hds, fits_neg_natCast.2 hle⟩
    · rintro (⟨n, hn, hfits⟩ | ⟨_, hplus, -⟩)
      · cases hn with
        | plain hds => cases hds.2 '-' List.mem_cons_self
        | negative hds => exact ⟨hds, fits_neg_natCast.1 hfits⟩
      · cases hplus
  · rename_i ds heq
    rw [heq, Index.within_iff]
    constructor
    · rintro ⟨hds, hle⟩
      exact .inr ⟨ds, rfl, hds, fits_natCast.2 hle⟩
    · rintro (⟨n, hn, -⟩ | ⟨_, hplus, hds, hfits⟩)
      · exact absurd hn.isNumeral IsNumeral.ne_plus
      · cases hplus
        exact ⟨hds, fits_natCast.1 hfits⟩
  · rename_i hminus hplus
    rw [Index.within_iff]
    constructor
    · rintro ⟨hds, hle⟩
      exact .inl ⟨_, .plain hds, fits_natCast.2 hle⟩
    · rintro (⟨n, hn, hfits⟩ | ⟨ds, heq, -⟩)
      · generalize text.toList = cs at hn hminus
        cases hn with
        | plain hds => exact ⟨hds, fits_natCast.1 hfits⟩
        | negative hds => exact (hminus _ rfl).elim
      · exact (hplus ds heq).elim

/-! ### Numerals in emitted code -/

namespace Lua

/-- Lua reads a numeral as it stands, or as the negation of one. -/
theorem parse_of_isNumeral {text : String} (h : IsNumeral text.toList) :
    ∃ digits, text = digits ∧ parse text = some (.numeral digits) ∨
      text = "-" ++ digits ∧ parse text = some (.neg (.numeral digits)) := by
  rw [← String.ofList_toList (s := text)]
  generalize text.toList = cs at h
  cases h with
  | plain h =>
    have hparse := ((Operand.numeral (String.ofList cs) (by simpa using h)).phrase 0).parse_eq
    refine ⟨String.ofList cs, .inl ⟨rfl, ?_⟩⟩
    simpa [Operand.phrase, Operand.numeral] using hparse
  | @negative cs h =>
    have hparse := ((Operand.numeral (String.ofList cs) (by simpa using h)).negative
      (Nat.zero_le unaryLimit)).parse_eq
    refine ⟨String.ofList cs, .inr ⟨by simp, ?_⟩⟩
    simpa [Operand.negative, Operand.numeral, Operator.text] using hparse

/-- No expression of Lua starts with a plus sign. -/
theorem parse_plus {ds : List Char} (h : IsUnsigned ds) :
    parse (String.ofList ('+' :: ds)) = none := by
  have hplus : Lexes ['+'] [.binary (.arithmetic .add)] (ds ++ []) :=
    lexes_operator .add ((begins_of_isUnsigned h).append [])
  have htokens : tokenise ('+' :: ds) =
      some [.binary (.arithmetic .add), .numeral (String.ofList ds)] :=
    (hplus.append (lexes_numeral h (by rintro c ⟨⟩))).tokenise_eq
  simp [parse, htokens, expression, operand]

end Lua

/-! ### What the sugar stands for -/

/-- A symbol that indexes lists and is written with a plus sign. -/
def Term.IsPlusIndex (t : Term) : Prop :=
  ∃ token, t = .symbol token ∧ IsPlusInteger token.text.toList

theorem Call.indexed_eq (c : Call) :
    c.indexed = ⟨.name ⟨c.target.indexer.1, c.target.span⟩, c.target.indexer.2 :: c.args, c.span⟩ :=
  rfl

theorem Term.indexer_symbol_iff {t : Token} :
    (Term.symbol t).indexer.1 = "list/get" ↔ isIndex t.text = true := by
  rw [indexer]
  split <;> simp [*]

theorem isName_listGet : IsName "list/get".toList := by decide +kernel

theorem isName_tableGet : IsName "table/get".toList := by decide +kernel

theorem Term.isName_indexer (t : Term) : IsName t.indexer.1.toList := by
  unfold indexer
  split
  · split
    · exact isName_listGet
    · exact isName_tableGet
  · exact isName_listGet
  · exact isName_tableGet

/-- A key is a number that can be written down, or a term that stood in the program. -/
theorem Term.wellFormed_indexer {t : Term} (hw : t.WellFormed) (hplus : ¬ t.IsPlusIndex) :
    t.indexer.2.WellFormed := by
  unfold indexer
  split
  · rename_i k
    split
    · rename_i hindex
      obtain ⟨n, hn, -⟩ := (isIndex_iff.1 hindex).resolve_right fun h => hplus ⟨k, rfl, h⟩
      exact .number hn.isNumeral
    · exact hw
  · exact hw
  · exact hw

/-- What the sugar stands for can be written down. -/
theorem Call.wellFormed_indexed {c : Call} (hw : c.term.WellFormed)
    (hplus : ¬ c.target.IsPlusIndex) : c.indexed.term.WellFormed := by
  cases hw with
  | call _ htarget hargs =>
    refine .call (by simp [indexed_eq, Term.IsTarget, Term.shape])
      (.name (Term.isName_indexer c.target)) ?_
    exact List.forall_mem_cons.2 ⟨Term.wellFormed_indexer htarget hplus, hargs⟩

theorem Call.name?_indexed (c : Call) : c.indexed.name? = some c.target.indexer.1 := rfl

/-- A key that is a number is written like one. -/
theorem Call.isNumeral_key {c : Call} {k : Token} (hw : c.term.WellFormed)
    (hplus : ¬ c.target.IsPlusIndex) (hk : c.indexed.args.head? = some (.number k)) :
    IsNumeral k.text.toList := by
  cases hw with
  | call _ htarget _ =>
    have hkey := Term.wellFormed_indexer htarget hplus
    rw [Option.some.inj (show some c.target.indexer.2 = some (.number k) from hk)] at hkey
    cases hkey with
    | number h => exact h

theorem Call.wellFormed_of_occursIn {text : String} {p : Program} {c : Call}
    (hp : parse text = .ok p) (hc : (Node.term c.term).OccursIn p) : c.term.WellFormed := by
  obtain ⟨d, hd, hwithin⟩ := hc
  exact Node.WellFormed.within hwithin (wellFormed_of_parse hp d hd)

/-- A call that can be written down is read back from what is printed. -/
theorem Call.parse_render {c : Call} (hw : c.term.WellFormed) :
    ∃ q, parse c.render = .ok [q] ∧ q.term.bare = c.term.bare := by
  obtain ⟨p, hp, hbare⟩ := parse_of_layout (p := [c]) (by simpa [Program.WellFormed] using hw)
    (ProgramLayout.render [c])
  obtain ⟨q, rfl, hq⟩ := List.map_eq_singleton_iff.1 hbare
  refine ⟨q, ?_, hq⟩
  simpa using hp

/-! ### The plus sign -/

theorem IsPlusInteger.isName {cs : List Char} (h : IsPlusInteger cs) : IsName cs := by
  obtain ⟨ds, rfl, hds, -⟩ := h
  exact ⟨⟨by decide, hds.isSubsequent⟩, IsNumeral.ne_plus⟩

theorem IsPlusInteger.lua_parse {text : String} (h : IsPlusInteger text.toList) :
    Lua.parse text = none := by
  obtain ⟨ds, heq, hds, -⟩ := h
  rw [← String.ofList_toList (s := text), heq]
  exact Lua.parse_plus (.whole hds)

/-- A key with a plus sign is printed like a name, and it is read back as one. -/
theorem Call.parse_render_plus {c : Call} {k : Token} (hw : c.term.WellFormed)
    (htarget : c.target = .symbol k) (hplus : IsPlusInteger k.text.toList) :
    ∃ q, parse c.indexed.render = .ok [q] ∧
      q.term.bare = (Term.call (.name ⟨"list/get", c.target.span⟩) (.name k :: c.args) c.span).bare ∧
      c.indexed = ⟨.name ⟨"list/get", c.target.span⟩, .number k :: c.args, c.span⟩ := by
  have hindexed :
      c.indexed = ⟨.name ⟨"list/get", c.target.span⟩, .number k :: c.args, c.span⟩ := by
    rw [indexed_eq, htarget, Term.indexer, if_pos (isIndex_iff.2 (.inr hplus))]
  -- the same call with a name for the key, which has the same text
  let named : Call := ⟨.name ⟨"list/get", c.target.span⟩, .name k :: c.args, c.span⟩
  have hnamed : named.term.WellFormed := by
    cases hw with
    | call _ _ hargs =>
      refine .call (by simp [named, Term.IsTarget, Term.shape]) (.name isName_listGet) ?_
      exact List.forall_mem_cons.2 ⟨.name hplus.isName, hargs⟩
  have hrender : c.indexed.render = named.render := by
    rw [hindexed]
    rfl
  obtain ⟨q, hq, hbare⟩ := parse_render hnamed
  exact ⟨q, hrender ▸ hq, hbare, hindexed⟩

theorem Term.shape_bare (t : Term) : t.bare.shape = t.shape := by
  cases t <;> rfl

theorem Call.shape_key_of_bare_eq {q : Call} {target : Term} {k : Token} {args : List Term}
    {span : Span} (h : q.term.bare = (Term.call target (.name k :: args) span).bare) :
    q.args.head?.map Term.shape = some .name := by
  rw [Call.term, Term.bare_call, Term.bare_call] at h
  obtain ⟨-, hargs, -⟩ := Term.call.inj h
  obtain ⟨t, ts, heq, ht, -⟩ := List.map_eq_cons_iff.1 hargs
  rw [heq, List.head?_cons, Option.map_some, ← t.shape_bare, ht]
  rfl

/-- A call of a symbol or a number stands for a call that is read back as it is. Its key is a number
only if it is written like one, which Lua reads too, and it indexes lists if it is an integer of 64
bits. Only a symbol with a plus sign in front of such an integer is different: it is made a number,
but it is read back as a name, and Lua does not read it. -/
theorem indexed_call_reads_back_unless_plus {text : String} {p : Program} {c : Call}
    (hp : parse text = .ok p) (hc : (Node.term c.term).OccursIn p) :
    (¬ c.target.IsPlusIndex →
      (∃ q, parse c.indexed.render = .ok [q] ∧ q.term.bare = c.indexed.term.bare) ∧
      (∀ k, c.indexed.args.head? = some (.number k) → IsNumeral k.text.toList ∧
        ∃ digits, k.text = digits ∧ Lua.parse k.text = some (.numeral digits) ∨
          k.text = "-" ++ digits ∧ Lua.parse k.text = some (.neg (.numeral digits))) ∧
      (∀ k, c.target = .symbol k →
        (c.indexed.name? = some "list/get" ↔ ∃ n, Writes k.text.toList n ∧ Fits n))) ∧
    (c.target.IsPlusIndex → ∃ k q, c.indexed.name? = some "list/get" ∧
      c.indexed.args.head? = some (.number k) ∧ ¬ IsNumeral k.text.toList ∧
      (∀ n, ¬ Writes k.text.toList n) ∧ Lua.parse k.text = none ∧
      parse c.indexed.render = .ok [q] ∧ q.args.head?.map Term.shape = some .name ∧
      q.term.bare ≠ c.indexed.term.bare) := by
  have hw := Call.wellFormed_of_occursIn hp hc
  refine ⟨fun hplus => ⟨Call.parse_render (Call.wellFormed_indexed hw hplus), ?_, ?_⟩, ?_⟩
  · intro k hk
    have hkey : IsNumeral k.text.toList := Call.isNumeral_key hw hplus hk
    exact ⟨hkey, Lua.parse_of_isNumeral hkey⟩
  · intro k hk
    rw [Call.name?_indexed, hk, Option.some.injEq, Term.indexer_symbol_iff, isIndex_iff]
    exact or_iff_left fun h => hplus ⟨k, hk, h⟩
  · rintro ⟨k, hk, hplus⟩
    have hnumeral := hplus.isName.2
    obtain ⟨q, hq, hbare, hindexed⟩ := Call.parse_render_plus hw hk hplus
    refine ⟨k, q, by rw [hindexed]; rfl, by rw [hindexed]; rfl, hnumeral,
      fun n hn => hnumeral hn.isNumeral, hplus.lua_parse, hq, ?_, ?_⟩
    · exact Call.shape_key_of_bare_eq hbare
    · rw [hbare, hindexed, Call.term, Term.bare_call, Term.bare_call]
      simp [Term.bare]

/-- The symbol of the least integer of 64 bits indexes a list, and what it stands for is read
back. -/
theorem indexed_call_reads_back_unless_plus_least :
    ∃ c q, parse "(:-9223372036854775808 v)" = .ok [c] ∧
      c.indexed.render = "(list/get -9223372036854775808 v)" ∧
      parse c.indexed.render = .ok [q] ∧ q.term.bare = c.indexed.term.bare := by
  have hfacts : (parse "(:-9223372036854775808 v)").toOption.map (fun p =>
      p.map fun c => (c.target.render, c.indexed.render)) =
        some [(":-9223372036854775808", "(list/get -9223372036854775808 v)")] := by
    decide +kernel
  cases hp : parse "(:-9223372036854775808 v)" with
  | error f =>
    rw [hp] at hfacts
    cases hfacts
  | ok p =>
    rw [hp] at hfacts
    obtain ⟨c, rfl, hc⟩ := List.map_eq_singleton_iff.1 (Option.some.inj hfacts)
    obtain ⟨htarget, hrender⟩ := Prod.mk.inj hc
    have hplus : ¬ c.target.IsPlusIndex := by
      rintro ⟨k, hk, ds, htext, -⟩
      rw [hk, Term.render] at htarget
      have hlist := congrArg String.toList htarget
      rw [String.toList_append, htext] at hlist
      simp at hlist
    obtain ⟨⟨q, hq, hbare⟩, -⟩ := (indexed_call_reads_back_unless_plus hp
      ⟨c, List.mem_singleton_self c, .self⟩).1 hplus
    exact ⟨c, q, rfl, hrender, hq, hbare⟩

/-- The symbol `:+1` indexes a list, but the key of the call it stands for is read back as a name. -/
theorem plus_index_reads_as_name :
    ∃ c q, parse "(:+1 v)" = .ok [c] ∧ c.indexed.render = "(list/get +1 v)" ∧
      c.indexed.args.map Term.shape = [.number, .name] ∧ parse c.indexed.render = .ok [q] ∧
      q.args.map Term.shape = [.name, .name] ∧ Lua.parse "+1" = none := by
  have hfacts : (parse "(:+1 v)").toOption.map (fun p =>
      p.map fun c => (c.indexed.render, c.indexed.args.map Term.shape)) =
        some [("(list/get +1 v)", [.number, .name])] := by
    decide +kernel
  have hback : (parse "(list/get +1 v)").toOption.map (fun p =>
      p.map fun c => c.args.map Term.shape) = some [[.name, .name]] := by
    decide +kernel
  cases hp : parse "(:+1 v)" with
  | error f =>
    rw [hp] at hfacts
    cases hfacts
  | ok p =>
    rw [hp] at hfacts
    obtain ⟨c, rfl, hc⟩ := List.map_eq_singleton_iff.1 (Option.some.inj hfacts)
    obtain ⟨hrender, hshapes⟩ := Prod.mk.inj hc
    cases hq : parse "(list/get +1 v)" with
    | error f =>
      rw [hq] at hback
      cases hback
    | ok p =>
      rw [hq] at hback
      obtain ⟨q, rfl, hqshapes⟩ := List.map_eq_singleton_iff.1 (Option.some.inj hback)
      exact ⟨c, q, rfl, hrender, hshapes, hrender ▸ hq, hqshapes,
        Lua.parse_plus (.whole ⟨by simp, by simp⟩)⟩

end LispLua
