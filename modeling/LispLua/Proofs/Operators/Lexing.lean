import LispLua.Proofs.Operators.Expression
import LispLua.Proofs.Reading.Token
import LispLua.Scope.Binding
import LispLua.Scope.Standard
import Mathlib.Data.List.Find

/-!
# Tokens of emitted text

What the texts that operators are emitted with are read as. A text is joined from pieces, and the
tokens of a piece are settled in front of whatever may follow it: behind a name or a numeral no
character that goes on either, behind an operator the start of an operand.
-/

namespace LispLua

/-- The operator of Lua that an operator is emitted as; two are emitted under a negation. -/
def Operator.lua : Operator → Lua.BinaryOp
  | add => .arithmetic .add
  | sub => .arithmetic .sub
  | div => .arithmetic .div
  | mul => .arithmetic .mul
  | pow => .arithmetic .pow
  | eq => .comparison .eq
  | ne => .comparison .ne
  | gt => .comparison .gt
  | lt => .comparison .lt
  | ge => .comparison .ge
  | le => .comparison .le
  | and | nand => .and
  | or | nor => .or

namespace Lua

/-- A text is read as some tokens in front of another text. -/
def Lexes (cs : List Char) (ts : List Token) (rest : List Char) : Prop :=
  tokenise (cs ++ rest) = (tokenise rest).map (ts ++ ·)

/-- A text that goes on neither a name nor a numeral. -/
def Breaks (rest : List Char) : Prop :=
  ∀ c, rest.head? = some c → isNumeralChar c = false

/-- A text that starts like an operand: with a name, a numeral or a parenthesis. -/
def Begins (cs : List Char) : Prop :=
  ∃ c rest, cs = c :: rest ∧ (isWordChar c = true ∨ c = '(')

theorem Begins.append {cs : List Char} (h : Begins cs) (rest : List Char) :
    Begins (cs ++ rest) := by
  obtain ⟨c, ds, rfl, hc⟩ := h
  exact ⟨c, ds ++ rest, rfl, hc⟩

theorem Breaks.isWordChar {rest : List Char} (h : Breaks rest) (c : Char)
    (hc : rest.head? = some c) : isWordChar c = false := by
  have := h c hc
  simp only [isNumeralChar, Bool.or_eq_false_iff] at this
  exact this.1

namespace Lexes

variable {as bs rest : List Char} {ts us : List Token}

theorem append (ha : Lexes as ts (bs ++ rest)) (hb : Lexes bs us rest) :
    Lexes (as ++ bs) (ts ++ us) rest := by
  unfold Lexes at *
  rw [List.append_assoc, ha, hb, Option.map_map]
  congr 1
  funext vs
  exact (List.append_assoc ts us vs).symm

/-- The tokens of a whole text. -/
theorem tokenise_eq (h : Lexes as ts []) : tokenise as = some ts := by
  rw [← List.append_nil as, h, tokenise, Option.map_some, List.append_nil]

theorem of_token? {c : Char} {cs : List Char} {t : Token} (hc : c.isWhitespace = false)
    (h : token? (c :: (cs ++ rest)) = some (t, cs.length + 1)) : Lexes (c :: cs) [t] rest := by
  unfold Lexes
  rw [List.cons_append, tokenise]
  simp [hc, h]

end Lexes

theorem lexes_space (rest : List Char) : Lexes [' '] [] rest := by
  unfold Lexes
  rw [List.singleton_append, tokenise]
  simp

/-! ### Words -/

theorem isWhitespace_of_isWordChar {c : Char} (h : isWordChar c = true) :
    c.isWhitespace = false := by
  cases hw : c.isWhitespace with
  | false => rfl
  | true =>
    simp only [Char.isWhitespace, Bool.or_eq_true, decide_eq_true_eq] at hw
    rcases hw with ((rfl | rfl) | rfl) | rfl <;> exact absurd h (by decide)

theorem isWordChar_of_isDigit {c : Char} (h : c.isDigit = true) : isWordChar c = true := by
  simp [isWordChar, Char.isAlphanum, h]

theorem lexes_word {c : Char} {cs rest : List Char} (hd : c.isDigit = false)
    (hcs : (c :: cs).all isWordChar = true)
    (hrest : ∀ d, rest.head? = some d → isWordChar d = false) :
    Lexes (c :: cs) [wordToken (String.ofList (c :: cs))] rest := by
  rw [List.all_eq_true] at hcs
  have hc : isWordChar c = true := hcs c List.mem_cons_self
  have hrun : (c :: (cs ++ rest)).takeWhile isWordChar = c :: cs := takeWhile_run hcs hrest
  refine .of_token? (isWhitespace_of_isWordChar hc) ?_
  simp only [token?, hd, hc, hrun, Bool.false_eq_true, if_false, if_true, List.length_cons]

theorem isDecimal_of_isUnsigned {cs : List Char} (h : IsUnsigned cs) : isDecimal cs = true := by
  have digits {ds : List Char} (h : IsDigits ds) :
      ds.all (fun c => c.isDigit || c == '.') = true ∧ ds.count '.' = 0 := by
    refine ⟨?_, List.count_eq_zero.2 fun hp => absurd (h.2 '.' hp) (by decide)⟩
    rw [List.all_eq_true]
    intro c hc
    simp [h.2 c hc]
  cases h with
  | whole h => simp [isDecimal, (digits h).1, (digits h).2]
  | decimal hd he =>
    simp [isDecimal, List.count_append, (digits hd).1, (digits hd).2, (digits he).1, (digits he).2]

theorem isNumeralChar_of_isUnsigned {cs : List Char} (h : IsUnsigned cs) :
    ∀ c ∈ cs, isNumeralChar c = true := by
  have hd := isDecimal_of_isUnsigned h
  simp only [isDecimal, Bool.and_eq_true, List.all_eq_true, Bool.or_eq_true] at hd
  intro c hc
  rcases hd.1 c hc with hdigit | hpoint
  · simp [isNumeralChar, isWordChar_of_isDigit hdigit]
  · simp [isNumeralChar, hpoint]

theorem lexes_numeral {cs rest : List Char} (h : IsUnsigned cs) (hrest : Breaks rest) :
    Lexes cs [.numeral (String.ofList cs)] rest := by
  have hrun : (cs ++ rest).takeWhile isNumeralChar = cs :=
    takeWhile_run (isNumeralChar_of_isUnsigned h) hrest
  have hdecimal := isDecimal_of_isUnsigned h
  obtain ⟨c, ds, rfl, hc⟩ := h.head
  refine .of_token? (isWhitespace_of_isWordChar (isWordChar_of_isDigit hc)) ?_
  rw [List.cons_append] at hrun
  simp only [token?, hc, hrun, hdecimal, if_true, List.length_cons]

theorem begins_of_isUnsigned {cs : List Char} (h : IsUnsigned cs) : Begins cs := by
  obtain ⟨c, ds, rfl, hc⟩ := h.head
  exact ⟨c, ds, rfl, .inl (isWordChar_of_isDigit hc)⟩

/-! ### Emitted names -/

theorem isWordChar_toDigits (n : Nat) : ∀ c ∈ Nat.toDigits 16 n, isWordChar c = true := by
  have digit (d : Nat) (hd : d < 16) : isWordChar d.digitChar = true := by
    decide +revert
  induction n using Nat.strongRecOn with
  | ind n ih =>
    intro c hc
    by_cases hn : n < 16
    · rw [Nat.toDigits_of_lt_base hn, List.mem_singleton] at hc
      exact hc ▸ digit n hn
    · rw [Nat.toDigits_of_base_le (by decide) (by omega), List.mem_append,
        List.mem_singleton] at hc
      rcases hc with hc | rfl
      · exact ih (n / 16) (by omega) c hc
      · exact digit (n % 16) (by omega)

theorem isWordChar_hexadecimal (width n : Nat) : (hexadecimal width n).all isWordChar = true := by
  rw [List.all_eq_true]
  intro c hc
  rcases List.mem_append.1 hc with hc | hc
  · rw [List.eq_of_mem_replicate hc]
    decide
  · exact isWordChar_toDigits n c hc

/-- An emitted name is an underscore and characters of names. -/
theorem mangle_eq (name : String) :
    ∃ cs, (mangle name).toList = '_' :: cs ∧ ('_' :: cs).all isWordChar = true := by
  have hhead : ('_' :: "_val_".toList).all isWordChar = true := by decide
  refine ⟨"_val_".toList ++ hexadecimal 8 (digest 0x6368726e (utf8Bytes name)).toNat, ?_, ?_⟩
  · simp [mangle]
  · rw [← List.cons_append, List.all_append, hhead, isWordChar_hexadecimal]
    rfl

/-- No reserved word starts with an underscore. -/
theorem wordToken_mangle (name : String) : wordToken (mangle name) = .name (mangle name) := by
  have hreserved : ∀ p ∈ reserved, p.1.toList.head? ≠ some '_' := by decide
  have hlookup : reserved.lookup (mangle name) = none := by
    rw [List.lookup_eq_none_iff]
    intro p hp
    rw [bne_iff_ne]
    intro heq
    obtain ⟨cs, hcs, -⟩ := mangle_eq name
    exact hreserved p hp (by rw [← heq, hcs]; rfl)
  rw [wordToken, hlookup, Option.getD_none]

theorem lexes_mangle (name : String) {rest : List Char} (hrest : Breaks rest) :
    Lexes (mangle name).toList [.name (mangle name)] rest := by
  obtain ⟨cs, hcs, hword⟩ := mangle_eq name
  have h := lexes_word (by decide) hword hrest.isWordChar
  rwa [← hcs, String.ofList_toList, wordToken_mangle] at h

theorem begins_mangle (name : String) : Begins (mangle name).toList := by
  obtain ⟨cs, hcs, -⟩ := mangle_eq name
  exact ⟨'_', cs, hcs, .inl (by decide)⟩

/-! ### Marks -/

theorem lexes_lparen (rest : List Char) : Lexes ['('] [.lparen] rest :=
  .of_token? (by decide) rfl

theorem lexes_rparen (rest : List Char) : Lexes [')'] [.rparen] rest :=
  .of_token? (by decide) rfl

theorem lexes_comma (rest : List Char) : Lexes [','] [.comma] rest :=
  .of_token? (by decide) rfl

/-- What starts an operand is not the second character of a mark. -/
theorem Begins.notMem_tail {c : Char} (h : isWordChar c = true ∨ c = '(') :
    ∀ m ∈ marks, c ∉ m.1.tail := by
  have hmarks : marks.all (fun m => m.1.tail.all fun d => !isWordChar d && d != '(') = true := by
    decide
  simp only [List.all_eq_true, Bool.and_eq_true, Bool.not_eq_true', bne_iff_ne] at hmarks
  intro m hm hc
  obtain ⟨hword, hparen⟩ := hmarks m hm c hc
  rcases h with h | h
  · exact absurd h (by simp [hword])
  · exact hparen h

theorem isPrefixOf_append_cons {ks : List Char} {c : Char} (h : c ∉ ks) (ms ds : List Char) :
    ks.isPrefixOf (ms ++ c :: ds) = ks.isPrefixOf ms := by
  induction ks generalizing ms with
  | nil => rfl
  | cons k ks ih =>
    have hk : k ≠ c := fun hk => h (hk ▸ List.mem_cons_self)
    cases ms with
    | nil => simp [List.isPrefixOf, hk]
    | cons m ms => simp [List.isPrefixOf, ih (fun hc => h (List.mem_cons_of_mem k hc))]

/-- In front of an operand every mark is read as the token it is. -/
theorem lexes_mark {m : List Char × Token} (hm : m ∈ marks) {rest : List Char}
    (h : Begins rest) : Lexes m.1 [m.2] rest := by
  -- Longer marks come first, so the search for a mark itself finds that mark.
  have hself : ∀ m ∈ marks, marks.find? (fun k => k.1.isPrefixOf m.1) = some m := by decide
  have hhead : marks.all (fun m => m.1.head?.any fun d =>
      !d.isWhitespace && !d.isDigit && !isWordChar d) = true := by decide
  obtain ⟨c, ds, rfl, hc⟩ := h
  have hm' := List.all_eq_true.1 hhead m hm
  obtain ⟨_ | ⟨d, es⟩, t⟩ := m
  · cases hm'
  · simp only [List.head?_cons, Option.any_some, Bool.and_eq_true, Bool.not_eq_true'] at hm'
    have hfind : marks.find? (fun k => k.1.isPrefixOf (d :: (es ++ c :: ds))) =
        some (d :: es, t) := by
      rw [← hself _ hm]
      refine List.find?_congr fun k hk => ?_
      have htail := Begins.notMem_tail hc k hk
      obtain ⟨_ | ⟨e, ks⟩, u⟩ := k
      · rfl
      · exact congrArg (e == d && ·) (isPrefixOf_append_cons htail es ds)
    refine .of_token? hm'.1.1 ?_
    simp [token?, hm', hfind]

/-- A word between two spaces. -/
theorem lexes_spaced {c : Char} {cs : List Char} (hd : c.isDigit = false)
    (hcs : (c :: cs).all isWordChar = true) (rest : List Char) :
    Lexes (' ' :: c :: cs ++ [' ']) [wordToken (String.ofList (c :: cs))] rest := by
  have hspace : ∀ d, ([' '] ++ rest).head? = some d → isWordChar d = false := by
    rintro d ⟨⟩
    decide
  exact ((lexes_space _).append (lexes_word hd hcs hspace)).append (lexes_space rest)

theorem lexes_operator (op : Operator) {rest : List Char} (h : Begins rest) :
    Lexes op.text.toList [.binary op.lua] rest := by
  have hmark (hm : (op.text.toList, Token.binary op.lua) ∈ marks) :
      Lexes op.text.toList [.binary op.lua] rest := lexes_mark hm h
  cases op with
  | and | nand => exact @lexes_spaced 'a' ['n', 'd'] (by decide) (by decide) rest
  | or | nor => exact @lexes_spaced 'o' ['r'] (by decide) (by decide) rest
  | _ => exact hmark (by decide)

theorem breaks_operator (op : Operator) (rest : List Char) : Breaks (op.text.toList ++ rest) := by
  intro c hc
  cases op <;> cases hc <;> decide

end Lua

end LispLua
