import LispLua.Generate.Value
import LispLua.Proofs.Lexical.Gaps
import LispLua.Proofs.Operators.Lexing
import LispLua.Term.Sugar

/-!
# Words of generated code

The texts that code has at its leaves: names, references, numerals and string literals, which close
what they open, and the texts that stand in quotes or in a comment, which do not leave them.
-/

namespace LispLua.Lua

/-- Whether a word is a name of Lua: it does not start with a digit and is not reserved. -/
def isName (cs : List Char) : Bool :=
  cs.head?.any (fun c => !c.isDigit) && cs.all isWordChar &&
    reserved.all fun word => word.1.toList != cs

/-- Whether a text is a name of Lua. -/
def isIdentifier (text : String) : Bool :=
  isName text.toList

/-- Whether a text is names of Lua with points between them. -/
def isReference (text : String) : Bool :=
  (text.toList.splitOn '.').all isName

/-- A text that stands as a word: a name, a reference that does not look like a local name, a
numeral or an integer with a sign, or a string literal without line ends. -/
inductive IsAtom (text : String) : Prop
  | name : isIdentifier text = true → IsAtom text
  | reference : isReference text = true → text.toList.head? ≠ some '_' → IsAtom text
  | numeral : IsNumeral text.toList → IsAtom text
  | index : isIndex text = true → IsAtom text
  | literal : IsLiteral text.toList → (∀ c ∈ text.toList, isLineEnd c = false) → IsAtom text

/-! ### Names -/

theorem IsPlainWord.neat {cs : List Char} (h : IsPlainWord cs) (hne : cs ≠ []) : Neat cs := by
  refine ⟨h.reads, ?_⟩
  obtain ⟨c, cs, rfl⟩ := List.exists_cons_of_ne_nil hne
  have hc : isWordChar c = true := h.1 c (by simp)
  have hopen : c ≠ '[' := by
    rintro rfl
    cases hc
  have hequal : c ≠ '=' := by
    rintro rfl
    cases hc
  simp [startsClear, hopen, hequal]

theorem isPlainWord_of_isName {cs : List Char} (h : isName cs = true) : IsPlainWord cs := by
  simp only [isName, Bool.and_eq_true, List.all_eq_true, bne_iff_ne] at h
  obtain ⟨⟨-, hchars⟩, hreserved⟩ := h
  have hwords : ∀ word ∈ blockWords, ∃ entry ∈ reserved, entry.1.toList = word := by decide
  refine ⟨hchars, fun hmem => ?_⟩
  obtain ⟨entry, hentry, heq⟩ := hwords cs hmem
  exact hreserved entry hentry heq

theorem isPlainWord_of_isIdentifier {text : String} (h : isIdentifier text = true) :
    IsPlainWord text.toList :=
  isPlainWord_of_isName h

theorem neat_of_isName {cs : List Char} (h : isName cs = true) : Neat cs := by
  refine (isPlainWord_of_isName h).neat ?_
  rintro rfl
  cases h

theorem neat_of_isReference {text : String} (h : isReference text = true) : Neat text.toList := by
  have hsplit : ['.'].intercalate (text.toList.splitOn '.') = text.toList :=
    List.intercalate_splitOn '.'
  rw [← hsplit]
  refine .intercalate rfl rfl (List.splitOn_ne_nil _ _) fun cs hcs => ?_
  exact neat_of_isName (List.all_eq_true.1 h cs hcs)

theorem isIdentifier_mangle (name : String) : isIdentifier (mangle name) = true := by
  obtain ⟨cs, hcs, hword⟩ := mangle_eq name
  -- no reserved word starts with an underscore
  have hreserved : (reserved.all fun word => word.1.toList.head? != some '_') = true := by decide
  have hother : (reserved.all fun word => word.1.toList != '_' :: cs) = true := by
    simp only [List.all_eq_true, bne_iff_ne] at hreserved ⊢
    intro word hmem heq
    exact hreserved word hmem (by rw [heq, List.head?_cons])
  have hdigit : '_'.isDigit = false := by decide
  simp only [isIdentifier, isName, hcs, hword, hother, hdigit, List.head?_cons, Option.any_some,
    Bool.not_false, Bool.and_self]

/-! ### Numerals -/

theorem isPlainWord_of_isDigits {cs : List Char} (h : IsDigits cs) : IsPlainWord cs := by
  refine ⟨fun c hc => isWordChar_of_isDigit (h.2 c hc), fun hmem => ?_⟩
  have hwords : (blockWords.all fun cs => cs.any fun c => !c.isDigit) = true := by decide
  obtain ⟨c, hc, hdigit⟩ := List.any_eq_true.1 (List.all_eq_true.1 hwords cs hmem)
  rw [h.2 c hc] at hdigit
  cases hdigit

theorem neat_of_isUnsigned {cs : List Char} (h : IsUnsigned cs) : Neat cs := by
  have hdigits : ∀ {ds : List Char}, IsDigits ds → Neat ds := fun hds =>
    (isPlainWord_of_isDigits hds).neat hds.1
  cases h with
  | whole hds => exact hdigits hds
  | @decimal ds es hds hes =>
    have hneat : Neat (['.'].intercalate [ds, es]) :=
      .intercalate rfl rfl (by simp) (by simp [hdigits hds, hdigits hes])
    simpa using hneat

theorem neat_toString (n : Nat) : Neat (toString n).toList := by
  have hdigits : IsDigits (Nat.toDigits 10 n) :=
    ⟨Nat.toDigits_ne_nil, fun c hc => Nat.isDigit_of_mem_toDigits (by decide) (by decide) hc⟩
  rw [Nat.toString_eq_ofList_toDigits, String.toList_ofList]
  exact (isPlainWord_of_isDigits hdigits).neat hdigits.1

/-- Behind a minus sign, a text that does not start with another one is read as from the start. -/
theorem scan_minus {cs : List Char} (hne : cs ≠ []) (h : cs.head? ≠ some '-')
    (openers : List Opener) : scan ⟨.minus, openers⟩ cs = scan ⟨.code [], openers⟩ cs := by
  obtain ⟨c, cs, rfl⟩ := List.exists_cons_of_ne_nil hne
  have hc : c ≠ '-' := by simpa using h
  simp only [scan_cons, Scan.step, hc, if_false]

theorem neat_of_isNumeral {cs : List Char} (h : IsNumeral cs) : Neat cs := by
  cases h with
  | plain hcs => exact neat_of_isUnsigned hcs
  | @negative cs hcs =>
    obtain ⟨⟨word, openers, hscan, hclose⟩, -⟩ := neat_of_isUnsigned hcs
    obtain ⟨d, ds, rfl, hd⟩ := hcs.head
    have hminus : (d :: ds).head? ≠ some '-' := by
      rintro h
      cases h
      cases hd
    refine ⟨⟨word, openers, ?_, hclose⟩, rfl⟩
    rw [← hscan]
    exact scan_minus (by simp) hminus []

theorem isDigits_of_within {bound : Nat} {ds : List Char} (h : Index.within bound ds = true) :
    IsDigits ds := by
  simp only [Index.within, Bool.and_eq_true, Bool.not_eq_true', List.isEmpty_eq_false_iff,
    List.all_eq_true] at h
  exact h.1

/-- An index is made of digits, perhaps behind a sign. -/
theorem exists_digits_of_isIndex {text : String} (h : isIndex text = true) :
    ∃ ds, IsDigits ds ∧ text.toList ∈ ['-' :: ds, '+' :: ds, ds] := by
  unfold isIndex at h
  split at h
  · exact ⟨_, isDigits_of_within h, by simp [*]⟩
  · exact ⟨_, isDigits_of_within h, by simp [*]⟩
  · exact ⟨_, isDigits_of_within h, by simp⟩

theorem neat_of_isIndex {text : String} (h : isIndex text = true) : Neat text.toList := by
  obtain ⟨ds, hds, htext⟩ := exists_digits_of_isIndex h
  simp only [List.mem_cons, List.not_mem_nil, or_false] at htext
  rcases htext with htext | htext | htext
  · rw [htext]
    exact neat_of_isNumeral (.negative (.whole hds))
  · obtain ⟨word, openers, hscan, hclose⟩ := (isPlainWord_of_isDigits hds).reads
    rw [htext]
    exact ⟨⟨word, openers, hscan, hclose⟩, rfl⟩
  · rw [htext]
    exact neat_of_isUnsigned (.whole hds)

/-! ### String literals -/

/-- A string without line ends is closed by its quote. -/
theorem scan_quoted {cs : List Char} (h : IsQuoted cs) (hline : ∀ c ∈ cs, isLineEnd c = false)
    (openers : List Opener) :
    scan ⟨.string '"' false, openers⟩ cs = some ⟨.code [], openers⟩ := by
  induction h with
  | close => rfl
  | @plain c cs hquote hslash _ ih =>
    obtain ⟨hc, hcs⟩ := List.forall_mem_cons.1 hline
    have hstep : Scan.step ⟨.string '"' false, openers⟩ c = some ⟨.string '"' false, openers⟩ := by
      simp [Scan.step, Mode.aside, hc, hquote, hslash]
    rw [scan_cons, hstep, Option.bind_some, ih hcs]
  | @escape c cs _ ih =>
    obtain ⟨-, hrest⟩ := List.forall_mem_cons.1 hline
    obtain ⟨hc, hcs⟩ := List.forall_mem_cons.1 hrest
    have hslash : Scan.step ⟨.string '"' false, openers⟩ '\\' =
        some ⟨.string '"' true, openers⟩ := rfl
    have hstep : Scan.step ⟨.string '"' true, openers⟩ c = some ⟨.string '"' false, openers⟩ := by
      simp [Scan.step, Mode.aside, hc]
    rw [scan_cons, hslash, Option.bind_some, scan_cons, hstep, Option.bind_some, ih hcs]

theorem neat_of_isLiteral {cs : List Char} (h : IsLiteral cs)
    (hline : ∀ c ∈ cs, isLineEnd c = false) : Neat cs := by
  cases h with
  | mk hcs =>
    obtain ⟨-, hline⟩ := List.forall_mem_cons.1 hline
    exact ⟨Shuts.reads (scan_quoted hcs hline []), rfl⟩

theorem IsAtom.neat {text : String} (h : IsAtom text) : Neat text.toList := by
  cases h with
  | name h => exact neat_of_isName h
  | reference h _ => exact neat_of_isReference h
  | numeral h => exact neat_of_isNumeral h
  | index h => exact neat_of_isIndex h
  | literal h hline => exact neat_of_isLiteral h hline

/-- The escape of a line end. -/
def escapeLineEnd (c : Char) : List Char :=
  if c = '\n' then ['\\', 'n'] else if c = '\r' then ['\\', 'r'] else [c]

theorem isQuoted_escaped {cs : List Char} (h : IsQuoted cs) :
    IsQuoted (cs.flatMap escapeLineEnd) := by
  induction h with
  | close => exact .close
  | @plain c cs hquote hslash _ ih =>
    rw [List.flatMap_cons, escapeLineEnd]
    split
    · exact .escape 'n' ih
    · split
      · exact .escape 'r' ih
      · exact .plain hquote hslash ih
  | @escape c cs _ ih =>
    rw [List.flatMap_cons, List.flatMap_cons]
    show IsQuoted ('\\' :: (escapeLineEnd c ++ _))
    rw [escapeLineEnd]
    split
    · exact .escape '\\' (.plain (by decide) (by decide) ih)
    · split
      · exact .escape '\\' (.plain (by decide) (by decide) ih)
      · exact .escape c ih

theorem isLineEnd_escaped {cs : List Char} :
    ∀ c ∈ cs.flatMap escapeLineEnd, isLineEnd c = false := by
  intro c hc
  obtain ⟨d, -, hd⟩ := List.mem_flatMap.1 hc
  unfold escapeLineEnd at hd
  split at hd
  · exact (by simp [isLineEnd] : ∀ c ∈ ['\\', 'n'], isLineEnd c = false) c hd
  · split at hd
    · exact (by simp [isLineEnd] : ∀ c ∈ ['\\', 'r'], isLineEnd c = false) c hd
    · obtain rfl := List.mem_singleton.1 hd
      simp [isLineEnd, *]

/-- The string literals of a program are emitted closed and on one line. -/
theorem isAtom_stringText {text : String} (h : IsLiteral text.toList) :
    IsAtom (Gen.stringText text) := by
  have htext : (Gen.stringText text).toList = text.toList.flatMap escapeLineEnd :=
    String.toList_ofList
  refine .literal ?_ (htext ▸ isLineEnd_escaped)
  rw [htext]
  generalize text.toList = cs at h
  cases h with
  | mk hcs => exact .mk (isQuoted_escaped hcs)

/-! ### Names in quotes and comments -/

/-- The characters of names stand for themselves in strings and in comments. -/
theorem stays_of_isSubsequent {mode : Mode} {cs : List Char}
    (hmode : mode = .string '"' false ∨ mode = .line ∨ mode = .long false)
    (h : cs.all isSubsequent = true) : Stays mode cs := by
  intro c hc
  have hne : ∀ d, isSubsequent d = false → c ≠ d := by
    rintro d hd rfl
    rw [List.all_eq_true.1 h c hc] at hd
    cases hd
  have hline : isLineEnd c = false := by
    simp [isLineEnd, hne '\n' (by decide), hne '\r' (by decide)]
  rcases hmode with rfl | rfl | rfl
  · simp [Mode.aside, hline, hne '"' (by decide), hne '\\' (by decide)]
  · simp [Mode.aside, commentMode, hline]
  · simp [Mode.aside, hne ']' (by decide)]

end LispLua.Lua
