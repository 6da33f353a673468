import LispLua.Term.Reader
import Mathlib.Data.List.TakeWhile

/-!
# Token classes

Which texts are tokens of a class, said apart from the functions that cut tokens off a text, and how
the two agree. A name and a number are cut off in the same way: both are the longest run of name
characters a text starts with, and the shape of that run decides which of the two it is.
-/

namespace LispLua

/-- A name: an initial character, then subsequent ones. -/
def IsIdentifier : List Char → Prop
  | [] => False
  | c :: cs => isInitial c = true ∧ ∀ d ∈ cs, isSubsequent d = true

instance : DecidablePred IsIdentifier
  | [] => inferInstanceAs (Decidable False)
  | c :: cs =>
    decidable_of_iff (isInitial c = true ∧ cs.all isSubsequent = true) (by simp [IsIdentifier])

/-- One decimal digit or more. -/
def IsDigits (cs : List Char) : Prop :=
  cs ≠ [] ∧ ∀ c ∈ cs, c.isDigit = true

/-- Digits, or digits on both sides of a point. -/
inductive IsUnsigned : List Char → Prop
  | whole {ds : List Char} : IsDigits ds → IsUnsigned ds
  | decimal {ds es : List Char} : IsDigits ds → IsDigits es → IsUnsigned (ds ++ '.' :: es)

/-- A number: an unsigned one, or a minus sign in front of one. -/
inductive IsNumeral : List Char → Prop
  | plain {cs : List Char} : IsUnsigned cs → IsNumeral cs
  | negative {cs : List Char} : IsUnsigned cs → IsNumeral ('-' :: cs)

/-- What stands behind the opening quote of a string literal, its closing quote included. -/
inductive IsQuoted : List Char → Prop
  | close : IsQuoted ['"']
  | plain {c : Char} {cs : List Char} : c ≠ '"' → c ≠ '\\' → IsQuoted cs → IsQuoted (c :: cs)
  | escape (c : Char) {cs : List Char} : IsQuoted cs → IsQuoted ('\\' :: c :: cs)

/-- A string literal from quote to quote. -/
inductive IsLiteral : List Char → Prop
  | mk {cs : List Char} : IsQuoted cs → IsLiteral ('"' :: cs)

/-- A text that does not start with a character of a name. -/
def Stops (rest : List Char) : Prop :=
  ∀ c, rest.head? = some c → isSubsequent c = false

theorem IsLiteral.head {cs : List Char} (h : IsLiteral cs) : cs.head? = some '"' := by
  cases h
  rfl

/-! ### Characters -/

theorem isSubsequent_of_isInitial {c : Char} (h : isInitial c = true) : isSubsequent c = true := by
  simp [isSubsequent, h]

theorem isSubsequent_of_isDigit {c : Char} (h : c.isDigit = true) : isSubsequent c = true := by
  have hc : c.toNat < 0x80 := by
    simp only [Char.isDigit, Bool.and_eq_true, decide_eq_true_eq, UInt32.le_iff_toNat_le] at h
    have h9 : '9'.val.toNat = 57 := rfl
    have := h.2
    simp only [Char.toNat]
    omega
  simp [isSubsequent, isNumeric, hc, h]

theorem isSubsequent_point : isSubsequent '.' = true := by decide

theorem isSubsequent_minus : isSubsequent '-' = true := by decide

/-! ### Runs of name characters -/

/-- A run of characters of a class is cut off as a whole in front of a character outside it. -/
theorem takeWhile_run {p : Char → Bool} {run rest : List Char} (hrun : ∀ c ∈ run, p c = true)
    (hrest : ∀ c, rest.head? = some c → p c = false) : (run ++ rest).takeWhile p = run := by
  have hnil : rest.takeWhile p = [] := by
    cases rest with
    | nil => rfl
    | cons c cs => simp [hrest c rfl]
  rw [List.takeWhile_append_of_pos hrun, hnil, List.append_nil]

theorem stops_iff {rest : List Char} : Stops rest ↔ rest.head?.any isSubsequent = false := by
  cases rest with
  | nil => simp [Stops]
  | cons c cs => simp [Stops]

theorem stops_dropWhile (cs : List Char) : Stops (cs.dropWhile isSubsequent) := by
  intro c hc
  simpa [hc] using List.head?_dropWhile_not isSubsequent cs

/-- What stops a name stops a run of digits too. -/
theorem Stops.isDigit {rest : List Char} (h : Stops rest) (c : Char) (hc : rest.head? = some c) :
    c.isDigit = false := by
  cases hd : c.isDigit with
  | false => rfl
  | true => exact absurd (isSubsequent_of_isDigit hd) (by simp [h c hc])

theorem IsIdentifier.isSubsequent {cs : List Char} (h : IsIdentifier cs) :
    ∀ c ∈ cs, isSubsequent c = true := by
  cases cs with
  | nil => exact h.elim
  | cons c cs =>
    intro d hd
    rcases List.mem_cons.1 hd with rfl | hd
    · exact isSubsequent_of_isInitial h.1
    · exact h.2 d hd

theorem IsIdentifier.ne_nil {cs : List Char} (h : IsIdentifier cs) : cs ≠ [] := by
  rintro rfl
  exact h

theorem IsDigits.isSubsequent {cs : List Char} (h : IsDigits cs) :
    ∀ c ∈ cs, isSubsequent c = true :=
  fun c hc => isSubsequent_of_isDigit (h.2 c hc)

theorem IsUnsigned.isSubsequent {cs : List Char} (h : IsUnsigned cs) :
    ∀ c ∈ cs, isSubsequent c = true := by
  cases h with
  | whole h => exact h.isSubsequent
  | decimal hd he =>
    intro c hc
    rcases List.mem_append.1 hc with hc | hc
    · exact hd.isSubsequent c hc
    · rcases List.mem_cons.1 hc with rfl | hc
      · exact isSubsequent_point
      · exact he.isSubsequent c hc

/-- An unsigned number starts with a digit. -/
theorem IsUnsigned.head {cs : List Char} (h : IsUnsigned cs) :
    ∃ d ds, cs = d :: ds ∧ d.isDigit = true := by
  have start {ds : List Char} (h : IsDigits ds) (tail : List Char) :
      ∃ d rest, ds ++ tail = d :: rest ∧ d.isDigit = true := by
    obtain ⟨d, rest, rfl⟩ := List.exists_cons_of_ne_nil h.1
    exact ⟨d, rest ++ tail, rfl, h.2 d (by simp)⟩
  cases h with
  | whole h => simpa using start h []
  | decimal hd he => exact start hd _

theorem isNumeral_minus_iff {cs : List Char} : IsNumeral ('-' :: cs) ↔ IsUnsigned cs := by
  refine ⟨fun h => ?_, .negative⟩
  cases h with
  | negative h => exact h
  | plain h =>
    obtain ⟨d, ds, hd, hdigit⟩ := h.head
    cases hd
    cases hdigit

theorem IsNumeral.ne_nil {cs : List Char} (h : IsNumeral cs) : cs ≠ [] := by
  cases h with
  | plain h =>
    obtain ⟨d, ds, rfl, -⟩ := h.head
    exact List.cons_ne_nil d ds
  | negative _ => exact List.cons_ne_nil _ _

theorem IsNumeral.isSubsequent {cs : List Char} (h : IsNumeral cs) :
    ∀ c ∈ cs, isSubsequent c = true := by
  cases h with
  | plain h => exact h.isSubsequent
  | negative h =>
    intro c hc
    rcases List.mem_cons.1 hc with rfl | hc
    · exact isSubsequent_minus
    · exact h.isSubsequent c hc

namespace Lexeme

/-! ### Names -/

/-- A name is the longest run of name characters, if that starts with an initial one. -/
theorem identifier_eq_some_iff {cs text : List Char} :
    identifier cs = some text ↔ text = cs.takeWhile isSubsequent ∧ IsIdentifier text := by
  cases cs with
  | nil =>
    constructor
    · rintro ⟨⟩
    · rintro ⟨rfl, h⟩
      exact h.elim
  | cons c cs =>
    by_cases hc : isInitial c = true
    · have hs := isSubsequent_of_isInitial hc
      simp only [identifier, hc, hs, if_true, List.takeWhile_cons, Option.some.injEq]
      constructor
      · rintro rfl
        exact ⟨rfl, hc, fun d hd => List.mem_takeWhile_imp hd⟩
      · rintro ⟨rfl, -⟩
        rfl
    · constructor
      · intro h
        simp [identifier, hc] at h
      · rintro ⟨rfl, h⟩
        simp only [List.takeWhile_cons] at h
        split at h
        · exact absurd h.1 hc
        · exact h.elim

/-- A colon and the run of name characters behind it, if there is one. -/
theorem symbol_eq_some_iff {cs text : List Char} :
    symbol cs = some text ↔
      ∃ ds, cs = ':' :: ds ∧ text = ':' :: ds.takeWhile isSubsequent ∧
        ds.takeWhile isSubsequent ≠ [] := by
  constructor
  · intro h
    unfold symbol at h
    split at h
    · rename_i ds
      split at h
      · cases h
      · rename_i hne
        cases h
        exact ⟨ds, rfl, rfl, hne⟩
    · cases h
  · rintro ⟨ds, rfl, rfl, hne⟩
    simp only [symbol]

/-! ### Numbers -/

theorem fraction_cases (cs : List Char) :
    fraction cs = [] ∨ ∃ es, IsDigits es ∧ fraction cs = '.' :: es ∧ '.' :: es <+: cs := by
  unfold fraction
  split
  · rename_i ds
    split
    · exact .inl rfl
    · rename_i hne
      refine .inr ⟨ds.takeWhile Char.isDigit, ⟨hne, fun c hc => List.mem_takeWhile_imp hc⟩, rfl, ?_⟩
      exact (List.prefix_cons_inj '.').2 (List.takeWhile_prefix _)
  · exact .inl rfl

theorem fraction_of_stops {rest : List Char} (h : Stops rest) : fraction rest = [] := by
  unfold fraction
  split
  · rename_i ds
    have := h '.' rfl
    rw [isSubsequent_point] at this
    cases this
  · rfl

theorem fraction_point {es rest : List Char} (he : IsDigits es) (hr : Stops rest) :
    fraction ('.' :: (es ++ rest)) = '.' :: es := by
  have ht := takeWhile_run he.2 hr.isDigit
  have hne := he.1
  cases es with
  | nil => exact absurd rfl hne
  | cons d ds => simp only [fraction, ht]

/-- Digits are taken first, then the fraction behind them, and what follows may refuse both. -/
theorem unsigned_digits {ds tail : List Char} (hd : IsDigits ds)
    (ht : ∀ c, tail.head? = some c → c.isDigit = false) :
    unsigned (ds ++ tail) =
      if (tail.drop (fraction tail).length).head?.any isSubsequent then none
      else some (ds ++ fraction tail) := by
  have hw := takeWhile_run hd.2 ht
  have hne := hd.1
  unfold unsigned
  rw [hw]
  split
  · contradiction
  · simp only [List.length_append, ← List.drop_drop, List.drop_left]

/-- An unsigned number is the longest run of name characters, if that is written like one. -/
theorem unsigned_eq_some_iff {cs text : List Char} :
    unsigned cs = some text ↔ text = cs.takeWhile isSubsequent ∧ IsUnsigned text := by
  constructor
  · intro h
    by_cases hnil : cs.takeWhile Char.isDigit = []
    · simp [unsigned, hnil] at h
    have hd : IsDigits (cs.takeWhile Char.isDigit) :=
      ⟨hnil, fun c hc => List.mem_takeWhile_imp hc⟩
    have ht : ∀ c, (cs.dropWhile Char.isDigit).head? = some c → c.isDigit = false := by
      intro c hc
      simpa [hc] using List.head?_dropWhile_not Char.isDigit cs
    have hcs := List.takeWhile_append_dropWhile (p := Char.isDigit) (l := cs)
    generalize cs.takeWhile Char.isDigit = ds at hd hcs
    generalize cs.dropWhile Char.isDigit = tail at ht hcs
    subst hcs
    rw [unsigned_digits hd ht] at h
    split at h
    · cases h
    · rename_i hstop
      cases h
      have hstop : Stops (tail.drop (fraction tail).length) := stops_iff.2 (by simpa using hstop)
      rcases fraction_cases tail with hf | ⟨es, he, hf, rest, rfl⟩
      · rw [hf, List.length_nil, List.drop_zero] at hstop
        rw [hf, List.append_nil, takeWhile_run hd.isSubsequent hstop]
        exact ⟨rfl, .whole hd⟩
      · rw [hf, List.drop_left] at hstop
        rw [hf, ← List.append_assoc, takeWhile_run (IsUnsigned.decimal hd he).isSubsequent hstop]
        exact ⟨rfl, .decimal hd he⟩
  · rintro ⟨htext, h⟩
    have hcs : cs = text ++ cs.dropWhile isSubsequent := by
      rw [htext, List.takeWhile_append_dropWhile]
    have hstop := stops_dropWhile cs
    generalize cs.dropWhile isSubsequent = rest at hcs hstop
    subst hcs
    have hany := stops_iff.1 hstop
    cases h with
    | whole hd =>
      rw [unsigned_digits hd hstop.isDigit, fraction_of_stops hstop]
      simp [hany]
    | decimal hd he =>
      rw [List.append_assoc, List.cons_append, unsigned_digits hd (by simp),
        fraction_point he hstop]
      simp [hany]

/-- A number is the longest run of name characters, if that is written like a number. -/
theorem number_eq_some_iff {cs text : List Char} :
    number cs = some text ↔ text = cs.takeWhile isSubsequent ∧ IsNumeral text := by
  unfold number
  split
  · rename_i ds
    rw [Option.map_eq_some_iff, List.takeWhile_cons, isSubsequent_minus]
    constructor
    · rintro ⟨u, hu, rfl⟩
      obtain ⟨rfl, hu⟩ := unsigned_eq_some_iff.1 hu
      exact ⟨rfl, .negative hu⟩
    · rintro ⟨rfl, h⟩
      exact ⟨_, unsigned_eq_some_iff.2 ⟨rfl, isNumeral_minus_iff.1 h⟩, rfl⟩
  · rename_i hminus
    rw [unsigned_eq_some_iff]
    constructor
    · rintro ⟨rfl, h⟩
      exact ⟨rfl, .plain h⟩
    · rintro ⟨htext, h⟩
      refine ⟨htext, ?_⟩
      cases h with
      | plain h => exact h
      | negative h =>
        have hcs := List.takeWhile_append_dropWhile (p := isSubsequent) (l := cs)
        rw [← htext] at hcs
        exact absurd hcs.symm (hminus _)

/-! ### String literals -/

theorem quoted_sound {cs text : List Char} (h : quoted cs = some text) :
    IsQuoted text ∧ text <+: cs := by
  fun_induction quoted cs generalizing text with
  | case1 => cases h
  | case2 cs =>
    cases h
    exact ⟨.close, cs, rfl⟩
  | case3 => cases h
  | case4 c cs ih =>
    obtain ⟨inner, hinner, rfl⟩ := Option.map_eq_some_iff.1 h
    obtain ⟨hq, hp⟩ := ih hinner
    exact ⟨.escape c hq, by simpa using hp⟩
  | case5 c cs hquote hlast hescape ih =>
    obtain ⟨inner, hinner, rfl⟩ := Option.map_eq_some_iff.1 h
    obtain ⟨hq, hp⟩ := ih hinner
    refine ⟨.plain hquote (fun hc => ?_) hq, by simpa using hp⟩
    -- a backslash is either the last character or guards the next one
    cases cs with
    | nil => exact hlast hc rfl
    | cons d ds => exact hescape d ds hc rfl

theorem quoted_complete {text : List Char} (h : IsQuoted text) (rest : List Char) :
    quoted (text ++ rest) = some text := by
  induction h with
  | close => rfl
  | @plain c cs hquote hescape _ ih =>
    rw [List.cons_append, quoted, ih]
    · rfl
    · exact hquote
    · intro hc
      exact absurd hc hescape
    · intro d ds hc
      exact absurd hc hescape
  | escape c _ ih =>
    rw [List.cons_append, List.cons_append, quoted, ih]
    rfl

/-- A string literal is cut off at its first quote without a backslash. -/
theorem string_eq_some_iff {cs text : List Char} :
    string cs = some text ↔ IsLiteral text ∧ text <+: cs := by
  constructor
  · intro h
    unfold string at h
    split at h
    · obtain ⟨inner, hinner, rfl⟩ := Option.map_eq_some_iff.1 h
      obtain ⟨hq, hp⟩ := quoted_sound hinner
      exact ⟨.mk hq, by simpa using hp⟩
    · cases h
  · rintro ⟨⟨hq⟩, rest, rfl⟩
    rw [List.cons_append, string, quoted_complete hq]
    rfl

/-- The wildcard is one fixed text. -/
theorem wildcard_eq_some_iff {cs text : List Char} :
    wildcard cs = some text ↔ text = ['#', '\''] ∧ text <+: cs := by
  constructor
  · intro h
    unfold wildcard at h
    split at h
    · cases h
      exact ⟨rfl, by simp⟩
    · cases h
  · rintro ⟨rfl, rest, rfl⟩
    rfl

end Lexeme

/-! ### Token classes can be decided -/

instance : DecidablePred IsNumeral := fun cs =>
  decidable_of_iff (Lexeme.number cs = some cs) <| by
    rw [Lexeme.number_eq_some_iff]
    refine ⟨And.right, fun h => ⟨?_, h⟩⟩
    exact (List.takeWhile_eq_self_iff.2 h.isSubsequent).symm

instance : DecidablePred IsLiteral := fun cs =>
  decidable_of_iff (Lexeme.string cs = some cs) <| by
    rw [Lexeme.string_eq_some_iff]
    exact ⟨And.left, fun h => ⟨h, List.prefix_refl cs⟩⟩

end LispLua
