import LispLua.Proofs.Reading.Locality

/-!
# Readers make progress

A reader leaves an end of the text it is given. All readers of the grammar take something off the
text when they read, except those of trivia and of rows of terms, which may take nothing.
-/

namespace LispLua.Reader

variable {α β : Type} {r : Reader α} {k : α → Reader β} {c d : Cursor}

/-- What the reader leaves is an end of the text it is given. -/
def Leaves (r : Reader α) : Prop :=
  ∀ c d a, r c = some (a, d) → d.rest <:+ c.rest

/-- What the reader leaves is an end of the text it is given, and shorter. -/
def Advances (r : Reader α) : Prop :=
  ∀ c d a, r c = some (a, d) → d.rest <:+ c.rest ∧ d.rest.length < c.rest.length

theorem Advances.leaves (h : Advances r) : Leaves r :=
  fun c d a hr => (h c d a hr).1

theorem Advances.shortens (h : Advances r) : Shortens r :=
  fun c d a hr => (h c d a hr).2

/-! ### Combinators -/

theorem leaves_pure (a : α) : Leaves (pure a) := by
  intro c d b h
  obtain ⟨-, rfl⟩ := pure_eq_some_iff.1 h
  exact List.suffix_rfl

theorem Leaves.bind (hr : Leaves r) (hk : ∀ a, Leaves (k a)) : Leaves (r >>= k) := by
  intro c d b h
  obtain ⟨a, e, hread, hnext⟩ := bind_eq_some_iff.1 h
  exact (hk a e d b hnext).trans (hr c e a hread)

theorem Advances.bind (hr : Advances r) (hk : ∀ a, Leaves (k a)) : Advances (r >>= k) := by
  intro c d b h
  obtain ⟨a, e, hread, hnext⟩ := bind_eq_some_iff.1 h
  obtain ⟨hsuffix, hlt⟩ := hr c e a hread
  have hnext := hk a e d b hnext
  exact ⟨hnext.trans hsuffix, hnext.length_le.trans_lt hlt⟩

/-- Nothing need be taken before the step that takes something. -/
theorem Leaves.bind_advances (hr : Leaves r) (hk : ∀ a, Advances (k a)) : Advances (r >>= k) := by
  intro c d b h
  obtain ⟨a, e, hread, hnext⟩ := bind_eq_some_iff.1 h
  obtain ⟨hsuffix, hlt⟩ := hk a e d b hnext
  have hread := hr c e a hread
  exact ⟨hsuffix.trans hread, hlt.trans_le hread.length_le⟩

theorem Advances.spanned (h : Advances r) : Advances (spanned r) := by
  rintro c d ⟨a, span⟩ hread
  exact h c d a (spanned_eq_some_iff.1 hread).1

theorem leaves_of_run {as : List α} (hr : Leaves r) (h : Run r c as d) : d.rest <:+ c.rest := by
  induction h with
  | nil c => exact List.suffix_rfl
  | cons hread _ ih => exact ih.trans (hr _ _ _ hread)

theorem leaves_many (hr : Leaves r) : Leaves (many r) :=
  fun _ _ _ h => leaves_of_run hr (run_many h)

/-! ### Tokens -/

theorem advances_of_reaches (h : ∀ c d a, r c = some (a, d) → ∃ cs, c.Reaches cs d ∧ cs ≠ []) :
    Advances r := by
  intro c d a hread
  obtain ⟨cs, hreach, hne⟩ := h c d a hread
  exact ⟨⟨cs, hreach.rest.symm⟩, length_lt_of_reaches hreach hne⟩

theorem advances_lexeme {l : Lexeme} (hl : l.Cuts) : Advances (lexeme l) := by
  refine advances_of_reaches fun c d text h => ?_
  obtain ⟨htext, rfl⟩ := lexeme_eq_some_iff.1 h
  obtain ⟨hcut, hne⟩ := hl _ _ htext
  exact ⟨text, .skip hcut, hne⟩

theorem advances_token {l : Lexeme} (hl : l.Cuts) : Advances (token l) :=
  (advances_lexeme hl).spanned.bind fun _ => leaves_pure _

theorem advances_symbol : Advances symbol :=
  (advances_lexeme Lexeme.cuts_symbol).spanned.bind fun _ => leaves_pure _

theorem advances_char (x : Char) : Advances (char x) :=
  advances_of_reaches fun _ _ _ h => ⟨[x], reaches_char h, List.cons_ne_nil x []⟩

theorem leaves_trivia : Leaves trivia := by
  intro c d u h
  obtain ⟨gap, last, hreach, -, -⟩ := reaches_trivia h
  exact ⟨gap ++ last, hreach.rest.symm⟩

/-- Trivia behind what is read take nothing back. -/
theorem Advances.behind (h : Advances r) : Advances (do let a ← r; trivia; return a) :=
  h.bind fun _ => leaves_trivia.bind fun _ => leaves_pure _

/-! ### The grammar -/

theorem advances_segment : Advances segment := by
  refine advances_of_reaches fun c d s h => ?_
  obtain ⟨cs, hreach, hne, -⟩ := takes_segment h
  exact ⟨cs, hreach, hne⟩

theorem advances_reference : Advances reference := by
  refine ((advances_token Lexeme.cuts_identifier).bind fun _ => ?_).spanned.bind fun x => ?_
  · exact (leaves_many advances_segment.leaves).bind fun _ => leaves_pure _
  · obtain ⟨⟨root, segments⟩, span⟩ := x
    cases segments <;> exact leaves_pure _

theorem advances_target : Advances target := by
  refine advances_of_reaches fun c d t h => ?_
  obtain ⟨cs, hreach, ⟨x, hx, -⟩, -⟩ := takes_target h
  refine ⟨cs, hreach, ?_⟩
  rintro rfl
  cases hx

theorem Keeps.advances {near : List Char → List Char → Prop} {rs : Nat → Reader α}
    (h : Keeps near r rs) : Advances r := by
  refine advances_of_reaches fun c d a hread => ?_
  obtain ⟨cs, hreach, hne, -⟩ := h c d a hread
  exact ⟨cs, hreach, hne⟩

theorem advances_term (depth : Nat) : Advances (term depth) :=
  (keeps_term depth).advances

theorem leaves_terms {inner : Reader Term} (h : Advances inner) : Leaves (terms inner) :=
  leaves_many h.behind.leaves

/-- The readers of the grammar that take something whenever they read, and those that take nothing
away but what is in front. Trivia are read everywhere. -/
structure GrammarAdvances (depth : Nat) : Prop where
  call : Advances (call (term depth))
  term : Advances (term depth)
  target : Advances target
  list : Advances (list (Reader.term depth))
  table : Advances (table (Reader.term depth))
  reference : Advances reference
  segment : Advances segment
  identifier : Advances (token Lexeme.identifier)
  symbol : Advances symbol
  number : Advances number
  string : Advances string
  wildcard : Advances wildcard
  comment : Advances (lexeme Lexeme.comment)
  trivia : Leaves trivia
  terms : Leaves (terms (Reader.term depth))
  everywhere : ∀ c, ∃ d, Reader.trivia c = some ((), d)

theorem grammarAdvances (depth : Nat) : GrammarAdvances depth where
  call := (keeps_call (keeps_term depth) fun n _ => refuses_term n (.inl rfl)).advances
  term := advances_term depth
  target := advances_target
  list :=
    (keeps_list (keeps_term depth) fun n _ => refuses_term n (.inr (.inl rfl))).advances
  table :=
    (keeps_table (keeps_term depth) fun n _ => refuses_term n (.inr (.inr rfl))).advances
  reference := advances_reference
  segment := advances_segment
  identifier := advances_token Lexeme.cuts_identifier
  symbol := advances_symbol
  number := advances_token Lexeme.cuts_number
  string := advances_token Lexeme.cuts_string
  wildcard := advances_token Lexeme.cuts_wildcard
  comment := advances_lexeme Lexeme.cuts_comment
  trivia := leaves_trivia
  terms := leaves_terms (advances_term depth)
  everywhere _ := ⟨_, trivia_eq_some_iff.2 rfl⟩

end LispLua.Reader
