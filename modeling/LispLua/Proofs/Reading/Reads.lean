import LispLua.Proofs.Reading.Layout

/-!
# Readers in front of a rest

A reader is described by the text it takes in front of a given rest, so that descriptions of its
parts can be put together. Where a part ends depends on the rest, and each class of text says which
rest it needs.
-/

namespace LispLua

namespace Reader

variable {α β : Type} {r : Reader α} {k : α → Reader β} {P : α → Prop} {Q : β → Prop}
  {cs ds rest : List Char}

/-- In front of `rest`, the reader takes `cs` and gives a value with the property `P`. -/
def Reads (r : Reader α) (P : α → Prop) (cs rest : List Char) : Prop :=
  ∀ p, ∃ a q, r ⟨cs ++ rest, p⟩ = some (a, ⟨rest, q⟩) ∧ P a

/-- The reader takes nothing of a text. -/
def Refuses (r : Reader α) (cs : List Char) : Prop :=
  ∀ p, r ⟨cs, p⟩ = none

/-! ### Combinators -/

theorem reads_pure {a : α} (h : P a) : Reads (pure a) P [] rest :=
  fun p => ⟨a, p, rfl, h⟩

theorem Reads.bind (hr : Reads r P cs (ds ++ rest)) (hk : ∀ a, P a → Reads (k a) Q ds rest) :
    Reads (r >>= k) Q (cs ++ ds) rest := by
  intro p
  obtain ⟨a, q, hr, ha⟩ := hr p
  obtain ⟨b, q', hk, hb⟩ := hk a ha q
  rw [List.append_assoc]
  exact ⟨b, q', bind_eq_some_iff.2 ⟨a, _, hr, hk⟩, hb⟩

/-- A last step that takes nothing. -/
theorem Reads.bind_nil (hr : Reads r P cs rest) (hk : ∀ a, P a → Reads (k a) Q [] rest) :
    Reads (r >>= k) Q cs rest := by
  rw [← List.append_nil cs]
  exact Reads.bind hr hk

theorem Reads.map {f : α → β} (hr : Reads r P cs rest) (hf : ∀ a, P a → Q (f a)) :
    Reads (do return f (← r)) Q cs rest :=
  hr.bind_nil fun a ha => reads_pure (hf a ha)

theorem Reads.orElse_left {r' : Reader α} (h : Reads r P cs rest) : Reads (r <|> r') P cs rest := by
  intro p
  obtain ⟨a, q, hr, ha⟩ := h p
  exact ⟨a, q, orElse_eq_some_iff.2 (.inl hr), ha⟩

theorem Reads.orElse_right {r' : Reader α} (hr : Refuses r (cs ++ rest)) (h : Reads r' P cs rest) :
    Reads (r <|> r') P cs rest := by
  intro p
  obtain ⟨a, q, hr', ha⟩ := h p
  exact ⟨a, q, orElse_eq_some_iff.2 (.inr ⟨hr p, hr'⟩), ha⟩

theorem Reads.spanned (h : Reads r P cs rest) : Reads (spanned r) (fun x => P x.1) cs rest := by
  intro p
  obtain ⟨a, q, hr, ha⟩ := h p
  exact ⟨(a, ⟨p, q⟩), q, spanned_eq_some_iff.2 ⟨hr, rfl⟩, ha⟩

theorem Refuses.bind (h : Refuses r cs) : Refuses (r >>= k) cs := by
  intro p
  show (r ⟨cs, p⟩ >>= fun x => k x.1 x.2) = none
  rw [h p]
  rfl

theorem Refuses.spanned (h : Refuses r cs) : Refuses (spanned r) cs := by
  intro p
  show (r ⟨cs, p⟩ >>= fun x => some ((x.1, (⟨p, x.2.position⟩ : Span)), x.2)) = none
  rw [h p]
  rfl

theorem Refuses.orElse {r' : Reader α} (h : Refuses r cs) (h' : Refuses r' cs) :
    Refuses (r <|> r') cs := by
  intro p
  rw [orElse_apply, h p, h' p]
  rfl

/-- A sequence also refuses what its first reader takes if the second refuses the rest. -/
theorem Reads.refuses_bind (hr : Reads r P cs rest) (hk : ∀ a, Refuses (k a) rest) :
    Refuses (r >>= k) (cs ++ rest) := by
  intro p
  obtain ⟨a, q, hr, -⟩ := hr p
  show (r ⟨cs ++ rest, p⟩ >>= fun x => k x.1 x.2) = none
  rw [hr]
  exact hk a q

/-! ### Tokens -/

theorem reads_lexeme {l : Lexeme} (h : l (cs ++ rest) = some cs) :
    Reads (lexeme l) (· = cs) cs rest := by
  intro p
  refine ⟨cs, p.after cs, lexeme_eq_some_iff.2 ⟨h, ?_⟩, rfl⟩
  rw [Cursor.skip, List.drop_left]

theorem reads_token {l : Lexeme} (h : l (cs ++ rest) = some cs) :
    Reads (token l) (fun t => t.text = String.ofList cs) cs rest := by
  refine (reads_lexeme h).spanned.map ?_
  rintro ⟨text, span⟩ rfl
  rfl

theorem refuses_token {l : Lexeme} (h : l cs = none) : Refuses (token l) cs :=
  fun _ => token_eq_none_iff.2 h

theorem reads_char (x : Char) : Reads (char x) (fun _ => True) [x] rest :=
  fun _ => ⟨(), _, char_eq_some_iff.2 ⟨rfl, rfl⟩, trivial⟩

theorem refuses_char {x : Char} (h : cs.head? ≠ some x) : Refuses (char x) cs := by
  intro p
  cases hc : char x ⟨cs, p⟩ with
  | none => rfl
  | some y => exact absurd (char_eq_some_iff.1 hc).1 h

/-! ### Repetition -/

/-- In front of `rest`, repetition takes `cs` however often it is allowed to repeat beyond need. -/
def ReadsMany (r : Reader α) (P : List α → Prop) (cs rest : List Char) : Prop :=
  ∀ n p, cs.length ≤ n → ∃ as q, collect r n ⟨cs ++ rest, p⟩ = (as, ⟨rest, q⟩) ∧ P as

theorem readsMany_nil {P : List α → Prop} (h : Refuses r rest) (hP : P []) :
    ReadsMany r P [] rest := by
  intro n p _
  refine ⟨[], p, ?_, hP⟩
  cases n with
  | zero => rfl
  | succ n => rw [List.nil_append, collect, h p]

theorem ReadsMany.cons {P : α → Prop} {Q Q' : List α → Prop} (hr : Reads r P cs (ds ++ rest))
    (hne : cs ≠ []) (hm : ReadsMany r Q ds rest) (hcons : ∀ a as, P a → Q as → Q' (a :: as)) :
    ReadsMany r Q' (cs ++ ds) rest := by
  intro n p hn
  have hpos := List.length_pos_iff.2 hne
  rw [List.length_append] at hn
  obtain ⟨m, rfl⟩ : ∃ m, n = m + 1 := ⟨n - 1, by omega⟩
  obtain ⟨a, q, ha, hP⟩ := hr p
  obtain ⟨as, q', has, hQ⟩ := hm m q (by omega)
  refine ⟨a :: as, q', ?_, hcons a as hP hQ⟩
  rw [List.append_assoc, collect, ha]
  simp only [has]

/-- The first value and the others, each told by what `f` makes of it. -/
theorem ReadsMany.cons_map {f : α → β} {b : β} {bs : List β}
    (hr : Reads r (fun a => f a = b) cs (ds ++ rest)) (hne : cs ≠ [])
    (hm : ReadsMany r (fun as => as.map f = bs) ds rest) :
    ReadsMany r (fun as => as.map f = b :: bs) (cs ++ ds) rest := by
  refine .cons hr hne hm fun a as ha has => ?_
  rw [List.map_cons, ha, has]

theorem readsMany_nil_map (f : α → β) (h : Refuses r rest) :
    ReadsMany r (fun as => as.map f = []) [] rest :=
  readsMany_nil h rfl

theorem ReadsMany.single_map {f : α → β} {b : β} (hr : Reads r (fun a => f a = b) cs rest)
    (hne : cs ≠ []) (hrefuse : Refuses r rest) :
    ReadsMany r (fun as => as.map f = [b]) cs rest := by
  rw [← List.append_nil cs]
  exact .cons_map hr hne (readsMany_nil_map f hrefuse)

theorem ReadsMany.many {P : List α → Prop} (h : ReadsMany r P cs rest) :
    Reads (many r) P cs rest := by
  intro p
  obtain ⟨as, q, has, hP⟩ := h (cs ++ rest).length p (by simp)
  exact ⟨as, q, congrArg some has, hP⟩

/-! ### Trivia -/

theorem trivium_of_solid (h : Solid rest) : Lexeme.trivium rest = none := by
  cases rest with
  | nil => rfl
  | cons c cs =>
    obtain ⟨hblank, hcomma, hsemicolon⟩ := h c rfl
    have h₁ : Lexeme.blanks (c :: cs) = none := by simp [Lexeme.blanks, hblank]
    have h₂ : Lexeme.comment (c :: cs) = none := by simp [Lexeme.comment, hsemicolon]
    have h₃ : Lexeme.comma (c :: cs) = none := by simp [Lexeme.comma, hcomma]
    simp [Lexeme.trivium, h₁, h₂, h₃]

/-- A run of blanks goes up to the first character that is none, and not beyond solid text. -/
theorem takeWhile_blank (cs : List Char) (h : Solid rest) :
    (cs ++ rest).takeWhile isBlank = cs.takeWhile isBlank := by
  have hnil : rest.takeWhile isBlank = [] := by
    cases rest with
    | nil => rfl
    | cons c cs => simp [(h c rfl).1]
  rw [List.takeWhile_append, hnil, List.append_nil]
  split
  · rename_i hall
    exact ((List.takeWhile_prefix isBlank).eq_of_length hall).symm
  · rfl

/-- A comment goes up to the end of its line. -/
theorem comment_of_lineEnd {text tail : List Char} (htext : ∀ c ∈ text, c ≠ '\r' ∧ c ≠ '\n')
    (hend : ['\n'] <+: tail ∨ ['\r', '\n'] <+: tail) :
    Lexeme.comment (';' :: (text ++ tail)) = some (';' :: text) := by
  have hrun : (text ++ tail).takeWhile (fun c => c != '\r' && c != '\n') = text := by
    refine takeWhile_run (fun c hc => by simp [htext c hc]) fun c hc => ?_
    rcases hend with ⟨ds, rfl⟩ | ⟨ds, rfl⟩ <;> cases hc <;> rfl
  simp only [Lexeme.comment, hrun, List.drop_left]
  rcases hend with ⟨ds, rfl⟩ | ⟨ds, rfl⟩ <;> rfl

/-- Trivia are taken piece by piece, and what is left of them are trivia again. -/
theorem trivium_of_trivia {gap : List Char} (h : Trivia gap) (hne : gap ≠ []) (hrest : Solid rest) :
    ∃ piece gap', Lexeme.trivium (gap ++ rest) = some piece ∧ piece ≠ [] ∧
      gap = piece ++ gap' ∧ Trivia gap' := by
  cases h with
  | nil => exact absurd rfl hne
  | @blank c cs hc h =>
    refine ⟨c :: cs.takeWhile isBlank, cs.dropWhile isBlank, ?_, by simp, ?_, h.dropWhile⟩
    · have hb : Lexeme.blanks (c :: cs ++ rest) = some (c :: cs.takeWhile isBlank) := by
        simp [Lexeme.blanks, hc, takeWhile_blank cs hrest]
      simp only [Lexeme.trivium, hb]
      rfl
    · rw [List.cons_append, List.takeWhile_append_dropWhile]
  | @comma cs h => exact ⟨[','], cs, rfl, by simp, rfl, h⟩
  | @comment text cs htext hend h =>
    have hend : ['\n'] <+: cs ++ rest ∨ ['\r', '\n'] <+: cs ++ rest :=
      hend.imp (fun h => h.trans (List.prefix_append cs rest)) fun h =>
        h.trans (List.prefix_append cs rest)
    have hc : Lexeme.comment (';' :: (text ++ cs) ++ rest) = some (';' :: text) := by
      rw [List.cons_append, List.append_assoc]
      exact comment_of_lineEnd htext hend
    have hb : Lexeme.blanks (';' :: (text ++ cs) ++ rest) = none := rfl
    refine ⟨';' :: text, cs, ?_, by simp, rfl, h⟩
    simp only [Lexeme.trivium, hb, hc]
    rfl

theorem readsMany_trivium {gap : List Char} (h : Trivia gap) (hrest : Solid rest) :
    ReadsMany (lexeme Lexeme.trivium) (fun _ => True) gap rest := by
  induction hlen : gap.length using Nat.strongRecOn generalizing gap with
  | ind n ih =>
    by_cases hnil : gap = []
    · subst hnil
      exact readsMany_nil (fun _ => lexeme_eq_none_iff.2 (trivium_of_solid hrest)) trivial
    · obtain ⟨piece, gap', hpiece, hne, rfl, hgap⟩ := trivium_of_trivia h hnil hrest
      have hpos := List.length_pos_iff.2 hne
      rw [List.append_assoc] at hpiece
      rw [List.length_append] at hlen
      have hmany := ih gap'.length (by omega) hgap rfl
      exact .cons (reads_lexeme hpiece) hne hmany fun _ _ _ _ => trivial

theorem reads_trivia {gap : List Char} (h : Trivia gap) (hrest : Solid rest) :
    Reads trivia (fun _ => True) gap rest :=
  (readsMany_trivium h hrest).many.map fun _ _ => trivial

end Reader

end LispLua
