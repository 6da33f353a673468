import LispLua.Proofs.Reading.Token

/-!
# Runs of readers

What a reader gives at a cursor, for each way of putting readers together. With these lemmas a run
of a compound reader is taken apart into runs of its parts, and the readers themselves need not be
unfolded.
-/

namespace LispLua.Reader

variable {α β : Type} {r : Reader α} {c d : Cursor}

/-! ### Combinators -/

theorem bind_eq_some_iff {k : α → Reader β} {b : β} :
    (r >>= k) c = some (b, d) ↔ ∃ a e, r c = some (a, e) ∧ k a e = some (b, d) := by
  show (r c >>= fun x => k x.1 x.2) = some (b, d) ↔ _
  rw [Option.bind_eq_bind, Option.bind_eq_some_iff]
  constructor
  · rintro ⟨⟨a, e⟩, hr, hk⟩
    exact ⟨a, e, hr, hk⟩
  · rintro ⟨a, e, hr, hk⟩
    exact ⟨(a, e), hr, hk⟩

theorem pure_eq_some_iff {a b : α} : (pure a : Reader α) c = some (b, d) ↔ b = a ∧ d = c := by
  show some (a, c) = some (b, d) ↔ _
  rw [Option.some.injEq, Prod.mk.injEq, eq_comm, eq_comm (a := c)]

/-- A value made of what a reader gives. -/
theorem return_eq_some_iff {f : α → β} {b : β} :
    (do return f (← r) : Reader β) c = some (b, d) ↔ ∃ a, r c = some (a, d) ∧ b = f a := by
  rw [bind_eq_some_iff]
  constructor
  · rintro ⟨a, e, hr, hp⟩
    obtain ⟨rfl, rfl⟩ := pure_eq_some_iff.1 hp
    exact ⟨a, hr, rfl⟩
  · rintro ⟨a, hr, rfl⟩
    exact ⟨a, d, hr, rfl⟩

theorem return_eq_none_iff {f : α → β} : (do return f (← r) : Reader β) c = none ↔ r c = none := by
  show (r c >>= fun x => some (f x.1, x.2)) = none ↔ _
  cases r c <;> simp

theorem orElse_apply (r r' : Reader α) (c : Cursor) : (r <|> r') c = (r c <|> r' c) := rfl

/-- The second reader is tried only where the first refuses. -/
theorem orElse_eq_some_iff {r' : Reader α} {x : α × Cursor} :
    (r <|> r') c = some x ↔ r c = some x ∨ (r c = none ∧ r' c = some x) := by
  rw [orElse_apply]
  cases r c <;> simp

theorem lexeme_eq_some_iff {l : Lexeme} {text : List Char} :
    lexeme l c = some (text, d) ↔ l c.rest = some text ∧ d = c.skip text := by
  simp only [lexeme, Option.map_eq_some_iff, Prod.mk.injEq]
  constructor
  · rintro ⟨text, hl, rfl, rfl⟩
    exact ⟨hl, rfl⟩
  · rintro ⟨hl, rfl⟩
    exact ⟨text, hl, rfl, rfl⟩

theorem lexeme_eq_none_iff {l : Lexeme} : lexeme l c = none ↔ l c.rest = none := by
  simp [lexeme]

theorem spanned_eq_some_iff {a : α} {span : Span} :
    spanned r c = some ((a, span), d) ↔ r c = some (a, d) ∧ span = ⟨c.position, d.position⟩ := by
  show (r c >>= fun x => some ((x.1, (⟨c.position, x.2.position⟩ : Span)), x.2)) = _ ↔ _
  rw [Option.bind_eq_bind, Option.bind_eq_some_iff]
  constructor
  · rintro ⟨⟨b, e⟩, hr, h⟩
    cases h
    exact ⟨hr, rfl⟩
  · rintro ⟨hr, rfl⟩
    exact ⟨(a, d), hr, rfl⟩

/-! ### Tokens -/

/-- A value made of a token's text and span. -/
theorem spanned_lexeme_eq_some_iff {l : Lexeme} {f : List Char × Span → α} {a : α} :
    (do let x ← spanned (lexeme l); return f x) c = some (a, d) ↔
      ∃ text, l c.rest = some text ∧ d = c.skip text ∧ a = f (text, ⟨c.position, d.position⟩) := by
  rw [return_eq_some_iff]
  constructor
  · rintro ⟨⟨text, span⟩, hs, rfl⟩
    obtain ⟨hr, rfl⟩ := spanned_eq_some_iff.1 hs
    obtain ⟨hl, rfl⟩ := lexeme_eq_some_iff.1 hr
    exact ⟨text, hl, rfl, rfl⟩
  · rintro ⟨text, hl, rfl, rfl⟩
    exact ⟨(text, _), spanned_eq_some_iff.2 ⟨lexeme_eq_some_iff.2 ⟨hl, rfl⟩, rfl⟩, rfl⟩

theorem token_eq_some_iff {l : Lexeme} {t : Token} :
    token l c = some (t, d) ↔
      ∃ text, l c.rest = some text ∧ d = c.skip text ∧
        t = ⟨String.ofList text, c.position, d.position⟩ :=
  spanned_lexeme_eq_some_iff

theorem symbol_eq_some_iff {t : Token} :
    symbol c = some (t, d) ↔
      ∃ text, Lexeme.symbol c.rest = some text ∧ d = c.skip text ∧
        t = ⟨String.ofList (text.drop 1), c.position, d.position⟩ :=
  spanned_lexeme_eq_some_iff

theorem token_eq_none_iff {l : Lexeme} : token l c = none ↔ l c.rest = none := by
  constructor
  · intro h
    cases hl : l c.rest with
    | none => rfl
    | some text =>
      have := (token_eq_some_iff (d := c.skip text)).2 ⟨text, hl, rfl, rfl⟩
      rw [h] at this
      cases this
  · intro hl
    cases h : token l c with
    | none => rfl
    | some x =>
      obtain ⟨text, ht, -⟩ := token_eq_some_iff.1 h
      rw [hl] at ht
      cases ht

theorem literal_return_apply (xs : List Char) (a : α) :
    (do literal xs; return a : Reader α) c =
      if xs <+: c.rest then some (a, c.skip xs) else none := by
  have hrun : (do literal xs; return a : Reader α) c =
      (((if xs.isPrefixOf c.rest then some xs else none).map fun text => (text, c.skip text)).bind
        fun x => some ((), x.2)).bind fun x => some (a, x.2) := rfl
  rw [hrun]
  by_cases h : xs <+: c.rest
  · rw [if_pos h, if_pos (List.isPrefixOf_iff_prefix.2 h)]
    rfl
  · rw [if_neg h, if_neg (mt List.isPrefixOf_iff_prefix.1 h)]
    rfl

/-- A character is read where the text starts with it. -/
theorem char_eq_some_iff {x : Char} {u : Unit} :
    char x c = some (u, d) ↔ c.rest.head? = some x ∧ d = c.skip [x] := by
  rw [char, bind_eq_some_iff]
  constructor
  · rintro ⟨text, e, hl, hp⟩
    obtain ⟨hx, rfl⟩ := lexeme_eq_some_iff.1 hl
    obtain ⟨-, rfl⟩ := pure_eq_some_iff.1 hp
    split at hx
    · rename_i h
      cases hx
      exact ⟨h, rfl⟩
    · cases hx
  · rintro ⟨h, rfl⟩
    refine ⟨[x], _, lexeme_eq_some_iff.2 ⟨?_, rfl⟩, pure_eq_some_iff.2 ⟨rfl, rfl⟩⟩
    rw [if_pos h]

theorem link_apply :
    link c =
      if [':', ':', '?'] <+: c.rest then some (.optionalField, c.skip [':', ':', '?'])
      else if [':', ':'] <+: c.rest then some (.field, c.skip [':', ':'])
      else if [':', '?'] <+: c.rest then some (.optionalMethod, c.skip [':', '?'])
      else if [':'] <+: c.rest then some (.method, c.skip [':'])
      else none := by
  simp only [link, orElse_apply, literal_return_apply]
  repeat' split
  all_goals rfl

theorem singleton_prefix_iff {x : Char} {cs : List Char} : [x] <+: cs ↔ cs.head? = some x := by
  cases cs <;> simp [eq_comm]

/-- An operator is read where it is spelled out and no longer one is. -/
theorem link_eq_some_iff {l : Link} :
    link c = some (l, d) ↔
      ∃ rest, c.rest = l.text.toList ++ rest ∧ d = c.skip l.text.toList ∧
        (l = .method → rest.head? ≠ some ':') ∧
        (l = .method ∨ l = .field → rest.head? ≠ some '?') := by
  have texts : Link.method.text.toList = [':'] ∧ Link.field.text.toList = [':', ':'] ∧
      Link.optionalMethod.text.toList = [':', '?'] ∧
      Link.optionalField.text.toList = [':', ':', '?'] := by decide
  obtain ⟨hm, hf, hom, hof⟩ := texts
  rw [link_apply]
  constructor
  · intro h
    split at h
    · rename_i hp
      obtain ⟨rest, hr⟩ := hp
      cases h
      exact ⟨rest, by rw [hof, hr], by rw [hof], by simp, by simp⟩
    rename_i h₃
    split at h
    · rename_i hp
      obtain ⟨rest, hr⟩ := hp
      cases h
      simp only [← hr, List.cons_append, List.nil_append, List.cons_prefix_cons, true_and,
        singleton_prefix_iff] at h₃
      exact ⟨rest, by rw [hf, hr], by rw [hf], by simp, fun _ => h₃⟩
    rename_i h₂
    split at h
    · rename_i hp
      obtain ⟨rest, hr⟩ := hp
      cases h
      exact ⟨rest, by rw [hom, hr], by rw [hom], by simp, by simp⟩
    rename_i h₂'
    split at h
    · rename_i hp
      obtain ⟨rest, hr⟩ := hp
      cases h
      simp only [← hr, List.cons_append, List.nil_append, List.cons_prefix_cons, true_and,
        singleton_prefix_iff] at h₂ h₂'
      exact ⟨rest, by rw [hm, hr], by rw [hm], fun _ => h₂, fun _ => h₂'⟩
    · cases h
  · rintro ⟨rest, hr, rfl, hcolon, hquery⟩
    cases l with
    | method =>
      have hlong : ¬ [':', '?'] <+: rest := by
        rintro ⟨tail, rfl⟩
        exact hcolon rfl rfl
      simp [hr, hm, singleton_prefix_iff, hlong, hcolon, hquery]
    | field => simp [hr, hf, singleton_prefix_iff, hquery]
    | optionalMethod => simp [hr, hom, singleton_prefix_iff]
    | optionalField => simp [hr, hof]

/-! ### Repetition -/

/-- What is read by repetition is read by the repeated reader, somewhere. -/
theorem exists_of_mem_collect {n : Nat} {a : α} (h : a ∈ (collect r n c).1) :
    ∃ d e, r d = some (a, e) := by
  induction n generalizing c with
  | zero => cases h
  | succ n ih =>
    rw [collect] at h
    split at h
    · cases h
    · rename_i b next hr
      rcases List.mem_cons.1 h with rfl | h
      · exact ⟨c, next, hr⟩
      · exact ih h

theorem exists_of_mem_many {as : List α} {a : α} (h : many r c = some (as, d)) (ha : a ∈ as) :
    ∃ d e, r d = some (a, e) := by
  have hc : collect r c.rest.length c = (as, d) := Option.some.inj h
  exact exists_of_mem_collect (n := c.rest.length) (c := c) (by rw [hc]; exact ha)

/-! ### The grammar -/

theorem segment_eq_some_iff {s : Segment} :
    segment c = some (s, d) ↔
      ∃ e, link c = some (s.link, e) ∧ token Lexeme.identifier e = some (s.name, d) ∧
        s.span = ⟨c.position, d.position⟩ := by
  rw [segment, bind_eq_some_iff]
  constructor
  · rintro ⟨⟨⟨l, n⟩, span⟩, e, hs, hp⟩
    obtain ⟨hr, rfl⟩ := spanned_eq_some_iff.1 hs
    obtain ⟨l', e', hl, hn⟩ := bind_eq_some_iff.1 hr
    obtain ⟨n', e'', hn, hq⟩ := bind_eq_some_iff.1 hn
    obtain ⟨hv, rfl⟩ := pure_eq_some_iff.1 hq
    cases hv
    obtain ⟨rfl, rfl⟩ := pure_eq_some_iff.1 hp
    exact ⟨e', hl, hn, rfl⟩
  · rintro ⟨e, hl, hn, hspan⟩
    refine ⟨((s.link, s.name), s.span), d, spanned_eq_some_iff.2 ⟨?_, hspan⟩, rfl⟩
    exact bind_eq_some_iff.2 ⟨_, e, hl, bind_eq_some_iff.2 ⟨_, d, hn, rfl⟩⟩

/-- A name is a path if at least one segment follows it. -/
theorem reference_eq_some {t : Term} (h : reference c = some (t, d)) :
    ∃ root e segments, token Lexeme.identifier c = some (root, e) ∧
      many segment e = some (segments, d) ∧
      ((segments = [] ∧ t = .name root) ∨
        (segments ≠ [] ∧ t = .path ⟨root, segments, c.position, d.position⟩)) := by
  obtain ⟨⟨⟨root, segments⟩, span⟩, e, hs, ht⟩ := bind_eq_some_iff.1 h
  obtain ⟨hr, rfl⟩ := spanned_eq_some_iff.1 hs
  obtain ⟨root', e', hroot, hm⟩ := bind_eq_some_iff.1 hr
  obtain ⟨segments', e'', hm, hq⟩ := bind_eq_some_iff.1 hm
  obtain ⟨hv, rfl⟩ := pure_eq_some_iff.1 hq
  cases hv
  refine ⟨root, e', segments, hroot, ?_⟩
  cases segments with
  | nil =>
    obtain ⟨rfl, rfl⟩ := pure_eq_some_iff.1 ht
    exact ⟨hm, .inl ⟨rfl, rfl⟩⟩
  | cons s ss =>
    obtain ⟨rfl, rfl⟩ := pure_eq_some_iff.1 ht
    exact ⟨hm, .inr ⟨by simp, rfl⟩⟩

theorem target_eq_some {t : Term} (h : target c = some (t, d)) :
    (∃ token, wildcard c = some (token, d) ∧ t = .wildcard token) ∨
    (∃ token, symbol c = some (token, d) ∧ t = .symbol token) ∨
    (∃ token, number c = some (token, d) ∧ t = .number token) ∨
    (number c = none ∧ reference c = some (t, d)) := by
  rcases orElse_eq_some_iff.1 h with h | ⟨-, h⟩
  · exact .inl (return_eq_some_iff.1 h)
  rcases orElse_eq_some_iff.1 h with h | ⟨-, h⟩
  · exact .inr (.inl (return_eq_some_iff.1 h))
  rcases orElse_eq_some_iff.1 h with h | ⟨hn, h⟩
  · exact .inr (.inr (.inl (return_eq_some_iff.1 h)))
  · exact .inr (.inr (.inr ⟨return_eq_none_iff.1 hn, h⟩))

/-- The parts of a call: its target and its arguments, with trivia around each. -/
theorem call_eq_some {inner : Reader Term} {f : Call} (h : call inner c = some (f, d)) :
    ∃ e₁ e₂ e₃ e₄ e₅, char '(' c = some ((), e₁) ∧ trivia e₁ = some ((), e₂) ∧
      target e₂ = some (f.target, e₃) ∧
      many (do trivia; inner) e₃ = some (f.args, e₄) ∧ trivia e₄ = some ((), e₅) ∧
      char ')' e₅ = some ((), d) ∧ f.span = ⟨c.position, d.position⟩ := by
  obtain ⟨⟨⟨t, args⟩, span⟩, e, hs, hp⟩ := bind_eq_some_iff.1 h
  obtain ⟨rfl, rfl⟩ := pure_eq_some_iff.1 hp
  obtain ⟨hr, rfl⟩ := spanned_eq_some_iff.1 hs
  obtain ⟨_, e₁, h₁, hr⟩ := bind_eq_some_iff.1 hr
  obtain ⟨_, e₂, h₂, hr⟩ := bind_eq_some_iff.1 hr
  obtain ⟨t', e₃, h₃, hr⟩ := bind_eq_some_iff.1 hr
  obtain ⟨args', e₄, h₄, hr⟩ := bind_eq_some_iff.1 hr
  obtain ⟨_, e₅, h₅, hr⟩ := bind_eq_some_iff.1 hr
  obtain ⟨_, e₆, h₆, hr⟩ := bind_eq_some_iff.1 hr
  obtain ⟨hv, rfl⟩ := pure_eq_some_iff.1 hr
  cases hv
  exact ⟨e₁, e₂, e₃, e₄, e₅, h₁, h₂, h₃, h₄, h₅, h₆, rfl⟩

theorem list_eq_some {inner : Reader Term} {t : Term} (h : list inner c = some (t, d)) :
    ∃ e₁ e₂ e₃ items, char '[' c = some ((), e₁) ∧ trivia e₁ = some ((), e₂) ∧
      terms inner e₂ = some (items, e₃) ∧ char ']' e₃ = some ((), d) ∧
      t = .list items ⟨c.position, d.position⟩ := by
  obtain ⟨⟨items, span⟩, e, hs, hp⟩ := bind_eq_some_iff.1 h
  obtain ⟨rfl, rfl⟩ := pure_eq_some_iff.1 hp
  obtain ⟨hr, rfl⟩ := spanned_eq_some_iff.1 hs
  obtain ⟨_, e₁, h₁, hr⟩ := bind_eq_some_iff.1 hr
  obtain ⟨_, e₂, h₂, hr⟩ := bind_eq_some_iff.1 hr
  obtain ⟨items', e₃, h₃, hr⟩ := bind_eq_some_iff.1 hr
  obtain ⟨_, e₄, h₄, hr⟩ := bind_eq_some_iff.1 hr
  obtain ⟨rfl, rfl⟩ := pure_eq_some_iff.1 hr
  exact ⟨e₁, e₂, e₃, items, h₁, h₂, h₃, h₄, rfl⟩

theorem table_eq_some {inner : Reader Term} {t : Term} (h : table inner c = some (t, d)) :
    ∃ escaped e₀ e₁ e₂ e₃ items, quote c = some (escaped, e₀) ∧ char '\x7b' e₀ = some ((), e₁) ∧
      trivia e₁ = some ((), e₂) ∧ terms inner e₂ = some (items, e₃) ∧
      char '\x7d' e₃ = some ((), d) ∧ t = .table items escaped ⟨c.position, d.position⟩ := by
  obtain ⟨⟨⟨escaped, items⟩, span⟩, e, hs, hp⟩ := bind_eq_some_iff.1 h
  obtain ⟨rfl, rfl⟩ := pure_eq_some_iff.1 hp
  obtain ⟨hr, rfl⟩ := spanned_eq_some_iff.1 hs
  obtain ⟨escaped', e₀, h₀, hr⟩ := bind_eq_some_iff.1 hr
  obtain ⟨_, e₁, h₁, hr⟩ := bind_eq_some_iff.1 hr
  obtain ⟨_, e₂, h₂, hr⟩ := bind_eq_some_iff.1 hr
  obtain ⟨items', e₃, h₃, hr⟩ := bind_eq_some_iff.1 hr
  obtain ⟨_, e₄, h₄, hr⟩ := bind_eq_some_iff.1 hr
  obtain ⟨hv, rfl⟩ := pure_eq_some_iff.1 hr
  cases hv
  exact ⟨escaped, e₀, e₁, e₂, e₃, items, h₀, h₁, h₂, h₃, h₄, rfl⟩

theorem term_eq_some {depth : Nat} {t : Term} (h : term (depth + 1) c = some (t, d)) :
    (∃ f, call (term depth) c = some (f, d) ∧ t = f.term) ∨
    list (term depth) c = some (t, d) ∨
    table (term depth) c = some (t, d) ∨
    (∃ token, string c = some (token, d) ∧ t = .string token) ∨
    target c = some (t, d) := by
  rw [term] at h
  rcases orElse_eq_some_iff.1 h with h | ⟨-, h⟩
  · exact .inl (return_eq_some_iff.1 h)
  rcases orElse_eq_some_iff.1 h with h | ⟨-, h⟩
  · exact .inr (.inl h)
  rcases orElse_eq_some_iff.1 h with h | ⟨-, h⟩
  · exact .inr (.inr (.inl h))
  rcases orElse_eq_some_iff.1 h with h | ⟨-, h⟩
  · exact .inr (.inr (.inr (.inl (return_eq_some_iff.1 h))))
  · exact .inr (.inr (.inr (.inr h)))

end LispLua.Reader
