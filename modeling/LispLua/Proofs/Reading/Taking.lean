import LispLua.Proofs.Reading.Layout

/-!
# What readers take off a text

A reader takes a part off the start of what is left of a text and moves the position behind it.
Trivia are taken up to the first character of something else. Only at the end of a text can the last
of them be a comment without the end of its line.
-/

namespace LispLua

/-- Between two cursors of a text stands `cs`. -/
structure Cursor.Reaches (c : Cursor) (cs : List Char) (d : Cursor) : Prop where
  rest : c.rest = cs ++ d.rest
  position : d.position = c.position.after cs

namespace Cursor.Reaches

variable {c d e : Cursor} {cs ds : List Char}

theorem refl (c : Cursor) : c.Reaches [] c :=
  ⟨rfl, rfl⟩

theorem trans (h : c.Reaches cs d) (h' : d.Reaches ds e) : c.Reaches (cs ++ ds) e := by
  refine ⟨?_, ?_⟩
  · rw [h.rest, h'.rest, List.append_assoc]
  · rw [h'.position, h.position, Position.after_append]

theorem skip (h : cs <+: c.rest) : c.Reaches cs (c.skip cs) := by
  obtain ⟨rest, hrest⟩ := h
  refine ⟨?_, rfl⟩
  rw [Cursor.skip, ← hrest, List.drop_left]

theorem eq_skip (h : c.Reaches cs d) : d = c.skip cs := by
  rw [Cursor.skip, h.rest, List.drop_left, ← h.position]

end Cursor.Reaches

/-! ### Token classes -/

namespace Lexeme

/-- A token class cuts its tokens off the start of a text, and none of them is empty. -/
def Cuts (l : Lexeme) : Prop :=
  ∀ cs text, l cs = some text → text <+: cs ∧ text ≠ []

theorem cuts_identifier : Cuts identifier := by
  intro cs text h
  obtain ⟨hrun, hid⟩ := identifier_eq_some_iff.1 h
  exact ⟨hrun ▸ List.takeWhile_prefix _, hid.ne_nil⟩

theorem cuts_number : Cuts number := by
  intro cs text h
  obtain ⟨hrun, hnum⟩ := number_eq_some_iff.1 h
  exact ⟨hrun ▸ List.takeWhile_prefix _, hnum.ne_nil⟩

theorem cuts_symbol : Cuts symbol := by
  intro cs text h
  obtain ⟨ds, rfl, rfl, -⟩ := symbol_eq_some_iff.1 h
  exact ⟨(List.prefix_cons_inj ':').2 (List.takeWhile_prefix _), List.cons_ne_nil _ _⟩

theorem cuts_string : Cuts string := by
  intro cs text h
  obtain ⟨hlit, hcut⟩ := string_eq_some_iff.1 h
  refine ⟨hcut, ?_⟩
  cases hlit
  exact List.cons_ne_nil _ _

theorem cuts_wildcard : Cuts wildcard := by
  intro cs text h
  obtain ⟨rfl, hcut⟩ := wildcard_eq_some_iff.1 h
  exact ⟨hcut, List.cons_ne_nil _ _⟩

end Lexeme

/-! ### Trivia -/

/-- A comment without the end of its line. -/
def IsComment (cs : List Char) : Prop :=
  ∃ line, cs = ';' :: line ∧ ∀ c ∈ line, c ≠ '\r' ∧ c ≠ '\n'

theorem Trivia.of_blanks {cs : List Char} (h : ∀ c ∈ cs, isBlank c = true) : Trivia cs := by
  induction cs with
  | nil => exact .nil
  | cons c cs ih =>
    exact .blank (h c List.mem_cons_self) (ih fun d hd => h d (List.mem_cons_of_mem _ hd))

namespace Lexeme

theorem blanks_eq_some {cs text : List Char} (h : blanks cs = some text) :
    text = cs.takeWhile isBlank ∧ text ≠ [] := by
  simp only [blanks] at h
  split at h
  · cases h
  · rename_i hne
    cases h
    exact ⟨rfl, hne⟩

theorem comment_eq_some {cs text : List Char} (h : comment cs = some text) :
    ∃ line rest, text = ';' :: line ∧ cs = ';' :: (line ++ rest) ∧
      (∀ c ∈ line, c ≠ '\r' ∧ c ≠ '\n') ∧
      (rest = [] ∨ (∃ tail, rest = '\n' :: tail) ∨ ∃ tail, rest = '\r' :: '\n' :: tail) := by
  unfold comment at h
  split at h
  · rename_i ds
    generalize hline : (ds.takeWhile fun c => c != '\r' && c != '\n') = line at h
    have hbreaks : ∀ c ∈ line, c ≠ '\r' ∧ c ≠ '\n' := by
      intro c hc
      rw [← hline] at hc
      simpa using List.mem_takeWhile_imp hc
    obtain ⟨rest, hrest⟩ : line <+: ds := hline ▸ List.takeWhile_prefix _
    simp only [← hrest, List.drop_left] at h
    refine ⟨line, rest, ?_, by rw [hrest], hbreaks, ?_⟩ <;> split at h
    all_goals simp_all
  · cases h

theorem comma_eq_some {cs text : List Char} (h : comma cs = some text) :
    ∃ rest, text = [','] ∧ cs = ',' :: rest := by
  unfold comma at h
  split at h
  · cases h
    exact ⟨_, rfl, rfl⟩
  · cases h

theorem trivium_eq_some {cs text : List Char} (h : trivium cs = some text) :
    blanks cs = some text ∨ comment cs = some text ∨ comma cs = some text := by
  rw [trivium] at h
  cases hb : blanks cs with
  | some b =>
    rw [hb] at h
    exact .inl h
  | none =>
    cases hc : comment cs with
    | some c =>
      rw [hb, hc] at h
      exact .inr (.inl h)
    | none =>
      rw [hb, hc] at h
      exact .inr (.inr h)

theorem cuts_comment : Cuts comment := by
  intro cs text h
  obtain ⟨line, rest, rfl, rfl, -, -⟩ := comment_eq_some h
  exact ⟨List.prefix_append (';' :: line) rest, List.cons_ne_nil _ _⟩

theorem cuts_trivium : Cuts trivium := by
  intro cs text h
  rcases trivium_eq_some h with h | h | h
  · obtain ⟨rfl, hne⟩ := blanks_eq_some h
    exact ⟨List.takeWhile_prefix _, hne⟩
  · exact cuts_comment _ _ h
  · obtain ⟨rest, rfl, rfl⟩ := comma_eq_some h
    exact ⟨List.prefix_append [','] rest, List.cons_ne_nil _ _⟩

theorem trivium_blank {x : Char} (hx : isBlank x = true) (cs : List Char) :
    trivium (x :: cs) ≠ none := by
  simp [trivium, blanks, hx]

end Lexeme

/-- A blank that follows trivia belongs to them: neither a last comment nor what stops the reading
of trivia starts with one. -/
theorem exists_eq_cons_of_isBlank {x : Char} {gap last rest tail : List Char}
    (hx : isBlank x = true) (hlast : last = [] ∨ IsComment last)
    (hrest : Lexeme.trivium rest = none) (h : gap ++ (last ++ rest) = x :: tail) :
    ∃ g, gap = x :: g ∧ g ++ (last ++ rest) = tail := by
  cases gap with
  | cons y g =>
    cases h
    exact ⟨g, rfl, rfl⟩
  | nil =>
    rcases hlast with rfl | ⟨line, rfl, -⟩
    · rw [List.nil_append, List.nil_append] at h
      rw [h] at hrest
      exact absurd hrest (Lexeme.trivium_blank hx tail)
    · cases h
      exact absurd hx (by decide)

namespace Reader

variable {α : Type} {r : Reader α} {c d : Cursor}

/-- The repetition that skips trivia stops where no more of them stand. -/
theorem reaches_collect_trivium (n : Nat) (hn : c.rest.length ≤ n) :
    ∃ gap last, c.Reaches (gap ++ last) (collect (lexeme Lexeme.trivium) n c).2 ∧ Trivia gap ∧
      (last = [] ∨ IsComment last ∧ (collect (lexeme Lexeme.trivium) n c).2.rest = []) ∧
      Lexeme.trivium (collect (lexeme Lexeme.trivium) n c).2.rest = none := by
  induction n generalizing c with
  | zero =>
    have hnil : c.rest = [] := List.length_eq_zero_iff.1 (Nat.le_zero.1 hn)
    refine ⟨[], [], .refl c, .nil, .inl rfl, ?_⟩
    rw [collect, hnil]
    rfl
  | succ n ih =>
    cases ht : Lexeme.trivium c.rest with
    | none =>
      have hstop : collect (lexeme Lexeme.trivium) (n + 1) c = ([], c) := by
        rw [collect, lexeme_eq_none_iff.2 ht]
      rw [hstop]
      exact ⟨[], [], .refl c, .nil, .inl rfl, ht⟩
    | some text =>
      obtain ⟨hcut, hne⟩ := Lexeme.cuts_trivium _ _ ht
      have hstep := Cursor.Reaches.skip hcut
      have hgo : (collect (lexeme Lexeme.trivium) (n + 1) c).2 =
          (collect (lexeme Lexeme.trivium) n (c.skip text)).2 := by
        rw [collect, lexeme_eq_some_iff.2 ⟨ht, rfl⟩]
      have hlength : (c.skip text).rest.length ≤ n := by
        have hpos := List.length_pos_iff.2 hne
        have := congrArg List.length hstep.rest
        rw [List.length_append] at this
        omega
      obtain ⟨gap, last, hreach, hgap, hlast, hstop⟩ := ih hlength
      rw [hgo]
      have hcomment : last = [] ∨ IsComment last := hlast.imp_right And.left
      have hall := hstep.trans hreach
      rw [← List.append_assoc] at hall
      rcases Lexeme.trivium_eq_some ht with hb | hc | hm
      · obtain ⟨rfl, -⟩ := Lexeme.blanks_eq_some hb
        exact ⟨_, last, hall, (Trivia.of_blanks fun _ => List.mem_takeWhile_imp).append hgap, hlast,
          hstop⟩
      · obtain ⟨line, rest, rfl, hcs, hline, hend⟩ := Lexeme.comment_eq_some hc
        have hrest : gap ++ (last ++ (collect (lexeme Lexeme.trivium) n (c.skip (';' :: line))).2.rest) =
            rest := by
          rw [← List.append_assoc, ← hreach.rest, Cursor.skip, hcs, ← List.cons_append,
            List.drop_left]
        rcases hend with rfl | ⟨tail, rfl⟩ | ⟨tail, rfl⟩
        · -- The text ends with the comment.
          simp only [List.append_eq_nil_iff] at hrest
          obtain ⟨rfl, rfl, hnil⟩ := hrest
          refine ⟨[], ';' :: line, ?_, .nil, .inr ⟨⟨line, rfl, hline⟩, hnil⟩, hstop⟩
          simpa using hall
        · obtain ⟨g, rfl, -⟩ := exists_eq_cons_of_isBlank (by decide) hcomment hstop hrest
          exact ⟨_, last, hall, .comment hline (.inl (by simp)) hgap, hlast, hstop⟩
        · obtain ⟨g, rfl, htail⟩ := exists_eq_cons_of_isBlank (by decide) hcomment hstop hrest
          obtain ⟨g, rfl, -⟩ := exists_eq_cons_of_isBlank (by decide) hcomment hstop htail
          exact ⟨_, last, hall, .comment hline (.inr (by simp)) hgap, hlast, hstop⟩
      · obtain ⟨_, rfl, -⟩ := Lexeme.comma_eq_some hm
        exact ⟨_, last, hall, .comma hgap, hlast, hstop⟩

theorem trivia_eq_some_iff {u : Unit} :
    trivia c = some (u, d) ↔ d = (collect (lexeme Lexeme.trivium) c.rest.length c).2 := by
  rw [trivia, bind_eq_some_iff]
  constructor
  · rintro ⟨as, e, hm, hp⟩
    obtain ⟨-, rfl⟩ := pure_eq_some_iff.1 hp
    rw [Option.some.inj hm]
  · rintro rfl
    exact ⟨_, _, rfl, rfl⟩

/-- Trivia may end with a comment at the end of a text. -/
theorem reaches_trivia {u : Unit} (h : trivia c = some (u, d)) :
    ∃ gap last, c.Reaches (gap ++ last) d ∧ Trivia gap ∧
      (last = [] ∨ IsComment last ∧ d.rest = []) := by
  obtain rfl := trivia_eq_some_iff.1 h
  obtain ⟨gap, last, hreach, hgap, hlast, -⟩ := reaches_collect_trivium _ (Nat.le_refl c.rest.length)
  exact ⟨gap, last, hreach, hgap, hlast⟩

/-- In front of something else there are only trivia whose comments are complete. -/
theorem reaches_trivia_of_ne_nil {u : Unit} (h : trivia c = some (u, d)) (hd : d.rest ≠ []) :
    ∃ gap, c.Reaches gap d ∧ Trivia gap := by
  obtain ⟨gap, last, hreach, hgap, hlast⟩ := reaches_trivia h
  obtain rfl := hlast.resolve_right fun hend => hd hend.2
  rw [List.append_nil] at hreach
  exact ⟨gap, hreach, hgap⟩

/-! ### Tokens -/

theorem reaches_char {x : Char} {u : Unit} (h : char x c = some (u, d)) : c.Reaches [x] d := by
  obtain ⟨hhead, rfl⟩ := char_eq_some_iff.1 h
  exact .skip (singleton_prefix_iff.2 hhead)

/-- A token is cut off the text, and its span goes from end to end. -/
theorem reaches_token {l : Lexeme} (hl : l.Cuts) {t : Token} (h : token l c = some (t, d)) :
    c.Reaches t.text.toList d ∧ t.text.toList ≠ [] ∧ t.span = ⟨c.position, d.position⟩ := by
  obtain ⟨text, ht, rfl, rfl⟩ := token_eq_some_iff.1 h
  obtain ⟨hcut, hne⟩ := hl _ _ ht
  rw [String.toList_ofList]
  exact ⟨.skip hcut, hne, rfl⟩

/-- The span of a symbol has its colon in it, and its text has not. -/
theorem reaches_symbol {t : Token} (h : symbol c = some (t, d)) :
    c.Reaches (':' :: t.text.toList) d ∧ t.span = ⟨c.position, d.position⟩ := by
  obtain ⟨text, ht, rfl, rfl⟩ := symbol_eq_some_iff.1 h
  obtain ⟨hcut, -⟩ := Lexeme.cuts_symbol _ _ ht
  obtain ⟨ds, -, rfl, -⟩ := Lexeme.symbol_eq_some_iff.1 ht
  rw [String.toList_ofList]
  exact ⟨.skip hcut, rfl⟩

theorem reaches_link {l : Link} (h : link c = some (l, d)) : c.Reaches l.text.toList d := by
  obtain ⟨rest, hrest, rfl, -, -⟩ := link_eq_some_iff.1 h
  exact .skip ⟨rest, hrest.symm⟩

theorem reaches_quote {escaped : Bool} (h : quote c = some (escaped, d)) :
    c.Reaches (if escaped then ['\''] else []) d := by
  rcases orElse_eq_some_iff.1 h with h | ⟨-, h⟩
  · obtain ⟨u, e, hchar, hp⟩ := bind_eq_some_iff.1 h
    obtain ⟨rfl, rfl⟩ := pure_eq_some_iff.1 hp
    exact reaches_char hchar
  · obtain ⟨rfl, rfl⟩ := pure_eq_some_iff.1 h
    exact .refl _

/-! ### Repetition -/

/-- Readings one after the other. -/
inductive Run (r : Reader α) : Cursor → List α → Cursor → Prop
  | nil (c : Cursor) : Run r c [] c
  | cons {c e d : Cursor} {a : α} {as : List α} : r c = some (a, e) → Run r e as d →
      Run r c (a :: as) d

theorem run_collect (r : Reader α) (n : Nat) (c : Cursor) :
    Run r c (collect r n c).1 (collect r n c).2 := by
  induction n generalizing c with
  | zero => exact .nil c
  | succ n ih =>
    rw [collect]
    split
    · exact .nil _
    · rename_i hr
      exact .cons hr (ih _)

theorem run_many {as : List α} (h : many r c = some (as, d)) : Run r c as d := by
  have hrun := run_collect r c.rest.length c
  rwa [Option.some.inj h] at hrun

end Reader

end LispLua
