import LispLua.Proofs.Reading.Run

/-!
# Well-formed terms

The terms that can be written down: their leaves hold texts of the right token class, their paths
have segments, and their calls are made through something that can be called. Whatever is read from
a text is such a term.
-/

namespace LispLua

/-- A name that is not written like a number. -/
def IsName (cs : List Char) : Prop :=
  IsIdentifier cs ∧ ¬ IsNumeral cs

instance : DecidablePred IsName :=
  fun cs => inferInstanceAs (Decidable (IsIdentifier cs ∧ ¬ IsNumeral cs))

/-- A segment whose operator is read back: a question mark belongs to the operator, so a name behind
a plain one does not start with it. -/
structure Segment.WellFormed (s : Segment) : Prop where
  name : IsIdentifier s.name.text.toList
  link : s.link = .method ∨ s.link = .field → s.name.text.toList.head? ≠ some '?'

/-- A name and at least one segment. -/
structure Path.WellFormed (p : Path) : Prop where
  root : IsName p.root.text.toList
  ne_nil : p.segments ≠ []
  segments : ∀ s ∈ p.segments, s.WellFormed

/-- What a call can be made through. -/
def Term.IsTarget (t : Term) : Prop :=
  t.shape = .wildcard ∨ t.shape = .symbol ∨ t.shape = .number ∨ t.shape = .name ∨ t.shape = .path

instance : DecidablePred Term.IsTarget :=
  fun _ => inferInstanceAs (Decidable (_ ∨ _ ∨ _ ∨ _ ∨ _))

/-- A term that can be written down. -/
inductive Term.WellFormed : Term → Prop
  | list {items : List Term} {span : Span} :
      (∀ t ∈ items, t.WellFormed) → (Term.list items span).WellFormed
  | table {items : List Term} {escaped : Bool} {span : Span} :
      (∀ t ∈ items, t.WellFormed) → (Term.table items escaped span).WellFormed
  | call {target : Term} {args : List Term} {span : Span} :
      target.IsTarget → target.WellFormed → (∀ t ∈ args, t.WellFormed) →
        (Term.call target args span).WellFormed
  | path {p : Path} : p.WellFormed → (Term.path p).WellFormed
  | number {t : Token} : IsNumeral t.text.toList → (Term.number t).WellFormed
  | string {t : Token} : IsLiteral t.text.toList → (Term.string t).WellFormed
  | symbol {t : Token} : t.text.toList ≠ [] → (∀ c ∈ t.text.toList, isSubsequent c = true) →
      (Term.symbol t).WellFormed
  | name {t : Token} : IsName t.text.toList → (Term.name t).WellFormed
  | wildcard {t : Token} : t.text = "#'" → (Term.wildcard t).WellFormed

/-- A program of well-formed calls. -/
def Program.WellFormed (p : Program) : Prop :=
  ∀ c ∈ p, c.term.WellFormed

namespace Reader

variable {c d : Cursor}

theorem wellFormed_of_segment {s : Segment} (h : segment c = some (s, d)) : s.WellFormed := by
  obtain ⟨e, hl, hn, -⟩ := segment_eq_some_iff.1 h
  obtain ⟨rest, hc, rfl, -, hquery⟩ := link_eq_some_iff.1 hl
  obtain ⟨text, ht, -, hname⟩ := token_eq_some_iff.1 hn
  obtain ⟨hrun, hid⟩ := Lexeme.identifier_eq_some_iff.1 ht
  have hrest : (c.skip s.link.text.toList).rest = rest := by
    rw [Cursor.skip, hc, List.drop_left]
  rw [hrest] at hrun
  have htext : s.name.text.toList = text := by rw [hname, String.toList_ofList]
  refine ⟨htext ▸ hid, fun hlink hhead => hquery hlink ?_⟩
  -- the name is cut off the rest, so the two start alike
  have hsplit := List.takeWhile_append_dropWhile (p := isSubsequent) (l := rest)
  rw [← hrun] at hsplit
  rw [← hsplit, List.head?_append, ← htext, hhead]
  rfl

theorem wellFormed_of_reference {t : Term} (h : reference c = some (t, d)) (hn : number c = none) :
    t.WellFormed ∧ t.IsTarget := by
  obtain ⟨root, e, segments, hroot, hmany, ht⟩ := reference_eq_some h
  obtain ⟨text, hl, -, rfl⟩ := token_eq_some_iff.1 hroot
  obtain ⟨hrun, hid⟩ := Lexeme.identifier_eq_some_iff.1 hl
  have hname : IsName text := by
    refine ⟨hid, fun hnum => ?_⟩
    -- a run written like a number would have been read as one
    have := Lexeme.number_eq_some_iff.2 ⟨hrun, hnum⟩
    rw [token_eq_none_iff.1 hn] at this
    cases this
  rcases ht with ⟨-, rfl⟩ | ⟨hne, rfl⟩
  · exact ⟨.name (by simpa using hname), by simp [Term.IsTarget, Term.shape]⟩
  · refine ⟨.path ⟨by simpa using hname, hne, fun s hs => ?_⟩, by simp [Term.IsTarget, Term.shape]⟩
    obtain ⟨c', d', hs⟩ := exists_of_mem_many hmany hs
    exact wellFormed_of_segment hs

theorem wellFormed_of_target {t : Term} (h : target c = some (t, d)) :
    t.WellFormed ∧ t.IsTarget := by
  rcases target_eq_some h with ⟨_, hr, rfl⟩ | ⟨_, hr, rfl⟩ | ⟨_, hr, rfl⟩ | ⟨hn, hr⟩
  · obtain ⟨text, hl, -, rfl⟩ := token_eq_some_iff.1 hr
    obtain ⟨rfl, -⟩ := Lexeme.wildcard_eq_some_iff.1 hl
    exact ⟨.wildcard rfl, by simp [Term.IsTarget, Term.shape]⟩
  · obtain ⟨text, hl, -, rfl⟩ := symbol_eq_some_iff.1 hr
    obtain ⟨ds, -, rfl, hne⟩ := Lexeme.symbol_eq_some_iff.1 hl
    refine ⟨.symbol (by simpa using hne) fun c hc => ?_, by simp [Term.IsTarget, Term.shape]⟩
    rw [String.toList_ofList] at hc
    exact List.mem_takeWhile_imp hc
  · obtain ⟨text, hl, -, rfl⟩ := token_eq_some_iff.1 hr
    obtain ⟨-, hnum⟩ := Lexeme.number_eq_some_iff.1 hl
    exact ⟨.number (by simpa using hnum), by simp [Term.IsTarget, Term.shape]⟩
  · exact wellFormed_of_reference hr hn

section

variable {inner : Reader Term} (hinner : ∀ c d t, inner c = some (t, d) → t.WellFormed)
include hinner

theorem wellFormed_of_call {f : Call} (h : call inner c = some (f, d)) : f.term.WellFormed := by
  obtain ⟨_, _, _, _, _, -, -, ht, ha, -⟩ := call_eq_some h
  obtain ⟨hw, htarget⟩ := wellFormed_of_target ht
  refine .call htarget hw fun t hmem => ?_
  obtain ⟨_, _, h⟩ := exists_of_mem_many ha hmem
  obtain ⟨_, _, -, h⟩ := bind_eq_some_iff.1 h
  exact hinner _ _ t h

theorem wellFormed_of_terms {ts : List Term} (h : terms inner c = some (ts, d)) :
    ∀ t ∈ ts, t.WellFormed := by
  intro t hmem
  obtain ⟨_, _, h⟩ := exists_of_mem_many h hmem
  obtain ⟨_, _, ht, h⟩ := bind_eq_some_iff.1 h
  obtain ⟨_, _, -, h⟩ := bind_eq_some_iff.1 h
  obtain ⟨rfl, -⟩ := pure_eq_some_iff.1 h
  exact hinner _ _ _ ht

end

theorem wellFormed_of_term (depth : Nat) :
    ∀ (c d : Cursor) (t : Term), term depth c = some (t, d) → t.WellFormed := by
  induction depth with
  | zero =>
    intro c d t h
    cases h
  | succ depth ih =>
    intro c d t h
    rcases term_eq_some h with ⟨f, hr, rfl⟩ | hr | hr | ⟨_, hr, rfl⟩ | hr
    · exact wellFormed_of_call ih hr
    · obtain ⟨_, _, _, _, -, -, hitems, -, rfl⟩ := list_eq_some hr
      exact .list (wellFormed_of_terms ih hitems)
    · obtain ⟨_, _, _, _, _, _, -, -, -, hitems, -, rfl⟩ := table_eq_some hr
      exact .table (wellFormed_of_terms ih hitems)
    · obtain ⟨text, hl, -, rfl⟩ := token_eq_some_iff.1 hr
      exact .string (by simpa using (Lexeme.string_eq_some_iff.1 hl).1)
    · exact (wellFormed_of_target hr).1

end Reader

/-- What is read from a text is well formed. -/
theorem wellFormed_of_parse {text : String} {p : Program} (h : parse text = .ok p) :
    Program.WellFormed p := by
  intro f hf
  have hp : (Reader.program (Cursor.start text)).1 = p := by
    simp only [parse] at h
    split at h
    · exact Except.ok.inj h
    · cases h
  rw [← hp] at hf
  obtain ⟨c, d, hread⟩ := Reader.exists_of_mem_collect hf
  obtain ⟨_, _, hcall, hrest⟩ := Reader.bind_eq_some_iff.1 hread
  obtain ⟨_, _, -, hpure⟩ := Reader.bind_eq_some_iff.1 hrest
  obtain ⟨rfl, -⟩ := Reader.pure_eq_some_iff.1 hpure
  exact Reader.wellFormed_of_call (Reader.wellFormed_of_term _) hcall

end LispLua
