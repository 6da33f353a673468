import LispLua.Proofs.Reading.Reads

/-!
# Reading leaves

Tokens and paths are read back from their printed text. Neither carries its end with it, so each
needs a rest that does not go on with it.
-/

namespace LispLua

/-- A rest that ends any term in front of it. -/
structure Ends (rest : List Char) : Prop where
  stops : Stops rest
  colon : rest.head? ≠ some ':'

theorem ends_cons {c : Char} {rest : List Char} (h : isSubsequent c = false) (hc : c ≠ ':') :
    Ends (c :: rest) := by
  refine ⟨fun d hd => ?_, fun hd => hc (Option.some.inj hd)⟩
  cases hd
  exact h

theorem isSubsequent_of_isBlank {c : Char} (h : isBlank c = true) : isSubsequent c = false := by
  simp only [isBlank, Bool.or_eq_true, beq_iff_eq] at h
  rcases h with ((rfl | rfl) | rfl) | rfl <;> decide

theorem Trivia.ends {gap rest : List Char} (h : Trivia gap) (hne : gap ≠ []) :
    Ends (gap ++ rest) := by
  obtain ⟨c, ds, rfl, hc⟩ := h.head hne
  rcases hc with hc | rfl | rfl
  · refine ends_cons (isSubsequent_of_isBlank hc) ?_
    rintro rfl
    cases hc
  · exact ends_cons (by decide) (by decide)
  · exact ends_cons (by decide) (by decide)

/-- Trivia do not hide the end of a bracket. -/
theorem Trivia.ends_append {gap rest : List Char} (h : Trivia gap) (hrest : Ends rest) :
    Ends (gap ++ rest) := by
  by_cases hne : gap = []
  · rwa [hne]
  · exact h.ends hne

namespace Reader

variable {cs rest : List Char}

/-! ### Leaves -/

/-- A run of name characters in front of a rest that stops it. -/
theorem reads_run {l : Lexeme} {p : List Char → Prop}
    (hl : ∀ cs text, l cs = some text ↔ text = cs.takeWhile isSubsequent ∧ p text) (hp : p cs)
    (hrun : ∀ c ∈ cs, isSubsequent c = true) (hrest : Stops rest) :
    Reads (token l) (fun t => t.text = String.ofList cs) cs rest :=
  reads_token ((hl _ _).2 ⟨(takeWhile_run hrun hrest).symm, hp⟩)

theorem reads_identifier (h : IsIdentifier cs) (hrest : Stops rest) :
    Reads (token Lexeme.identifier) (fun t => t.text = String.ofList cs) cs rest :=
  reads_run (fun _ _ => Lexeme.identifier_eq_some_iff) h h.isSubsequent hrest

theorem reads_number (h : IsNumeral cs) (hrest : Stops rest) :
    Reads number (fun t => t.text = String.ofList cs) cs rest :=
  reads_run (fun _ _ => Lexeme.number_eq_some_iff) h h.isSubsequent hrest

/-- A name is no number, wherever it ends. -/
theorem refuses_number (h : IsName cs) (hrest : Stops rest) : Refuses number (cs ++ rest) := by
  refine refuses_token ?_
  cases hn : Lexeme.number (cs ++ rest) with
  | none => rfl
  | some text =>
    obtain ⟨hrun, hnum⟩ := Lexeme.number_eq_some_iff.1 hn
    rw [takeWhile_run h.1.isSubsequent hrest] at hrun
    exact absurd (hrun ▸ hnum) h.2

theorem reads_symbol (hne : cs ≠ []) (hrun : ∀ c ∈ cs, isSubsequent c = true)
    (hrest : Stops rest) : Reads symbol (fun t => t.text = String.ofList cs) (':' :: cs) rest := by
  have hl : Lexeme.symbol (':' :: cs ++ rest) = some (':' :: cs) := by
    refine Lexeme.symbol_eq_some_iff.2 ⟨cs ++ rest, rfl, ?_⟩
    rw [takeWhile_run hrun hrest]
    exact ⟨rfl, hne⟩
  refine (reads_lexeme hl).spanned.map ?_
  rintro ⟨text, span⟩ rfl
  rfl

theorem reads_string (h : IsLiteral cs) :
    Reads string (fun t => t.text = String.ofList cs) cs rest :=
  reads_token (Lexeme.string_eq_some_iff.2 ⟨h, List.prefix_append cs rest⟩)

theorem refuses_link (h : rest.head? ≠ some ':') : Refuses link rest := by
  intro p
  have hp : ∀ ds, ¬ ':' :: ds <+: rest := by
    rintro ds ⟨tail, rfl⟩
    exact h rfl
  simp [link_apply, hp]

theorem reads_link {l : Link} (hm : l = .method → rest.head? ≠ some ':')
    (hq : l = .method ∨ l = .field → rest.head? ≠ some '?') :
    Reads link (· = l) l.text.toList rest := by
  intro p
  refine ⟨l, p.after l.text.toList, link_eq_some_iff.2 ⟨rest, rfl, ?_, hm, hq⟩, rfl⟩
  rw [Cursor.skip, List.drop_left]

theorem reads_segment {s : Segment} (hs : s.WellFormed) (hrest : Stops rest) :
    Reads segment (fun s' => s'.bare = s.bare) (s.link.text.toList ++ s.name.text.toList) rest := by
  have hid := hs.name
  have hlink := hs.link
  cases hname : s.name.text.toList with
  | nil =>
    rw [hname] at hid
    exact hid.elim
  | cons c ds =>
    rw [hname] at hid hlink
    -- A name does not start with a colon, so the operator in front of it cannot be a longer one.
    have hcolon : c ≠ ':' := by
      rintro rfl
      exact absurd hid.1 (by decide)
    have hl : Reads link (· = s.link) s.link.text.toList (c :: ds ++ rest) :=
      reads_link (fun _ h => hcolon (Option.some.inj h)) hlink
    have hboth := hl.bind fun l hl => (reads_identifier hid hrest).map (Q := fun x : Link × Token =>
      x.1 = s.link ∧ x.2.text = s.name.text) (f := fun t => (l, t)) fun t ht => by
        refine ⟨hl, ?_⟩
        rw [ht, ← hname, String.ofList_toList]
    refine hboth.spanned.map ?_
    rintro ⟨⟨l, t⟩, span⟩ ⟨h₁, h₂⟩
    exact Segment.bare_congr h₁ h₂

/-- The text of a segment: its operator and its name. -/
theorem text_ne_nil (s : Segment) : s.link.text.toList ++ s.name.text.toList ≠ [] := by
  obtain ⟨l, name, span⟩ := s
  cases l <;> simp [Link.text]

/-- A segment starts with a colon, so a name ends in front of it. -/
theorem stops_segments (ss : List Segment) (hrest : Ends rest) :
    Stops ((ss.flatMap fun s => s.link.text.toList ++ s.name.text.toList) ++ rest) := by
  cases ss with
  | nil => exact hrest.stops
  | cons s ss =>
    obtain ⟨l, name, span⟩ := s
    intro c hc
    have hcolon : c = ':' := by cases l <;> simpa [Link.text, eq_comm] using hc
    rw [hcolon]
    decide

theorem readsMany_segment {ss : List Segment} (hs : ∀ s ∈ ss, s.WellFormed) (hrest : Ends rest) :
    ReadsMany segment (fun ss' => ss'.map Segment.bare = ss.map Segment.bare)
      (ss.flatMap fun s => s.link.text.toList ++ s.name.text.toList) rest := by
  induction ss with
  | nil => exact readsMany_nil (refuses_link hrest.colon).bind.spanned.bind rfl
  | cons s ss ih =>
    rw [List.flatMap_cons]
    exact .cons_map (reads_segment (hs s List.mem_cons_self) (stops_segments ss hrest))
      (text_ne_nil s) (ih fun s hmem => hs s (List.mem_cons_of_mem _ hmem))

/-- A name goes on as a path through the segments behind it. -/
theorem reads_reference {p : Path} (h : IsIdentifier p.root.text.toList)
    (hs : ∀ s ∈ p.segments, s.WellFormed) (hrest : Ends rest) :
    Reads reference (fun t => t.bare = (if p.segments = [] then Term.name p.root else .path p).bare)
      p.render.toList rest := by
  rw [Path.toList_render]
  have hroot := reads_identifier h (stops_segments p.segments hrest)
  have hparts := hroot.bind fun r hr => (readsMany_segment hs hrest).many.map
    (Q := fun x : Token × List Segment =>
      x.1.text = p.root.text ∧ x.2.map Segment.bare = p.segments.map Segment.bare)
    (f := fun ss' => (r, ss')) fun ss' hss => ⟨by rw [hr, String.ofList_toList], hss⟩
  refine hparts.spanned.bind_nil ?_
  rintro ⟨⟨r, ss⟩, span⟩ ⟨hr, hss⟩
  cases ss with
  | nil =>
    have hnil : p.segments = [] := List.map_eq_nil_iff.1 hss.symm
    refine reads_pure ?_
    rw [if_pos hnil, Term.bare, Term.bare, Token.bare_congr hr]
  | cons s ss =>
    have hne : p.segments ≠ [] := by
      intro hnil
      rw [hnil] at hss
      cases hss
    refine reads_pure ?_
    rw [if_neg hne, Term.bare, Term.bare, Path.bare, Path.bare, Token.bare_congr hr, hss]

/-! ### Targets -/

theorem refuses_wildcard (h : cs.head? ≠ some '#') : Refuses wildcard cs := by
  refine refuses_token ?_
  cases hw : Lexeme.wildcard cs with
  | none => rfl
  | some text =>
    obtain ⟨rfl, ds, rfl⟩ := Lexeme.wildcard_eq_some_iff.1 hw
    exact absurd rfl h

theorem refuses_symbol (h : cs.head? ≠ some ':') : Refuses symbol cs := by
  have hl : Lexeme.symbol cs = none := by
    cases hs : Lexeme.symbol cs with
    | none => rfl
    | some text =>
      obtain ⟨ds, rfl, -⟩ := Lexeme.symbol_eq_some_iff.1 hs
      exact absurd rfl h
  exact Refuses.bind (Refuses.spanned fun _ => lexeme_eq_none_iff.2 hl)

theorem refuses_string (h : cs.head? ≠ some '"') : Refuses string cs := by
  refine refuses_token ?_
  cases hs : Lexeme.string cs with
  | none => rfl
  | some text =>
    obtain ⟨⟨hq⟩, ds, rfl⟩ := Lexeme.string_eq_some_iff.1 hs
    exact absurd rfl h

/-- A run of name characters in front of anything starts with one. -/
theorem head_of_run (hne : cs ≠ []) (hrun : ∀ c ∈ cs, isSubsequent c = true) (tail : List Char) :
    ∃ c, (cs ++ tail).head? = some c ∧ isSubsequent c = true := by
  obtain ⟨c, ds, rfl⟩ := List.exists_cons_of_ne_nil hne
  exact ⟨c, rfl, hrun c List.mem_cons_self⟩

/-- The text of a target starts with a hash sign, a colon or a character of a name. -/
theorem head_of_target {t : Term} (h : t.WellFormed) (ht : t.IsTarget) :
    ∃ c, t.render.toList.head? = some c ∧ (c = '#' ∨ c = ':' ∨ isSubsequent c = true) := by
  cases h with
  | list _ | table _ | call _ _ _ | string _ => simp [Term.IsTarget, Term.shape] at ht
  | path h =>
    rw [Term.render, Path.toList_render]
    obtain ⟨c, hc, hrun⟩ := head_of_run h.root.1.ne_nil h.root.1.isSubsequent _
    exact ⟨c, hc, .inr (.inr hrun)⟩
  | number h =>
    obtain ⟨c, hc, hrun⟩ := head_of_run h.ne_nil h.isSubsequent []
    exact ⟨c, by rwa [List.append_nil] at hc, .inr (.inr hrun)⟩
  | symbol hne hrun => exact ⟨':', by rw [Term.render, String.toList_append]; rfl, .inr (.inl rfl)⟩
  | name h =>
    obtain ⟨c, hc, hrun⟩ := head_of_run h.1.ne_nil h.1.isSubsequent []
    exact ⟨c, by rwa [List.append_nil] at hc, .inr (.inr hrun)⟩
  | wildcard h => exact ⟨'#', by rw [Term.render, h]; rfl, .inl rfl⟩

theorem ne_of_isSubsequent {c x : Char} (hc : isSubsequent c = true)
    (hx : isSubsequent x = false) : some c ≠ some x := by
  intro h
  cases h
  rw [hc] at hx
  cases hx

/-- What starts with a character of a name is neither a wildcard nor a symbol. -/
theorem reads_target_of_run {P : Term → Prop} {c : Char} (hhead : (cs ++ rest).head? = some c)
    (hc : isSubsequent c = true)
    (h : Reads ((return .number (← number)) <|> reference) P cs rest) : Reads target P cs rest := by
  have hash : (cs ++ rest).head? ≠ some '#' := hhead ▸ ne_of_isSubsequent hc (by decide)
  have colon : (cs ++ rest).head? ≠ some ':' := hhead ▸ ne_of_isSubsequent hc (by decide)
  exact .orElse_right (refuses_wildcard hash).bind (.orElse_right (refuses_symbol colon).bind h)

/-- A name that may go on as a path is read as a target. -/
theorem reads_target_of_isName {p : Path} (h : IsName p.root.text.toList)
    (hs : ∀ s ∈ p.segments, s.WellFormed) (hrest : Ends rest) :
    Reads target (fun t => t.bare = (if p.segments = [] then Term.name p.root else .path p).bare)
      p.render.toList rest := by
  have hreference := reads_reference h.1 hs hrest
  rw [Path.toList_render] at hreference ⊢
  have hnumber := refuses_number h (stops_segments p.segments hrest)
  rw [← List.append_assoc] at hnumber
  obtain ⟨c, hhead, hc⟩ := head_of_run h.1.ne_nil h.1.isSubsequent
    ((p.segments.flatMap fun s => s.link.text.toList ++ s.name.text.toList) ++ rest)
  rw [← List.append_assoc] at hhead
  exact reads_target_of_run hhead hc (.orElse_right hnumber.bind hreference)

theorem reads_target {t : Term} (h : t.WellFormed) (ht : t.IsTarget) (hrest : Ends rest) :
    Reads target (fun t' => t'.bare = t.bare) t.render.toList rest := by
  have token {t u : Token} (h : u.text = String.ofList t.text.toList) : u.bare = t.bare :=
    Token.bare_congr (by rw [h, String.ofList_toList])
  cases h with
  | list _ | table _ | call _ _ _ | string _ => simp [Term.IsTarget, Term.shape] at ht
  | @path p h =>
    have hpath := reads_target_of_isName h.root h.segments hrest
    rwa [if_neg h.ne_nil] at hpath
  | number h =>
    obtain ⟨c, hhead, hc⟩ := head_of_run h.ne_nil h.isSubsequent rest
    refine reads_target_of_run hhead hc (.orElse_left ?_)
    exact (reads_number h hrest.stops).map fun u hu => congrArg Term.number (token hu)
  | @symbol t hne hrun =>
    have hr : (Term.symbol t).render.toList = ':' :: t.text.toList := by
      rw [Term.render, String.toList_append]
      rfl
    rw [hr]
    refine .orElse_right (refuses_wildcard (by simp)).bind (.orElse_left ?_)
    exact (reads_symbol hne hrun hrest.stops).map fun u hu => congrArg Term.symbol (token hu)
  | @name t h =>
    have hname := reads_target_of_isName (p := ⟨t, [], t.span⟩) h (by simp) hrest
    simpa [Path.toList_render, Term.render] using hname
  | @wildcard t h =>
    have hr : t.text.toList = ['#', '\''] := by rw [h]; rfl
    rw [Term.render, hr]
    refine .orElse_left ((reads_token rfl).map fun u hu => congrArg Term.wildcard (token ?_))
    rw [hr, hu]

end Reader

end LispLua
