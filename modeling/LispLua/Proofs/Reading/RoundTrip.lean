import LispLua.Proofs.Reading.Leaf

/-!
# Reading layouts

A well-formed program is read back from every layout of it: the induction follows the nesting, and
in each bracket it follows the row of terms inside.
-/

namespace LispLua

namespace Reader

variable {cs rest : List Char}

/-! ### Rows -/

/-- A text that a reader takes for a term in front of every rest that ends it. -/
structure Legible (inner : Reader Term) (p : Term × List Char) : Prop where
  ne_nil : p.2 ≠ []
  solid : Solid p.2
  reads : ∀ {rest}, Ends rest → Reads inner (fun t => t.bare = p.1.bare) p.2 rest

theorem Legible.solid_append {inner : Reader Term} {p : Term × List Char} (h : Legible inner p)
    (tail : List Char) : Solid (p.2 ++ tail) :=
  h.solid.append h.ne_nil tail

section Rows

variable {inner : Reader Term} {pieces : List (Term × List Char)} {front gap back : List Char}

/-- Terms in a row are read one by one, each with the trivia behind it. -/
theorem readsMany_row (hpieces : ∀ p ∈ pieces, Legible inner p) (hne : pieces ≠ [])
    (hrow : Row pieces cs) (hback : Trivia back) (hends : Ends rest) (hsolid : Solid rest)
    (hrefuse : Refuses inner rest) :
    ReadsMany (do let t ← inner; trivia; return t)
      (fun ts => ts.map Term.bare = (pieces.map Prod.fst).map Term.bare) (cs ++ back) rest := by
  have piece {p : Term × List Char} {gap tail : List Char} (hp : Legible inner p)
      (hgap : Trivia gap) (hends : Ends (gap ++ tail)) (hsolid : Solid tail) :
      Reads (do let t ← inner; trivia; return t) (fun t => t.bare = p.1.bare) (p.2 ++ gap)
        tail := by
    refine (hp.reads hends).bind fun t ht => ?_
    exact (reads_trivia hgap hsolid).map fun _ _ => ht
  induction hrow with
  | nil => exact absurd rfl hne
  | single p =>
    have hp := hpieces p List.mem_cons_self
    have hne : p.2 ++ back ≠ [] := List.append_ne_nil_of_left_ne_nil hp.ne_nil back
    exact .single_map (piece hp hback (hback.ends_append hends) hsolid) hne hrefuse.bind
  | @cons p q ps gap cs hgap hgap' hrow ih =>
    have hp := hpieces p List.mem_cons_self
    have hq := hpieces q (List.mem_cons_of_mem p List.mem_cons_self)
    have hne : p.2 ++ gap ≠ [] := List.append_ne_nil_of_left_ne_nil hp.ne_nil gap
    -- The trivia behind a term end at the next term, which starts with none.
    have htail : Solid (cs ++ back ++ rest) := by
      obtain ⟨tail, rfl⟩ := hrow.exists_append
      simpa only [List.append_assoc] using hq.solid_append (tail ++ (back ++ rest))
    have hrow := ih (fun p hmem => hpieces p (List.mem_cons_of_mem _ hmem)) (List.cons_ne_nil q ps)
    have hall := ReadsMany.cons_map (piece hp hgap (hgap.ends hgap') htail) hne hrow
    simpa only [List.append_assoc, List.map_cons] using hall

/-- Terms in a row are read one by one, each with the trivia in front of it. -/
theorem readsMany_args (hpieces : ∀ p ∈ pieces, Legible inner p) (hne : pieces ≠ [])
    (hgap : Trivia gap) (hrow : Row pieces cs) (hback : Trivia back) (hends : Ends rest)
    (hsolid : Solid rest) (hrefuse : Refuses inner rest) :
    ReadsMany (do trivia; inner)
      (fun ts => ts.map Term.bare = (pieces.map Prod.fst).map Term.bare) (gap ++ cs)
      (back ++ rest) := by
  have piece {p : Term × List Char} {gap tail : List Char} (hp : Legible inner p)
      (hgap : Trivia gap) (hends : Ends tail) :
      Reads (do trivia; inner) (fun t => t.bare = p.1.bare) (gap ++ p.2) tail :=
    (reads_trivia hgap (hp.solid_append tail)).bind fun _ _ => hp.reads hends
  have stop : Refuses (do trivia; inner) (back ++ rest) :=
    (reads_trivia hback hsolid).refuses_bind fun _ => hrefuse
  induction hrow generalizing gap with
  | nil => exact absurd rfl hne
  | single p =>
    have hp := hpieces p List.mem_cons_self
    have hne : gap ++ p.2 ≠ [] := List.append_ne_nil_of_right_ne_nil gap hp.ne_nil
    exact .single_map (piece hp hgap (hback.ends_append hends)) hne stop
  | @cons p q ps gap' cs hgap' hne' hrow ih =>
    have hp := hpieces p List.mem_cons_self
    have hne : gap ++ p.2 ≠ [] := List.append_ne_nil_of_right_ne_nil gap hp.ne_nil
    have hrow := ih (fun p hmem => hpieces p (List.mem_cons_of_mem _ hmem)) (List.cons_ne_nil q ps)
      hgap'
    -- A gap between two terms is not empty, so it ends the first one.
    have hends : Ends (gap' ++ cs ++ (back ++ rest)) := by
      rw [List.append_assoc]
      exact hgap'.ends hne'
    have hall := ReadsMany.cons_map (piece hp hgap hends) hne hrow
    simpa only [List.append_assoc, List.map_cons] using hall

/-- What stands between two brackets is trivia and then terms. The trivia at the closing bracket
belong to the last term, or to those at the opening bracket if there is none. -/
theorem exists_reads_terms (hpieces : ∀ p ∈ pieces, Legible inner p) (hfront : Trivia front)
    (hrow : Row pieces cs) (hback : Trivia back) (hends : Ends rest) (hsolid : Solid rest)
    (hrefuse : Refuses inner rest) :
    ∃ gap body, front ++ (cs ++ back) = gap ++ body ∧ Trivia gap ∧ Solid (body ++ rest) ∧
      Reads (terms inner) (fun ts => ts.map Term.bare = (pieces.map Prod.fst).map Term.bare) body
        rest := by
  cases pieces with
  | nil =>
    cases hrow
    refine ⟨front ++ back, [], by simp, hfront.append hback, hsolid, ?_⟩
    exact (readsMany_nil_map Term.bare hrefuse.bind).many
  | cons p ps =>
    have hmany := readsMany_row hpieces (List.cons_ne_nil p ps) hrow hback hends hsolid hrefuse
    obtain ⟨tail, rfl⟩ := hrow.exists_append
    refine ⟨front, p.2 ++ tail ++ back, rfl, hfront, ?_, hmany.many⟩
    have hp := (hpieces p List.mem_cons_self).solid_append (tail ++ (back ++ rest))
    simpa only [List.append_assoc] using hp

/-- What stands between two brackets is read up to the closing one. -/
theorem reads_bracket {β : Type} {close : Char} {f : List Term → β} {Q : β → Prop}
    (hpieces : ∀ p ∈ pieces, Legible inner p) (hfront : Trivia front) (hrow : Row pieces cs)
    (hback : Trivia back) (hends : Ends (close :: rest)) (hsolid : Solid (close :: rest))
    (hrefuse : Refuses inner (close :: rest))
    (hQ : ∀ ts, ts.map Term.bare = (pieces.map Prod.fst).map Term.bare → Q (f ts)) :
    Reads (do trivia; let ts ← terms inner; char close; return f ts) Q
      (front ++ (cs ++ (back ++ [close]))) rest := by
  obtain ⟨gap, body, htext, hgap, hbody, hterms⟩ :=
    exists_reads_terms hpieces hfront hrow hback hends hsolid hrefuse
  have hall : Reads (do trivia; let ts ← terms inner; char close; return f ts) Q
      (gap ++ (body ++ [close])) rest := by
    refine Reads.bind (P := fun _ => True) ?_ fun _ _ => ?_
    · rw [List.append_assoc]
      exact reads_trivia hgap hbody
    · exact Reads.bind hterms fun ts hts => (reads_char close).map fun _ _ => hQ ts hts
  rwa [← List.append_assoc gap, ← htext, List.append_assoc, List.append_assoc] at hall

end Rows

/-! ### Terms -/

theorem refuses_call {inner : Reader Term} (h : cs.head? ≠ some '(') : Refuses (call inner) cs :=
  (refuses_char h).bind.spanned.bind

theorem refuses_list {inner : Reader Term} (h : cs.head? ≠ some '[') : Refuses (list inner) cs :=
  (refuses_char h).bind.spanned.bind

theorem refuses_table {inner : Reader Term} (hquote : cs.head? ≠ some '\'')
    (hbrace : cs.head? ≠ some '\x7b') : Refuses (table inner) cs := by
  have hq : Reads quote (fun _ => True) [] cs :=
    .orElse_right (refuses_char hquote).bind (reads_pure trivial)
  exact Refuses.bind (Refuses.spanned (hq.refuses_bind fun _ => (refuses_char hbrace).bind))

theorem refuses_token_of_stops {l : Lexeme} {p : List Char → Prop}
    (hl : ∀ cs text, l cs = some text ↔ text = cs.takeWhile isSubsequent ∧ p text) (hp : ¬ p [])
    (h : Stops cs) : Refuses (token l) cs := by
  refine refuses_token ?_
  cases ht : l cs with
  | none => rfl
  | some text =>
    obtain ⟨htext, hprop⟩ := (hl _ _).1 ht
    have hnil : ([] ++ cs).takeWhile isSubsequent = [] := takeWhile_run (by simp) h
    rw [htext, ← List.nil_append cs, hnil] at hprop
    exact absurd hprop hp

/-- No term starts with a bracket that closes. -/
theorem refuses_term {c : Char} (depth : Nat) (hc : c = ')' ∨ c = ']' ∨ c = '\x7d') :
    Refuses (term depth) (c :: rest) := by
  have hstops : Stops (c :: rest) := by
    intro d hd
    cases hd
    rcases hc with rfl | rfl | rfl <;> decide
  have hne {x : Char} (hx : x ≠ ')' ∧ x ≠ ']' ∧ x ≠ '\x7d') : (c :: rest).head? ≠ some x := by
    rintro h
    cases h
    rcases hc with rfl | rfl | rfl <;> simp at hx
  cases depth with
  | zero => exact fun _ => rfl
  | succ depth =>
    refine (refuses_call (hne (by decide))).bind.orElse ?_
    refine (refuses_list (hne (by decide))).orElse ?_
    refine (refuses_table (hne (by decide)) (hne (by decide))).orElse ?_
    refine (refuses_string (hne (by decide))).bind.orElse ?_
    refine (refuses_wildcard (hne (by decide))).bind.orElse ?_
    refine (refuses_symbol (hne (by decide))).bind.orElse ?_
    refine Refuses.orElse (Refuses.bind ?_) (Refuses.bind (Refuses.spanned (Refuses.bind ?_)))
    · exact refuses_token_of_stops (fun _ _ => Lexeme.number_eq_some_iff) (·.ne_nil rfl) hstops
    · exact refuses_token_of_stops (fun _ _ => Lexeme.identifier_eq_some_iff) (·.ne_nil rfl) hstops

/-- No trivia start with a bracket that closes, and no term goes on with one. -/
theorem solid_close {c : Char} (hc : c = ')' ∨ c = ']' ∨ c = '\x7d') : Solid (c :: rest) := by
  intro d hd
  cases hd
  rcases hc with rfl | rfl | rfl <;> decide

theorem ends_close {c : Char} (hc : c = ')' ∨ c = ']' ∨ c = '\x7d') : Ends (c :: rest) := by
  rcases hc with rfl | rfl | rfl <;> exact ends_cons (by decide) (by decide)

theorem solid_of_isSubsequent {c : Char} (h : isSubsequent c = true) :
    isBlank c = false ∧ c ≠ ',' ∧ c ≠ ';' := by
  refine ⟨?_, ?_, ?_⟩
  · cases hb : isBlank c with
    | false => rfl
    | true => exact absurd h (by rw [isSubsequent_of_isBlank hb]; decide)
  · rintro rfl
    exact absurd h (by decide)
  · rintro rfl
    exact absurd h (by decide)

theorem solid_of_head {c : Char} (hhead : cs.head? = some c)
    (hc : isBlank c = false ∧ c ≠ ',' ∧ c ≠ ';') : cs ≠ [] ∧ Solid cs := by
  refine ⟨fun hnil => by simp [hnil] at hhead, fun d hd => ?_⟩
  cases hhead.symm.trans hd
  exact hc

/-- The text of a term starts with solid text. -/
theorem solid_of_layout {t : Term} (h : t.WellFormed) (hl : Layout t cs) : cs ≠ [] ∧ Solid cs := by
  cases hl with
  | leaf hleaf =>
    rcases hleaf with ht | ht
    · obtain ⟨c, hhead, hc⟩ := head_of_target h ht
      rcases hc with rfl | rfl | hc
      · exact solid_of_head hhead (by decide)
      · exact solid_of_head hhead (by decide)
      · exact solid_of_head hhead (solid_of_isSubsequent hc)
    · cases h with
      | @string t hs =>
        refine solid_of_head (c := '"') ?_ (by decide)
        rw [Term.render, hs.head]
      | _ => cases ht
  | list _ _ _ _ _ => exact solid_of_head rfl (by decide)
  | table escaped _ _ _ _ _ => cases escaped <;> exact solid_of_head rfl (by decide)
  | call _ _ _ _ _ => exact solid_of_head rfl (by decide)

/-- Behind the target of a call its arguments are read. -/
theorem exists_reads_args {inner : Reader Term} {target : Term × List Char}
    {args : List (Term × List Char)} {back : List Char} (hrow : Row (target :: args) cs)
    (hargs : ∀ p ∈ args, Legible inner p) (hback : Trivia back) (hends : Ends rest)
    (hsolid : Solid rest) (hrefuse : Refuses inner rest) :
    ∃ tail, cs = target.2 ++ tail ∧ Ends (tail ++ (back ++ rest)) ∧
      Reads (many (do trivia; inner))
        (fun ts => ts.map Term.bare = (args.map Prod.fst).map Term.bare) tail (back ++ rest) := by
  cases hrow with
  | single =>
    have stop : Refuses (do trivia; inner) (back ++ rest) :=
      (reads_trivia hback hsolid).refuses_bind fun _ => hrefuse
    exact ⟨[], (List.append_nil _).symm, hback.ends_append hends,
      (readsMany_nil_map Term.bare stop).many⟩
  | @cons _ q ps gap cs hgap hne hrow =>
    refine ⟨gap ++ cs, rfl, ?_, ?_⟩
    · rw [List.append_assoc]
      exact hgap.ends hne
    · exact (readsMany_args hargs (List.cons_ne_nil q ps) hgap hrow hback hends hsolid hrefuse).many

section Brackets

variable {inner : Reader Term} {pieces : List (Term × List Char)} {front back : List Char}
  {span : Span}

theorem reads_list (hpieces : ∀ p ∈ pieces, Legible inner p) (hrefuse : Refuses inner (']' :: rest))
    (hfront : Trivia front) (hrow : Row pieces cs) (hback : Trivia back) :
    Reads (list inner) (fun t => t.bare = (Term.list (pieces.map Prod.fst) span).bare)
      ('[' :: (front ++ (cs ++ (back ++ [']'])))) rest := by
  have hclose : ']' = ')' ∨ ']' = ']' ∨ ']' = '\x7d' := .inr (.inl rfl)
  have hinside := reads_bracket (f := fun ts => ts)
    (Q := fun ts => ts.map Term.bare = (pieces.map Prod.fst).map Term.bare) hpieces hfront hrow
    hback (ends_close hclose) (solid_close hclose) hrefuse fun _ h => h
  refine ((reads_char '[').bind fun _ _ => hinside).spanned.map ?_
  rintro ⟨ts, span⟩ hts
  rw [Term.bare_list, Term.bare_list]
  exact congrArg (Term.list · .none) hts

/-- A quote is read where there is one, and nothing in front of a brace. -/
theorem reads_quote (escaped : Bool) :
    Reads quote (· = escaped) (if escaped then ['\''] else []) ('\x7b' :: rest) := by
  cases escaped with
  | false => exact .orElse_right (refuses_char (by simp)).bind (reads_pure rfl)
  | true => exact .orElse_left ((reads_char '\'').map fun _ _ => rfl)

theorem reads_table (escaped : Bool) (hpieces : ∀ p ∈ pieces, Legible inner p)
    (hrefuse : Refuses inner ('\x7d' :: rest)) (hfront : Trivia front) (hrow : Row pieces cs)
    (hback : Trivia back) :
    Reads (table inner) (fun t => t.bare = (Term.table (pieces.map Prod.fst) escaped span).bare)
      ((if escaped then ['\''] else []) ++ '\x7b' :: (front ++ (cs ++ (back ++ ['\x7d']))))
      rest := by
  have hclose : '\x7d' = ')' ∨ '\x7d' = ']' ∨ '\x7d' = '\x7d' := .inr (.inr rfl)
  have hparts : Reads (do
      let escaped ← quote
      char '\x7b'
      trivia
      let items ← terms inner
      char '\x7d'
      return (escaped, items))
      (fun x : Bool × List Term => x.1 = escaped ∧
        x.2.map Term.bare = (pieces.map Prod.fst).map Term.bare)
      ((if escaped then ['\''] else []) ++
        (['\x7b'] ++ (front ++ (cs ++ (back ++ ['\x7d']))))) rest := by
    refine Reads.bind (reads_quote escaped) ?_
    rintro e rfl
    refine (reads_char '\x7b').bind fun _ _ => ?_
    exact reads_bracket hpieces hfront hrow hback (ends_close hclose) (solid_close hclose) hrefuse
      fun _ h => ⟨rfl, h⟩
  refine hparts.spanned.map ?_
  rintro ⟨⟨e, ts⟩, span⟩ ⟨rfl, hts⟩
  rw [Term.bare_table, Term.bare_table]
  exact congrArg (Term.table · e .none) hts

theorem reads_call {target : Term × List Char} {args : List (Term × List Char)}
    (hw : (Term.call target.1 (args.map Prod.fst) span).WellFormed)
    (htarget : Layout target.1 target.2) (hargs : ∀ p ∈ args, Legible inner p)
    (hrefuse : Refuses inner (')' :: rest))
    (hfront : Trivia front) (hrow : Row (target :: args) cs) (hback : Trivia back) :
    Reads (call inner)
      (fun c => c.term.bare = (Term.call target.1 (args.map Prod.fst) span).bare)
      ('(' :: (front ++ (cs ++ (back ++ [')'])))) rest := by
  obtain ⟨tail, rfl, hends, hmany⟩ := exists_reads_args hrow hargs hback (ends_close (.inl rfl))
    (solid_close (.inl rfl)) hrefuse
  cases hw with
  | call ht hw _ =>
  have hread {rest : List Char} (h : Ends rest) :
      Reads Reader.target (fun t => t.bare = target.1.bare) target.2 rest := by
    rw [htarget.eq_render ht]
    exact reads_target hw ht h
  obtain ⟨hne, hsolid⟩ := solid_of_layout hw htarget
  have hparts : Reads (do
      char '('
      trivia
      let target ← Reader.target
      let args ← many (do trivia; inner)
      trivia
      char ')'
      return (target, args))
      (fun x : Term × List Term => x.1.bare = target.1.bare ∧
        x.2.map Term.bare = (args.map Prod.fst).map Term.bare)
      (['('] ++ (front ++ (target.2 ++ (tail ++ (back ++ [')']))))) rest := by
    refine (reads_char '(').bind fun _ _ => ?_
    refine (reads_trivia hfront ?_).bind fun _ _ => ?_
    · rw [List.append_assoc]
      exact hsolid.append hne _
    refine (hread ?_).bind fun t ht => ?_
    · rwa [List.append_assoc, List.append_assoc]
    refine Reads.bind (P := fun ts => ts.map Term.bare = (args.map Prod.fst).map Term.bare) ?_
      fun ts hts => ?_
    · rwa [List.append_assoc]
    refine (reads_trivia hback (solid_close (.inl rfl))).bind fun _ _ => ?_
    exact (reads_char ')').map fun _ _ => ⟨ht, hts⟩
  rw [List.append_assoc]
  refine hparts.spanned.map ?_
  rintro ⟨⟨t, ts⟩, span⟩ ⟨ht, hts⟩
  rw [Call.term, Term.bare_call, Term.bare_call]
  exact congrArg₂ (Term.call · · .none) ht hts

end Brackets

/-- A leaf starts like a string or a target and not like a bracket. -/
theorem reads_term_of_head {P : Term → Prop} {depth : Nat} {c : Char}
    (hhead : (cs ++ rest).head? = some c) (hc : c ≠ '(' ∧ c ≠ '[' ∧ c ≠ '\'' ∧ c ≠ '\x7b')
    (h : Reads ((return .string (← string)) <|> target) P cs rest) :
    Reads (term (depth + 1)) P cs rest := by
  have hne {x : Char} (hx : c ≠ x) : (cs ++ rest).head? ≠ some x := by
    rw [hhead]
    exact fun h => hx (Option.some.inj h)
  obtain ⟨hround, hsquare, hquote, hbrace⟩ := hc
  refine .orElse_right (refuses_call (hne hround)).bind ?_
  refine .orElse_right (refuses_list (hne hsquare)) ?_
  exact .orElse_right (refuses_table (hne hquote) (hne hbrace)) h

theorem reads_leaf {t : Term} {depth : Nat} (hw : t.WellFormed) (hleaf : t.IsLeaf)
    (hrest : Ends rest) :
    Reads (term (depth + 1)) (fun t' => t'.bare = t.bare) t.render.toList rest := by
  rcases hleaf with ht | ht
  · obtain ⟨c, hhead, hc⟩ := head_of_target hw ht
    replace hhead : (t.render.toList ++ rest).head? = some c := by
      rw [List.head?_append, hhead]
      rfl
    have hne {x : Char} (h₁ : x ≠ '#') (h₂ : x ≠ ':') (h₃ : isSubsequent x = false) : c ≠ x := by
      rintro rfl
      rcases hc with hc | hc | hc
      · exact h₁ hc
      · exact h₂ hc
      · exact absurd hc (by rw [h₃]; decide)
    refine reads_term_of_head hhead ⟨?_, ?_, ?_, ?_⟩ (.orElse_right (refuses_string ?_).bind ?_)
    iterate 4 exact hne (by decide) (by decide) (by decide)
    · rw [hhead]
      exact fun h => hne (by decide) (by decide) (by decide) (Option.some.inj h)
    · exact reads_target hw ht hrest
  · cases hw with
    | @string t hs =>
      have hhead : (t.text.toList ++ rest).head? = some '"' := by
        rw [List.head?_append, hs.head]
        rfl
      refine reads_term_of_head hhead (by decide) (.orElse_left ((reads_string hs).map ?_))
      intro u hu
      exact congrArg Term.string (Token.bare_congr (by rw [hu, String.ofList_toList]))
    | _ => cases ht

/-- A reader that takes terms from all their layouts of a bounded length. -/
def ReadsLayouts (inner : Reader Term) (n : Nat) : Prop :=
  ∀ t cs rest, t.WellFormed → Layout t cs → cs.length ≤ n → Ends rest →
    Reads inner (fun t' => t'.bare = t.bare) cs rest

/-- The terms in a row are legible to such a reader. -/
theorem ReadsLayouts.legible {inner : Reader Term} {n : Nat} (h : ReadsLayouts inner n)
    {pieces : List (Term × List Char)} (hw : ∀ t ∈ pieces.map Prod.fst, t.WellFormed)
    (hl : ∀ p ∈ pieces, Layout p.1 p.2) (hlen : ∀ p ∈ pieces, p.2.length ≤ n) :
    ∀ p ∈ pieces, Legible inner p := by
  intro p hp
  have hw := hw p.1 (List.mem_map_of_mem hp)
  obtain ⟨hne, hsolid⟩ := solid_of_layout hw (hl p hp)
  exact ⟨hne, hsolid, fun {rest} => h p.1 p.2 rest hw (hl p hp) (hlen p hp)⟩

/-- A call is read from each of its layouts, in front of anything. -/
theorem ReadsLayouts.call {depth n : Nat} (h : ReadsLayouts (term depth) n) {c : Call}
    (hw : c.term.WellFormed) (hl : Layout c.term cs) (hlen : cs.length ≤ n + 1) :
    Reads (call (term depth)) (fun c' => c'.term.bare = c.term.bare) cs rest := by
  obtain ⟨t, ts, span⟩ := c
  change Layout (.call t ts span) cs at hl
  cases hl with
  | leaf hleaf => rcases hleaf with hleaf | hleaf <;> simp [Term.IsTarget, Term.shape] at hleaf
  | @call target args front text back _ hl hfront hrow hback =>
    have hargs : ∀ t ∈ args.map Prod.fst, t.WellFormed := by
      cases hw with
      | call _ _ hargs => exact hargs
    have hlegible := h.legible hargs (fun p hp => hl p (List.mem_cons_of_mem _ hp)) fun p hp => by
      have := hrow.length_le (List.mem_cons_of_mem _ hp)
      simp only [List.length_cons, List.length_append] at hlen
      omega
    exact reads_call hw (hl target List.mem_cons_self) hlegible (refuses_term depth (.inl rfl))
      hfront hrow hback

/-- A term is read from each of its layouts. -/
theorem readsLayouts_term (depth : Nat) : ReadsLayouts (term depth) depth := by
  -- Brackets cost a level of nesting, but they also cost characters of the text.
  induction depth with
  | zero =>
    intro t cs rest hw hl hlen _
    exact absurd (List.length_eq_zero_iff.1 (Nat.le_zero.1 hlen)) (solid_of_layout hw hl).1
  | succ depth ih =>
    intro t cs rest hw hl hlen hrest
    cases hl with
    | leaf hleaf => exact reads_leaf hw hleaf hrest
    | @list pieces front text back span hl hfront hrow hback =>
      cases hw with
      | list hw =>
      have hpieces := ih.legible hw hl fun p hp => by
        have := hrow.length_le hp
        simp only [List.length_cons, List.length_append] at hlen
        omega
      refine .orElse_right (refuses_call (by simp)).bind (.orElse_left ?_)
      exact reads_list hpieces (refuses_term depth (.inr (.inl rfl))) hfront hrow hback
    | table escaped span hl hfront hrow hback =>
      cases hw with
      | table hw =>
      have hpieces := ih.legible hw hl fun p hp => by
        have := hrow.length_le hp
        simp only [List.length_cons, List.length_append] at hlen
        omega
      have hhead {x : Char} (hx : x ≠ '\'') (hx' : x ≠ '\x7b') (tail : List Char) :
          ((if escaped then ['\''] else []) ++ '\x7b' :: tail).head? ≠ some x := by
        cases escaped <;> simp [Ne.symm hx, Ne.symm hx']
      refine .orElse_right (refuses_call ?_).bind ?_
      · rw [List.append_assoc]
        exact hhead (by decide) (by decide) _
      refine .orElse_right (refuses_list ?_) (.orElse_left ?_)
      · rw [List.append_assoc]
        exact hhead (by decide) (by decide) _
      · exact reads_table escaped hpieces (refuses_term depth (.inr (.inr rfl))) hfront hrow hback
    | @call target args front text back span hl hfront hrow hback =>
      refine .orElse_left (Reads.map ?_ fun _ h => h)
      exact ih.call (c := ⟨target.1, args.map Prod.fst, span⟩) hw (.call span hl hfront hrow hback)
        hlen

/-! ### Programs -/

/-- A program is trivia and then calls, each with the trivia behind it. -/
theorem exists_reads_program {p : Program} {depth : Nat} (hw : Program.WellFormed p)
    (hl : ProgramLayout p cs) (hlen : cs.length ≤ depth) :
    ∃ gap body, cs = gap ++ body ∧ Trivia gap ∧ Solid body ∧
      ReadsMany (do let form ← call (term depth); trivia; return form)
        (fun q => Program.bare q = Program.bare p) body [] := by
  induction hl with
  | @nil gap hgap =>
    refine ⟨gap, [], (List.append_nil _).symm, hgap, (fun _ h => nomatch h), ?_⟩
    exact readsMany_nil_map _ (refuses_call (by simp)).bind
  | @cons c p gap text cs hgap htext _ ih =>
    simp only [List.length_append] at hlen
    have hwc := hw c List.mem_cons_self
    obtain ⟨gap', body, rfl, hgap', hbody, hmany⟩ :=
      ih (fun c hc => hw c (List.mem_cons_of_mem _ hc)) (by omega)
    obtain ⟨hne, hsolid⟩ := solid_of_layout hwc htext
    have hform : Reads (do let form ← call (term depth); trivia; return form)
        (fun f => f.term.bare = c.term.bare) (text ++ gap') (body ++ []) := by
      refine ((readsLayouts_term depth).call hwc htext (by omega)).bind fun f hf => ?_
      refine (reads_trivia hgap' ?_).map fun _ _ => hf
      rwa [List.append_nil]
    refine ⟨gap, text ++ gap' ++ body, by simp only [List.append_assoc], hgap, ?_, ?_⟩
    · rw [List.append_assoc]
      exact hsolid.append hne _
    · exact .cons_map hform (List.append_ne_nil_of_left_ne_nil hne gap') hmany

end Reader

/-- A program is read from each of its layouts. -/
theorem parse_of_layout {p : Program} {cs : List Char} (hw : Program.WellFormed p)
    (hl : ProgramLayout p cs) :
    ∃ q, parse (String.ofList cs) = .ok q ∧ Program.bare q = Program.bare p := by
  obtain ⟨gap, body, hcs, hgap, hbody, hmany⟩ :=
    Reader.exists_reads_program hw hl (Nat.le_refl cs.length)
  obtain ⟨_, q, hstart, -⟩ := Reader.readsMany_trivium hgap hbody cs.length .origin (by simp [hcs])
  obtain ⟨forms, q', hforms, hbare⟩ := hmany body.length q (Nat.le_refl _)
  rw [List.append_nil] at hforms
  refine ⟨forms, ?_, hbare⟩
  have hprogram : Reader.program (Cursor.start (String.ofList cs)) = (forms, ⟨[], q'⟩) := by
    rw [Reader.program, Cursor.start, String.toList_ofList]
    simp only [hcs] at hstart hforms ⊢
    simp only [hstart, hforms]
  simp only [parse, hprogram]

/-- Reading and writing are inverse: what is read is well formed, and a well-formed program is read
from every way of writing it down, such as its printed text. -/
theorem parse_inverse_layout :
    (∀ text p, parse text = .ok p → Program.WellFormed p) ∧
    (∀ p cs, Program.WellFormed p → ProgramLayout p cs →
      ∃ q, parse (String.ofList cs) = .ok q ∧ Program.bare q = Program.bare p) ∧
    (∀ text p, parse text = .ok p →
      ∃ q, parse (String.join (p.map Call.render)) = .ok q ∧ Program.bare q = Program.bare p) := by
  refine ⟨fun _ _ => wellFormed_of_parse, fun _ _ => parse_of_layout, fun text p h => ?_⟩
  have hread := parse_of_layout (wellFormed_of_parse h) (ProgramLayout.render p)
  rwa [String.ofList_toList] at hread

/-- Two calls with a comment, commas and an empty list in them. -/
theorem parse_inverse_layout_call :
    ∃ q, parse "\t(a:?b;x\r\n-1,[ ,]),(-1x)" = .ok q ∧
      Program.bare q =
        [.call (.path ⟨⟨"a", .none⟩, [⟨.optionalMethod, ⟨"b", .none⟩, .none⟩], .none⟩)
          [.number ⟨"-1", .none⟩, .list [] .none] .none,
        .call (.name ⟨"-1x", .none⟩) [] .none] := by
  have hcomment : Trivia [';', 'x', '\r', '\n'] :=
    @Trivia.comment ['x'] _ (by simp) (.inr (by simp))
      (.blank (by decide) (.blank (by decide) .nil))
  have hlist : Layout (.list [] .none) ['[', ' ', ',', ']'] :=
    @Layout.list [] [' ', ','] [] [] .none (by simp) (.blank (by decide) (.comma .nil)) .nil .nil
  have hpath : Path.WellFormed
      ⟨⟨"a", .none⟩, [⟨.optionalMethod, ⟨"b", .none⟩, .none⟩], .none⟩ :=
    ⟨by decide +kernel, by simp, by simpa using ⟨by decide +kernel, by simp⟩⟩
  let first : Call := ⟨.path ⟨⟨"a", .none⟩, [⟨.optionalMethod, ⟨"b", .none⟩, .none⟩], .none⟩,
    [.number ⟨"-1", .none⟩, .list [] .none], .none⟩
  let second : Call := ⟨.name ⟨"-1x", .none⟩, [], .none⟩
  have hfirst : Layout first.term "(a:?b;x\r\n-1,[ ,])".toList := by
    refine @Layout.call (.path _, ['a', ':', '?', 'b'])
      [(.number _, ['-', '1']), (.list [] .none, ['[', ' ', ',', ']'])] [] _ [] .none ?_ .nil
      (.cons hcomment (by simp) (.cons (.comma .nil) (by simp) (.single _))) .nil
    intro p hp
    simp only [List.mem_cons, List.not_mem_nil, or_false] at hp
    rcases hp with rfl | rfl | rfl
    · exact .leaf (.inl (by decide))
    · exact .leaf (.inl (by decide))
    · exact hlist
  have hsecond : Layout second.term "(-1x)".toList := by
    refine @Layout.call (.name _, ['-', '1', 'x']) [] [] _ [] .none ?_ .nil (.single _) .nil
    intro p hp
    obtain rfl := List.mem_singleton.1 hp
    exact .leaf (.inl (by decide))
  have hw : Program.WellFormed [first, second] := by
    intro c hc
    simp only [List.mem_cons, List.not_mem_nil, or_false] at hc
    rcases hc with rfl | rfl
    · refine .call (by decide) (.path hpath) ?_
      simpa [first] using ⟨.number (by decide +kernel), .list (by simp)⟩
    · exact .call (by decide) (.name (by decide +kernel)) (by simp [second])
  have hl : ProgramLayout [first, second] "\t(a:?b;x\r\n-1,[ ,]),(-1x)".toList :=
    @ProgramLayout.cons _ _ ['\t'] _ _ (.blank (by decide) .nil) hfirst
      (@ProgramLayout.cons _ _ [','] _ _ (.comma .nil) hsecond (.nil .nil))
  exact parse_inverse_layout.2.1 _ _ hw hl

end LispLua
