import LispLua.Proofs.Reading.RoundTrip
import LispLua.Proofs.Reading.Weave

/-!
# Reading is local

Readers look ahead: a name ends where no character of a name follows, and an operator of a path
counts only if a name stands behind it. Yet what is read of a call lies between its brackets. The
same call is read, with the same spans, whatever stands behind it and however much deeper the reader
could go, so a text can be cut off behind a call without a change to the call.

A refusal is not local: whether a quotation mark starts a string depends on a mark far behind. But
where a reading goes on, each alternative that was passed over is ruled out by the first character.
-/

namespace LispLua

/-! ### Rests that start alike -/

/-- Two rests start alike, and the part they have in common has a character in it that neither goes on
with a name nor is a colon. -/
def StartsAlike (rest tail : List Char) : Prop :=
  ∃ front back back', (∃ x ∈ front, isSubsequent x = false ∧ x ≠ ':') ∧
    rest = front ++ back ∧ tail = front ++ back'

namespace StartsAlike

variable {rest tail : List Char}

theorem symm (h : StartsAlike rest tail) : StartsAlike tail rest := by
  obtain ⟨front, back, back', hx, hrest, htail⟩ := h
  exact ⟨front, back', back, hx, htail, hrest⟩

theorem cons {x : Char} (hx : isSubsequent x = false ∧ x ≠ ':') (rest tail : List Char) :
    StartsAlike (x :: rest) (x :: tail) :=
  ⟨[x], rest, tail, ⟨x, List.mem_singleton_self x, hx⟩, rfl, rfl⟩

theorem append (h : StartsAlike rest tail) (cs : List Char) : StartsAlike (cs ++ rest) (cs ++ tail) := by
  obtain ⟨front, back, back', ⟨x, hmem, hx⟩, rfl, rfl⟩ := h
  exact ⟨cs ++ front, back, back', ⟨x, List.mem_append_right cs hmem, hx⟩, by simp, by simp⟩

theorem head?_eq (h : StartsAlike rest tail) : tail.head? = rest.head? := by
  obtain ⟨front, back, back', ⟨x, hmem, -⟩, rfl, rfl⟩ := h
  cases front with
  | nil => cases hmem
  | cons c cs => rfl

theorem stops (h : StartsAlike rest tail) (hrest : Stops rest) : Stops tail := by
  intro c hc
  rw [h.head?_eq] at hc
  exact hrest c hc

/-- A token at the start of one rest stands at the start of the other too. -/
theorem exists_append {cs ds : List Char} (h : StartsAlike (cs ++ ds) tail)
    (hcs : ∀ x ∈ cs, isSubsequent x = true ∨ x = ':') :
    ∃ es, tail = cs ++ es ∧ StartsAlike ds es := by
  obtain ⟨front, back, back', ⟨x, hmem, hx⟩, hsplit, rfl⟩ := h
  rcases List.append_eq_append_iff.1 hsplit with ⟨es, rfl, rfl⟩ | ⟨es, rfl, -⟩
  · have hes : x ∈ es := by
      refine (List.mem_append.1 hmem).resolve_left fun hin => ?_
      rcases hcs x hin with hsub | hcolon
      · exact absurd hsub (by simp [hx.1])
      · exact hx.2 hcolon
    exact ⟨es ++ back', by simp, es, back, back', ⟨x, hes, hx⟩, rfl, rfl⟩
  · rcases hcs x (List.mem_append_left es hmem) with hsub | hcolon
    · exact absurd hsub (by simp [hx.1])
    · exact absurd hcolon hx.2

end StartsAlike

/-- A closing bracket ends every token. -/
theorem startsAlike_close {x : Char} (hx : x = ')' ∨ x = ']' ∨ x = '\x7d') (rest tail : List Char) :
    StartsAlike (x :: rest) (x :: tail) := by
  apply StartsAlike.cons
  rcases hx with rfl | rfl | rfl <;> decide

namespace Reader

variable {α β : Type} {r : Reader α} {k : α → Reader β} {p : Position} {cs ds rest : List Char}
  {a : α} {b : β} {c d e : Cursor}

/-! ### What is taken at a position -/

/-- In front of `rest`, the reader at `p` takes `cs` for the value `a`. -/
def Takes (r : Reader α) (p : Position) (cs rest : List Char) (a : α) : Prop :=
  r ⟨cs ++ rest, p⟩ = some (a, ⟨rest, p.after cs⟩)

theorem takes_pure : Takes (pure a) p [] rest a := rfl

theorem Takes.bind (hr : Takes r p cs (ds ++ rest) a) (hk : Takes (k a) (p.after cs) ds rest b) :
    Takes (r >>= k) p (cs ++ ds) rest b := by
  rw [Takes, List.append_assoc, Position.after_append]
  exact bind_eq_some_iff.2 ⟨a, _, hr, hk⟩

/-- A last step that takes nothing. -/
theorem Takes.bind_nil (hr : Takes r p cs rest a) (hk : Takes (k a) (p.after cs) [] rest b) :
    Takes (r >>= k) p cs rest b := by
  rw [← List.append_nil cs]
  exact Takes.bind hr hk

theorem Takes.map (hr : Takes r p cs rest a) (f : α → β) :
    Takes (do return f (← r)) p cs rest (f a) :=
  hr.bind_nil takes_pure

theorem Takes.spanned (hr : Takes r p cs rest a) :
    Takes (spanned r) p cs rest (a, ⟨p, p.after cs⟩) :=
  spanned_eq_some_iff.2 ⟨hr, rfl⟩

theorem Takes.orElse_left {r' : Reader α} (hr : Takes r p cs rest a) :
    Takes (r <|> r') p cs rest a :=
  orElse_eq_some_iff.2 (.inl hr)

theorem Takes.orElse_right {r' : Reader α} (hr : Refuses r (cs ++ rest))
    (hr' : Takes r' p cs rest a) : Takes (r <|> r') p cs rest a :=
  orElse_eq_some_iff.2 (.inr ⟨hr p, hr'⟩)

theorem takes_lexeme {l : Lexeme} (h : l (cs ++ rest) = some cs) : Takes (lexeme l) p cs rest cs := by
  refine lexeme_eq_some_iff.2 ⟨h, ?_⟩
  rw [Cursor.skip, List.drop_left]

theorem takes_token {l : Lexeme} (h : l (cs ++ rest) = some cs) :
    Takes (token l) p cs rest ⟨String.ofList cs, p, p.after cs⟩ :=
  (takes_lexeme h).spanned.map fun x : List Char × Span => Token.mk (String.ofList x.1) x.2

theorem takes_char (x : Char) : Takes (char x) p [x] rest () :=
  char_eq_some_iff.2 ⟨rfl, rfl⟩

/-- Trivia are taken up to solid text. -/
theorem takes_trivia {gap : List Char} (hgap : Trivia gap) (hrest : Solid rest) :
    Takes trivia p gap rest () := by
  obtain ⟨u, q, hread, -⟩ := reads_trivia hgap hrest p
  obtain ⟨gap', last, hreach, -⟩ := reaches_trivia hread
  have htaken : gap = gap' ++ last := List.append_cancel_right hreach.rest
  have hq : q = p.after gap := by
    rw [htaken]
    exact hreach.position
  rw [Takes, hread, hq]

/-! ### Repetition -/

/-- In front of `rest`, repetition at `p` takes `cs` for the values `as`, however often it is allowed
to repeat beyond need. -/
def TakesMany (r : Reader α) (p : Position) (cs rest : List Char) (as : List α) : Prop :=
  ∀ n, cs.length ≤ n → collect r n ⟨cs ++ rest, p⟩ = (as, ⟨rest, p.after cs⟩)

theorem takesMany_nil (h : r ⟨rest, p⟩ = none) : TakesMany r p [] rest [] := by
  intro n _
  cases n with
  | zero => rfl
  | succ n =>
    rw [List.nil_append, collect, h]
    rfl

theorem TakesMany.cons {as : List α} (hr : Takes r p cs (ds ++ rest) a) (hne : cs ≠ [])
    (hm : TakesMany r (p.after cs) ds rest as) : TakesMany r p (cs ++ ds) rest (a :: as) := by
  intro n hn
  have hpos := List.length_pos_iff.2 hne
  rw [List.length_append] at hn
  obtain ⟨m, rfl⟩ : ∃ m, n = m + 1 := ⟨n - 1, by omega⟩
  rw [Takes] at hr
  rw [List.append_assoc, collect, hr]
  simp only [hm m (by omega), Position.after_append]

theorem TakesMany.many {as : List α} (h : TakesMany r p cs rest as) :
    Takes (many r) p cs rest as :=
  congrArg some (h _ (by simp))

/-- A reader that takes something whenever it reads. -/
def Shortens (r : Reader α) : Prop :=
  ∀ c d a, r c = some (a, d) → d.rest.length < c.rest.length

theorem length_lt_of_reaches (h : c.Reaches cs d) (hne : cs ≠ []) :
    d.rest.length < c.rest.length := by
  have hpos := List.length_pos_iff.2 hne
  have hlength := congrArg List.length h.rest
  rw [List.length_append] at hlength
  omega

/-- Repetition stops only where the reader refuses. -/
theorem collect_stops (hr : Shortens r) (n : Nat) (hn : c.rest.length ≤ n) :
    r (collect r n c).2 = none := by
  induction n generalizing c with
  | zero =>
    cases hread : r c with
    | none => exact hread
    | some x =>
      have := hr c x.2 x.1 hread
      omega
  | succ n ih =>
    rw [collect]
    split
    · rename_i hread
      exact hread
    · rename_i a next hread
      have := hr c next a hread
      exact ih (by omega)

theorem many_stops (hr : Shortens r) {as : List α} (h : many r c = some (as, d)) : r d = none := by
  have hstop := collect_stops hr _ (Nat.le_refl c.rest.length)
  rwa [Option.some.inj h] at hstop

/-! ### Tokens -/

/-- Behind a run of name characters no other one stands. -/
theorem stops_drop_run (cs : List Char) : Stops (cs.drop (cs.takeWhile isSubsequent).length) := by
  have hdrop := congrArg (List.drop (cs.takeWhile isSubsequent).length)
    (List.takeWhile_append_dropWhile (p := isSubsequent) (l := cs))
  rw [List.drop_left] at hdrop
  rw [← hdrop]
  exact stops_dropWhile cs

/-- A run of name characters is cut off in front of what stops it. -/
theorem takes_run {l : Lexeme} {P : List Char → Prop}
    (hl : ∀ cs text, l cs = some text ↔ text = cs.takeWhile isSubsequent ∧ P text) {t : Token}
    (h : token l c = some (t, d)) :
    c.Reaches t.text.toList d ∧ Stops d.rest ∧ (∀ x ∈ t.text.toList, isSubsequent x = true) ∧
      P t.text.toList ∧ ∀ tail, Stops tail → Takes (token l) c.position t.text.toList tail t := by
  obtain ⟨text, ht, rfl, rfl⟩ := token_eq_some_iff.1 h
  obtain ⟨hrun, hP⟩ := (hl _ _).1 ht
  have hsub : ∀ x ∈ text, isSubsequent x = true := by
    intro x hx
    rw [hrun] at hx
    exact List.mem_takeWhile_imp hx
  have hstops : Stops (c.skip text).rest := by
    rw [Cursor.skip, hrun]
    exact stops_drop_run c.rest
  simp only [String.toList_ofList]
  refine ⟨.skip (hrun ▸ List.takeWhile_prefix _), hstops, hsub, hP,
    fun tail htail => ?_⟩
  exact takes_token ((hl _ _).2 ⟨(takeWhile_run hsub htail).symm, hP⟩)

theorem takes_identifier {t : Token} (h : token Lexeme.identifier c = some (t, d)) :
    c.Reaches t.text.toList d ∧ Stops d.rest ∧ (∀ x ∈ t.text.toList, isSubsequent x = true) ∧
      IsIdentifier t.text.toList ∧
      ∀ tail, Stops tail → Takes (token Lexeme.identifier) c.position t.text.toList tail t :=
  takes_run (fun _ _ => Lexeme.identifier_eq_some_iff) h

theorem takes_segment {s : Segment} (h : segment c = some (s, d)) :
    ∃ cs, c.Reaches cs d ∧ cs ≠ [] ∧ (∀ x ∈ cs, isSubsequent x = true ∨ x = ':') ∧
      Stops d.rest ∧ ∀ tail, Stops tail → Takes segment c.position cs tail s := by
  obtain ⟨e, hl, hn, hspan⟩ := segment_eq_some_iff.1 h
  have hlink := reaches_link hl
  obtain ⟨rest, hrest, rfl, hcolon, hquery⟩ := link_eq_some_iff.1 hl
  obtain ⟨hname, hstops, hsub, hid, htakes⟩ := takes_identifier hn
  have hreach := hlink.trans hname
  have hne := hid.ne_nil
  -- The name is not empty, so the operator in front of it sees the same character.
  have hhead : ∀ tail, (s.name.text.toList ++ tail).head? = rest.head? := by
    intro tail
    have hsplit : rest = s.name.text.toList ++ d.rest := by
      rw [← hname.rest, Cursor.skip, hrest, List.drop_left]
    obtain ⟨x, xs, hx⟩ := List.exists_cons_of_ne_nil hne
    rw [hsplit, hx]
    rfl
  refine ⟨_, hreach, List.append_ne_nil_of_right_ne_nil _ hne, ?_, hstops, fun tail htail => ?_⟩
  · intro x hx
    rcases List.mem_append.1 hx with hx | hx
    · have hlinks (l : Link) : l.text.toList.all fun x => isSubsequent x || x == ':' := by
        cases l <;> decide
      simpa using List.all_eq_true.1 (hlinks s.link) x hx
    · exact .inl (hsub x hx)
  · rw [Takes, List.append_assoc]
    refine segment_eq_some_iff.2 ⟨⟨s.name.text.toList ++ tail, c.position.after s.link.text.toList⟩,
      link_eq_some_iff.2 ⟨_, rfl, ?_, ?_, ?_⟩, ?_, ?_⟩
    · rw [Cursor.skip, List.drop_left]
    · rw [hhead]
      exact hcolon
    · rw [hhead]
      exact hquery
    · rw [Position.after_append]
      exact htakes tail htail
    · rw [hspan, hreach.position]

theorem shortens_segment : Shortens segment := by
  intro c d s h
  obtain ⟨cs, hreach, hne, -⟩ := takes_segment h
  exact length_lt_of_reaches hreach hne

/-- Where no segment starts, none starts in front of a rest that starts alike. -/
theorem segment_eq_none {tail : List Char} (hd : segment d = none) (h : StartsAlike d.rest tail) :
    segment ⟨tail, d.position⟩ = none := by
  cases hread : segment ⟨tail, d.position⟩ with
  | none => rfl
  | some x =>
    obtain ⟨cs, hreach, -, hcs, hstops, htakes⟩ := takes_segment hread
    have htail : tail = cs ++ x.2.rest := hreach.rest
    rw [htail] at h
    obtain ⟨es, hes, halike⟩ := h.symm.exists_append hcs
    have htaken := htakes es (halike.stops hstops)
    rw [Takes, ← hes] at htaken
    rw [hd] at htaken
    cases htaken

theorem takesMany_segment {ss : List Segment} (h : many segment c = some (ss, d)) :
    ∃ cs, c.Reaches cs d ∧ ∀ tail, StartsAlike d.rest tail → TakesMany segment c.position cs tail ss := by
  have hstop := many_stops shortens_segment h
  have hrun := run_many h
  clear h
  induction hrun with
  | nil c =>
    refine ⟨[], .refl c, fun tail htail => takesMany_nil ?_⟩
    exact segment_eq_none hstop htail
  | @cons c e d s ss hread _ ih =>
    obtain ⟨cs, hreach, hne, -, hstops, htakes⟩ := takes_segment hread
    obtain ⟨ds, hreach', hmany⟩ := ih hstop
    refine ⟨cs ++ ds, hreach.trans hreach', fun tail htail => .cons (htakes _ ?_) hne ?_⟩
    · rw [hreach'.rest] at hstops
      exact (htail.append ds).stops hstops
    · rw [← hreach.position]
      exact hmany tail htail

/-! ### Targets -/

theorem takes_reference (hnumber : number c = none) {t : Term} (h : reference c = some (t, d)) :
    ∃ cs, c.Reaches cs d ∧ (∃ x, cs.head? = some x ∧ isSubsequent x = true) ∧
      ∀ tail, StartsAlike d.rest tail →
        Refuses number (cs ++ tail) ∧ Takes reference c.position cs tail t := by
  obtain ⟨root, e, segments, hroot, hmany, ht⟩ := reference_eq_some h
  obtain ⟨hreach, hstops, hsub, hid, htakes⟩ := takes_identifier hroot
  obtain ⟨cs, hreach', hsegments⟩ := takesMany_segment hmany
  have hall := hreach.trans hreach'
  have hname : IsName root.text.toList := by
    refine ⟨hid, fun hnum => ?_⟩
    have hrun : root.text.toList = c.rest.takeWhile isSubsequent := by
      rw [hreach.rest]
      exact (takeWhile_run hsub hstops).symm
    have hread := Lexeme.number_eq_some_iff.2 ⟨hrun, hnum⟩
    rw [token_eq_none_iff.1 hnumber] at hread
    cases hread
  obtain ⟨x, hx, hxsub⟩ := head_of_run hid.ne_nil hsub cs
  refine ⟨_, hall, ⟨x, hx, hxsub⟩, fun tail htail => ?_⟩
  have htailStops : Stops (cs ++ tail) := by
    rw [hreach'.rest] at hstops
    exact (htail.append cs).stops hstops
  refine ⟨?_, ?_⟩
  · rw [List.append_assoc]
    exact refuses_number hname htailStops
  · have hsegments := (hsegments tail htail).many
    rw [hreach.position] at hsegments
    have hparts : Takes (do
        let root ← token Lexeme.identifier
        return (root, ← many segment)) c.position (root.text.toList ++ cs) tail (root, segments) :=
      (htakes _ htailStops).bind (hsegments.map fun ss => (root, ss))
    refine hparts.spanned.bind_nil ?_
    rcases ht with ⟨rfl, rfl⟩ | ⟨hne, rfl⟩
    · exact takes_pure
    · rw [hall.position]
      cases segments with
      | nil => exact absurd rfl hne
      | cons s ss => exact takes_pure

/-- What starts with a character of a name is neither a wildcard nor a symbol. -/
theorem takes_target_of_head {x : Char} {t : Term} (hhead : (cs ++ rest).head? = some x)
    (hx : isSubsequent x = true)
    (h : Takes ((return .number (← number)) <|> reference) p cs rest t) :
    Takes target p cs rest t := by
  have hash : (cs ++ rest).head? ≠ some '#' := hhead ▸ ne_of_isSubsequent hx (by decide)
  have colon : (cs ++ rest).head? ≠ some ':' := hhead ▸ ne_of_isSubsequent hx (by decide)
  exact .orElse_right (refuses_wildcard hash).bind (.orElse_right (refuses_symbol colon).bind h)

/-- A target starts with a hash sign, a colon or a character of a name. -/
theorem takes_target {t : Term} (h : target c = some (t, d)) :
    ∃ cs, c.Reaches cs d ∧
      (∃ x, cs.head? = some x ∧ (x = '#' ∨ x = ':' ∨ isSubsequent x = true)) ∧
      ∀ tail, StartsAlike d.rest tail → Takes target c.position cs tail t := by
  rcases target_eq_some h with ⟨token, hr, rfl⟩ | ⟨token, hr, rfl⟩ | ⟨token, hr, rfl⟩ | ⟨hn, hr⟩
  · obtain ⟨text, hl, rfl, rfl⟩ := token_eq_some_iff.1 hr
    obtain ⟨rfl, hcut⟩ := Lexeme.wildcard_eq_some_iff.1 hl
    refine ⟨['#', '\''], .skip hcut, ⟨'#', rfl, .inl rfl⟩, fun tail _ => .orElse_left ?_⟩
    exact (takes_token (Lexeme.wildcard_eq_some_iff.2 ⟨rfl, List.prefix_append _ _⟩)).map _
  · obtain ⟨hreach, hspan⟩ := reaches_symbol hr
    obtain ⟨text, hl, rfl, htoken⟩ := symbol_eq_some_iff.1 hr
    obtain ⟨ds, hrest, rfl, hne⟩ := Lexeme.symbol_eq_some_iff.1 hl
    have htext : token.text.toList = ds.takeWhile isSubsequent := by
      rw [htoken, String.toList_ofList]
      rfl
    have hstops : Stops (c.skip (':' :: ds.takeWhile isSubsequent)).rest := by
      rw [Cursor.skip, hrest]
      exact stops_drop_run ds
    refine ⟨_, hreach, ⟨':', rfl, .inr (.inl rfl)⟩, fun tail htail => ?_⟩
    rw [htext] at hreach ⊢
    refine .orElse_right (refuses_wildcard (by simp)).bind (.orElse_left ?_)
    have hlexeme : Lexeme.symbol (':' :: ds.takeWhile isSubsequent ++ tail) =
        some (':' :: ds.takeWhile isSubsequent) := by
      refine Lexeme.symbol_eq_some_iff.2 ⟨ds.takeWhile isSubsequent ++ tail, rfl, ?_⟩
      rw [takeWhile_run (fun x => List.mem_takeWhile_imp) (htail.stops hstops)]
      exact ⟨rfl, hne⟩
    have htaken := ((takes_lexeme (p := c.position) hlexeme).spanned.map
      fun x => Token.mk (String.ofList (x.1.drop 1)) x.2).map Term.symbol
    rwa [htoken]
  · obtain ⟨hreach, hstops, hsub, hnum, htakes⟩ :=
      takes_run (fun _ _ => Lexeme.number_eq_some_iff) hr
    obtain ⟨x, hx, hxsub⟩ := head_of_run hnum.ne_nil hsub []
    rw [List.append_nil] at hx
    refine ⟨_, hreach, ⟨x, hx, .inr (.inr hxsub)⟩, fun tail htail => ?_⟩
    obtain ⟨y, hy, hysub⟩ := head_of_run hnum.ne_nil hsub tail
    refine takes_target_of_head hy hysub (.orElse_left ?_)
    exact (htakes tail (htail.stops hstops)).map Term.number
  · obtain ⟨cs, hreach, ⟨x, hx, hxsub⟩, hkeeps⟩ := takes_reference hn hr
    refine ⟨cs, hreach, ⟨x, hx, .inr (.inr hxsub)⟩, fun tail htail => ?_⟩
    obtain ⟨hrefuse, htakes⟩ := hkeeps tail htail
    have hhead : (cs ++ tail).head? = some x := by
      rw [List.head?_append, hx]
      rfl
    exact takes_target_of_head hhead hxsub (.orElse_right hrefuse.bind htakes)

theorem solid_of_target {x : Char} (h : x = '#' ∨ x = ':' ∨ isSubsequent x = true) :
    isBlank x = false ∧ x ≠ ',' ∧ x ≠ ';' := by
  rcases h with rfl | rfl | h
  · decide
  · decide
  · exact solid_of_isSubsequent h

/-! ### Rows -/

/-- Whatever `r` reads is solid text, and the readers `rs` read the same in front of every rest that is
near the one behind it, from the depth on that the length of the text gives. -/
def Keeps (near : List Char → List Char → Prop) (r : Reader α) (rs : Nat → Reader α) : Prop :=
  ∀ c d a, r c = some (a, d) → ∃ cs, c.Reaches cs d ∧ cs ≠ [] ∧ Solid cs ∧
    ∀ n tail, near d.rest tail → cs.length ≤ n → Takes (rs n) c.position cs tail a

section Rows

variable {near : List Char → List Char → Prop} {rs : Nat → Reader α} {as : List α}

/-- What is read with trivia behind it is read alike in front of another rest, if that is solid and
refused. -/
theorem takesMany_behind (hr : Keeps near r rs) (hd : d.rest ≠ [])
    (hrun : Run (do let a ← r; trivia; return a) c as d) :
    ∃ cs, c.Reaches cs d ∧
      ∀ n tail, (∀ es, near (es ++ d.rest) (es ++ tail)) → Solid tail → Refuses (rs n) tail →
        cs.length ≤ n → Solid (cs ++ tail) ∧
          TakesMany (do let a ← rs n; trivia; return a) c.position cs tail as := by
  induction hrun with
  | nil c =>
    refine ⟨[], .refl c, fun n tail _ hsolid hrefuse _ => ⟨hsolid, takesMany_nil ?_⟩⟩
    exact Refuses.bind hrefuse _
  | @cons c e d a as hread _ ih =>
    obtain ⟨b, e', hread, hskip⟩ := bind_eq_some_iff.1 hread
    obtain ⟨u, e'', hskip, hp⟩ := bind_eq_some_iff.1 hskip
    obtain ⟨rfl, rfl⟩ := pure_eq_some_iff.1 hp
    obtain ⟨ds, hreach', hmany⟩ := ih hd
    have hne : e.rest ≠ [] := by
      rw [hreach'.rest]
      exact List.append_ne_nil_of_right_ne_nil ds hd
    obtain ⟨gap, hgapped, hgap⟩ := reaches_trivia_of_ne_nil hskip hne
    obtain ⟨cs, hreach, hcs, hsolid, htakes⟩ := hr _ _ _ hread
    refine ⟨cs ++ gap ++ ds, (hreach.trans hgapped).trans hreach', ?_⟩
    intro n tail hnear htail hrefuse hn
    simp only [List.length_append] at hn
    obtain ⟨hdsolid, hds⟩ := hmany n tail hnear htail hrefuse (by omega)
    have hrest : near e'.rest (gap ++ (ds ++ tail)) := by
      have := hnear (gap ++ ds)
      rwa [List.append_assoc, List.append_assoc, ← hreach'.rest, ← hgapped.rest] at this
    have hone : Takes (do let a ← rs n; trivia; return a) c.position (cs ++ gap) (ds ++ tail) a :=
      (htakes n _ hrest (by omega)).bind ((takes_trivia hgap hdsolid).map fun _ => a)
    refine ⟨?_, .cons hone (List.append_ne_nil_of_left_ne_nil hcs gap) ?_⟩
    · rw [List.append_assoc, List.append_assoc]
      exact hsolid.append hcs _
    · rwa [← (hreach.trans hgapped).position]

/-- What is read with trivia in front of it is read alike in front of another rest, if that is
refused. -/
theorem takesMany_before (hr : Keeps near r rs) (hrun : Run (do trivia; r) c as d) :
    ∃ cs, c.Reaches cs d ∧
      ∀ n tail, (∀ es, near (es ++ d.rest) (es ++ tail)) → Refuses (do trivia; rs n) tail →
        cs.length ≤ n → TakesMany (do trivia; rs n) c.position cs tail as := by
  induction hrun with
  | nil c => exact ⟨[], .refl c, fun n tail _ hrefuse _ => takesMany_nil (hrefuse _)⟩
  | @cons c e d a as hread _ ih =>
    obtain ⟨u, e', hskip, hread⟩ := bind_eq_some_iff.1 hread
    obtain ⟨cs, hreach, hcs, hsolid, htakes⟩ := hr _ _ _ hread
    obtain ⟨gap, hgapped, hgap⟩ :=
      reaches_trivia_of_ne_nil hskip (rest_ne_nil_of_reaches hreach hcs)
    obtain ⟨ds, hreach', hmany⟩ := ih
    refine ⟨gap ++ cs ++ ds, (hgapped.trans hreach).trans hreach', ?_⟩
    intro n tail hnear hrefuse hn
    simp only [List.length_append] at hn
    have hrest : near e.rest (ds ++ tail) := by
      rw [hreach'.rest]
      exact hnear ds
    have hterm := htakes n _ hrest (by omega)
    rw [hgapped.position] at hterm
    have hone : Takes (do trivia; rs n) c.position (gap ++ cs) (ds ++ tail) a :=
      (takes_trivia hgap (hsolid.append hcs _)).bind hterm
    refine .cons hone (List.append_ne_nil_of_right_ne_nil gap hcs) ?_
    rw [← (hgapped.trans hreach).position]
    exact hmany n tail hnear hrefuse (by omega)

end Rows

/-! ### Brackets -/

section Brackets

variable {inner : Reader Term} {rs : Nat → Reader Term} {close : Char}

/-- What stands behind an opening bracket is read alike whatever stands behind the closing one. -/
theorem takes_bracket {e₁ e₂ : Cursor} {ts : List Term}
    (hclose : close = ')' ∨ close = ']' ∨ close = '\x7d') (hinner : Keeps StartsAlike inner rs)
    (hrefuse : ∀ n tail, Refuses (rs n) (close :: tail)) (hskip : trivia c = some ((), e₁))
    (hterms : terms inner e₁ = some (ts, e₂)) (hchar : char close e₂ = some ((), d)) :
    ∃ cs, c.Reaches cs d ∧ ∀ n tail, cs.length ≤ n → ∀ {β : Type} (f : List Term → β),
      Takes (do trivia; let ts ← terms (rs n); char close; return f ts) c.position cs tail
        (f ts) := by
  have hlast := reaches_char hchar
  obtain ⟨body, hbody, hkeep⟩ :=
    takesMany_behind hinner (rest_ne_nil_of_char hchar) (run_many hterms)
  have hne : e₁.rest ≠ [] := by
    rw [hbody.rest]
    exact List.append_ne_nil_of_right_ne_nil body (rest_ne_nil_of_char hchar)
  obtain ⟨gap, hgapped, hgap⟩ := reaches_trivia_of_ne_nil hskip hne
  refine ⟨gap ++ (body ++ [close]), hgapped.trans (hbody.trans hlast), fun n tail hn β f => ?_⟩
  simp only [List.length_append] at hn
  have hnear (es : List Char) : StartsAlike (es ++ e₂.rest) (es ++ close :: tail) := by
    rw [hlast.rest]
    exact (startsAlike_close hclose d.rest tail).append es
  obtain ⟨hsolid, hmany⟩ :=
    hkeep n (close :: tail) hnear (solid_close hclose) (hrefuse n tail) (by omega)
  have hinside := hmany.many
  rw [hgapped.position] at hinside
  refine Takes.bind (a := ()) ?_ (Takes.bind (a := ts) hinside ((takes_char close).map fun _ => f ts))
  rw [List.append_assoc]
  exact takes_trivia hgap hsolid

theorem keeps_list (hinner : Keeps StartsAlike inner rs)
    (hrefuse : ∀ n tail, Refuses (rs n) (']' :: tail)) :
    Keeps (fun _ _ => True) (list inner) fun n => list (rs (n - 1)) := by
  intro c d t h
  obtain ⟨e₁, e₂, e₃, items, hopen, hskip, hterms, hchar, rfl⟩ := list_eq_some h
  have hfirst := reaches_char hopen
  obtain ⟨cs, hreach, hkeep⟩ :=
    takes_bracket (.inr (.inl rfl)) hinner hrefuse hskip hterms hchar
  have hall := hfirst.trans hreach
  obtain ⟨hne, hsolid⟩ : ['['] ++ cs ≠ [] ∧ Solid (['['] ++ cs) := solid_of_head rfl (by decide)
  refine ⟨_, hall, hne, hsolid, fun n tail _ hn => ?_⟩
  simp only [List.length_append, List.length_singleton] at hn
  have hinside := hkeep (n - 1) tail (by omega) fun ts => ts
  rw [hfirst.position] at hinside
  rw [hall.position]
  exact ((takes_char '[').bind hinside).spanned.map fun x => Term.list x.1 x.2

/-- A quote is read where there is one, and nothing in front of a brace. -/
theorem takes_quote (escaped : Bool) :
    Takes quote p (if escaped then ['\''] else []) ('\x7b' :: rest) escaped := by
  cases escaped with
  | false => exact .orElse_right (refuses_char (by simp)).bind takes_pure
  | true => exact .orElse_left ((takes_char '\'').map fun _ => true)

theorem keeps_table (hinner : Keeps StartsAlike inner rs)
    (hrefuse : ∀ n tail, Refuses (rs n) ('\x7d' :: tail)) :
    Keeps (fun _ _ => True) (table inner) fun n => table (rs (n - 1)) := by
  intro c d t h
  obtain ⟨escaped, e₀, e₁, e₂, e₃, items, hquote, hopen, hskip, hterms, hchar, rfl⟩ :=
    table_eq_some h
  have hsecond := reaches_char hopen
  have hfirst := (reaches_quote hquote).trans hsecond
  obtain ⟨cs, hreach, hkeep⟩ :=
    takes_bracket (.inr (.inr rfl)) hinner hrefuse hskip hterms hchar
  have hall := (reaches_quote hquote).trans (hsecond.trans hreach)
  obtain ⟨hne, hsolid⟩ : (if escaped then ['\''] else []) ++ (['\x7b'] ++ cs) ≠ [] ∧
      Solid ((if escaped then ['\''] else []) ++ (['\x7b'] ++ cs)) := by
    cases escaped <;> exact solid_of_head rfl (by decide)
  refine ⟨_, hall, hne, hsolid, fun n tail _ hn => ?_⟩
  simp only [List.length_append, List.length_singleton] at hn
  have hinside := hkeep (n - 1) tail (by omega) fun ts => (escaped, ts)
  rw [hsecond.position, (reaches_quote hquote).position] at hinside
  rw [hall.position]
  have hparts : Takes (do
      let escaped ← quote
      char '\x7b'
      trivia
      let items ← terms (rs (n - 1))
      char '\x7d'
      return (escaped, items)) c.position
      ((if escaped then ['\''] else []) ++ (['\x7b'] ++ cs)) tail (escaped, items) :=
    (takes_quote escaped).bind ((takes_char '\x7b').bind hinside)
  exact hparts.spanned.map fun x => Term.table x.1.2 x.1.1 x.2

theorem keeps_call (hinner : Keeps StartsAlike inner rs)
    (hrefuse : ∀ n tail, Refuses (rs n) (')' :: tail)) :
    Keeps (fun _ _ => True) (call inner) fun n => call (rs (n - 1)) := by
  intro c d f h
  obtain ⟨e₁, e₂, e₃, e₄, e₅, hopen, hskip, htarget, hargs, hskip', hchar, hspan⟩ := call_eq_some h
  have hfirst := reaches_char hopen
  have hlast := reaches_char hchar
  obtain ⟨ts, ht, ⟨x, hx, hx'⟩, htakes⟩ := takes_target htarget
  obtain ⟨as, has, hkeep⟩ := takesMany_before hinner (run_many hargs)
  obtain ⟨back, hback, hbackTrivia⟩ := reaches_trivia_of_ne_nil hskip' (rest_ne_nil_of_char hchar)
  obtain ⟨hts, htsSolid⟩ := solid_of_head hx (solid_of_target hx')
  obtain ⟨front, hfront, hfrontTrivia⟩ :=
    reaches_trivia_of_ne_nil hskip (rest_ne_nil_of_reaches ht hts)
  have hall := hfirst.trans (hfront.trans (ht.trans (has.trans (hback.trans hlast))))
  obtain ⟨hne, hsolid⟩ : ['('] ++ (front ++ (ts ++ (as ++ (back ++ [')'])))) ≠ [] ∧
      Solid (['('] ++ (front ++ (ts ++ (as ++ (back ++ [')']))))) :=
    solid_of_head rfl (by decide)
  refine ⟨_, hall, hne, hsolid, fun n tail _ hn => ?_⟩
  simp only [List.length_append, List.length_singleton] at hn
  -- The closing bracket stands in both texts, so all rests inside start alike.
  have hnear (es : List Char) : StartsAlike (es ++ e₄.rest) (es ++ (back ++ (')' :: tail))) := by
    rw [hback.rest, hlast.rest]
    exact ((startsAlike_close (.inl rfl) d.rest tail).append back).append es
  have hstop : Refuses (do trivia; rs (n - 1)) (back ++ (')' :: tail)) :=
    (reads_trivia hbackTrivia (solid_close (.inl rfl))).refuses_bind fun _ => hrefuse (n - 1) tail
  have hmany := (hkeep (n - 1) _ hnear hstop (by omega)).many
  have htail : StartsAlike e₃.rest (as ++ (back ++ (')' :: tail))) := by
    rw [has.rest]
    exact hnear as
  have hhead := htakes _ htail
  rw [hfront.position, hfirst.position] at hhead
  rw [ht.position, hfront.position, hfirst.position] at hmany
  have hparts : Takes (do
      char '('
      trivia
      let target ← target
      let args ← many (do trivia; rs (n - 1))
      trivia
      char ')'
      return (target, args)) c.position (['('] ++ (front ++ (ts ++ (as ++ (back ++ [')']))))) tail
      (f.target, f.args) := by
    refine (takes_char '(').bind (Takes.bind (a := ()) ?_ (Takes.bind (a := f.target) ?_
      (Takes.bind (a := f.args) ?_ (Takes.bind (a := ()) ?_ ((takes_char ')').map fun _ => _)))))
    · rw [List.append_assoc]
      exact takes_trivia hfrontTrivia (htsSolid.append hts _)
    · simpa only [List.append_assoc, List.singleton_append] using hhead
    · simpa only [List.append_assoc, List.singleton_append] using hmany
    · exact takes_trivia hbackTrivia (solid_close (.inl rfl))
  have hvalue : f = ⟨f.target, f.args, c.position, d.position⟩ := by rw [← hspan]
  rw [hvalue, hall.position]
  exact hparts.spanned.map fun x => Call.mk x.1.1 x.1.2 x.2

end Brackets

/-! ### Terms -/

/-- What is read stands at the start of the text it is read from. -/
theorem head?_of_reaches (h : c.Reaches cs d) (hne : cs ≠ []) (tail : List Char) :
    (cs ++ tail).head? = c.rest.head? := by
  obtain ⟨x, xs, rfl⟩ := List.exists_cons_of_ne_nil hne
  rw [h.rest]
  rfl

theorem head_of_list {inner : Reader Term} {t : Term} (h : list inner c = some (t, d)) :
    c.rest.head? = some '[' := by
  by_contra hne
  have hnone : list inner c = none := refuses_list hne c.position
  rw [h] at hnone
  cases hnone

theorem head_of_table {inner : Reader Term} {t : Term} (h : table inner c = some (t, d)) :
    c.rest.head? = some '\'' ∨ c.rest.head? = some '\x7b' := by
  by_contra hne
  obtain ⟨hquote, hbrace⟩ := not_or.1 hne
  have hnone : table inner c = none := refuses_table hquote hbrace c.position
  rw [h] at hnone
  cases hnone

theorem takes_term_of_head {depth : Nat} {x : Char} {t : Term}
    (hhead : (cs ++ rest).head? = some x) (hx : x ≠ '(' ∧ x ≠ '[' ∧ x ≠ '\'' ∧ x ≠ '\x7b')
    (h : Takes ((return .string (← string)) <|> target) p cs rest t) :
    Takes (term (depth + 1)) p cs rest t := by
  have hne {y : Char} (hy : x ≠ y) : (cs ++ rest).head? ≠ some y := by
    rw [hhead]
    exact fun h => hy (Option.some.inj h)
  obtain ⟨hround, hsquare, hquote, hbrace⟩ := hx
  refine .orElse_right (refuses_call (hne hround)).bind ?_
  refine .orElse_right (refuses_list (hne hsquare)) ?_
  exact .orElse_right (refuses_table (hne hquote) (hne hbrace)) h

/-- A term is read alike in front of rests that start alike, at every depth that the length of its
text does not exceed. -/
theorem keeps_term (depth : Nat) : Keeps StartsAlike (term depth) term := by
  -- The text decides which alternative is taken, so the depth it was first read at plays no part.
  induction depth with
  | zero =>
    intro c d t h
    cases h
  | succ depth ih =>
    have hclose {x : Char} (hx : x = ')' ∨ x = ']' ∨ x = '\x7d') (n : Nat) (tail : List Char) :
        Refuses (term n) (x :: tail) := refuses_term n hx
    have hdeep {cs : List Char} {n : Nat} (hne : cs ≠ []) (hn : cs.length ≤ n) :
        ∃ m, n = m + 1 := by
      have hpos := List.length_pos_iff.2 hne
      exact ⟨n - 1, by omega⟩
    intro c d t h
    rcases term_eq_some h with ⟨f, hf, rfl⟩ | hl | htab | ⟨s, hs, rfl⟩ | htarget
    · obtain ⟨cs, hreach, hne, hsolid, htakes⟩ := keeps_call ih (hclose (.inl rfl)) _ _ _ hf
      refine ⟨cs, hreach, hne, hsolid, fun n tail _ hn => ?_⟩
      obtain ⟨m, rfl⟩ := hdeep hne hn
      exact .orElse_left ((htakes (m + 1) tail trivial hn).map Call.term)
    · obtain ⟨cs, hreach, hne, hsolid, htakes⟩ :=
        keeps_list ih (hclose (.inr (.inl rfl))) _ _ _ hl
      refine ⟨cs, hreach, hne, hsolid, fun n tail _ hn => ?_⟩
      obtain ⟨m, rfl⟩ := hdeep hne hn
      have hhead := (head?_of_reaches hreach hne tail).trans (head_of_list hl)
      refine .orElse_right (refuses_call ?_).bind (.orElse_left (htakes (m + 1) tail trivial hn))
      rw [hhead]
      decide
    · obtain ⟨cs, hreach, hne, hsolid, htakes⟩ :=
        keeps_table ih (hclose (.inr (.inr rfl))) _ _ _ htab
      refine ⟨cs, hreach, hne, hsolid, fun n tail _ hn => ?_⟩
      obtain ⟨m, rfl⟩ := hdeep hne hn
      have hhead {x : Char} (hquote : '\'' ≠ x) (hbrace : '\x7b' ≠ x) :
          (cs ++ tail).head? ≠ some x := by
        rw [head?_of_reaches hreach hne tail]
        rcases head_of_table htab with h | h <;> simpa [h]
      refine .orElse_right (refuses_call (hhead (by decide) (by decide))).bind ?_
      refine .orElse_right (refuses_list (hhead (by decide) (by decide))) ?_
      exact .orElse_left (htakes (m + 1) tail trivial hn)
    · obtain ⟨text, hl, rfl, rfl⟩ := token_eq_some_iff.1 hs
      obtain ⟨hlit, hcut⟩ := Lexeme.string_eq_some_iff.1 hl
      obtain ⟨hne, hsolid⟩ := solid_of_head hlit.head (by decide)
      refine ⟨text, .skip hcut, hne, hsolid, fun n tail _ hn => ?_⟩
      obtain ⟨m, rfl⟩ := hdeep hne hn
      refine takes_term_of_head (x := '"') ?_ (by decide) (.orElse_left ?_)
      · rw [List.head?_append, hlit.head]
        rfl
      have hagain := Lexeme.string_eq_some_iff.2 ⟨hlit, List.prefix_append text tail⟩
      exact (takes_token hagain).map Term.string
    · obtain ⟨cs, hreach, ⟨x, hx, hx'⟩, htakes⟩ := takes_target htarget
      obtain ⟨hne, hsolid⟩ := solid_of_head hx (solid_of_target hx')
      refine ⟨cs, hreach, hne, hsolid, fun n tail htail hn => ?_⟩
      obtain ⟨m, rfl⟩ := hdeep hne hn
      have hhead : (cs ++ tail).head? = some x := by
        rw [List.head?_append, hx]
        rfl
      have hother {y : Char} (hy : y ≠ '#' ∧ y ≠ ':' ∧ isSubsequent y = false) : x ≠ y := by
        rintro rfl
        rcases hx' with hx' | hx' | hx'
        · exact hy.1 hx'
        · exact hy.2.1 hx'
        · exact absurd hx' (by rw [hy.2.2]; decide)
      refine takes_term_of_head hhead ⟨?_, ?_, ?_, ?_⟩ (.orElse_right (refuses_string ?_).bind ?_)
      iterate 4 exact hother (by decide)
      · rw [hhead]
        exact fun h => hother (by decide) (Option.some.inj h)
      · exact htakes tail htail

end Reader

end LispLua
