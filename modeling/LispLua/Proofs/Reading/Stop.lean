import LispLua.Proofs.Reading.Progress
import LispLua.Report.Failure

/-!
# Where reading stops

A text is refused at the first call at its top level that cannot be read, whatever goes wrong inside
that call. All that stands in front of this place can be read alone.
-/

namespace LispLua

namespace Reader

variable {α : Type} {r : Reader α} {c d : Cursor} {as : List α} {cs : List Char}

/-! ### Forms with trivia behind them -/

theorem trivia_ne_none (c : Cursor) : trivia c ≠ none := by
  intro h
  have hread := (trivia_eq_some_iff (c := c) (u := ())).2 rfl
  rw [h] at hread
  cases hread

/-- Trivia are never missing, so a form with trivia behind it is refused only for the form. -/
theorem refused_of_behind (h : (do let a ← r; trivia; return a) c = none) : r c = none := by
  cases hread : r c with
  | none => rfl
  | some x =>
    cases hskip : trivia x.2 with
    | none => exact absurd hskip (trivia_ne_none x.2)
    | some y =>
      have hboth : (do let a ← r; trivia; return a) c = some (x.1, y.2) :=
        bind_eq_some_iff.2 ⟨x.1, x.2, hread, bind_eq_some_iff.2 ⟨y.1, y.2, hskip, rfl⟩⟩
      rw [h] at hboth
      cases hboth

/-- Behind such forms no trivia are left over. -/
theorem trivium_of_run_behind (hc : Lexeme.trivium c.rest = none)
    (h : Run (do let a ← r; trivia; return a) c as d) : Lexeme.trivium d.rest = none := by
  induction h with
  | nil c => exact hc
  | cons hread _ ih =>
    apply ih
    obtain ⟨b, e, -, hread⟩ := bind_eq_some_iff.1 hread
    obtain ⟨u, e', hskip, hp⟩ := bind_eq_some_iff.1 hread
    obtain ⟨-, rfl⟩ := pure_eq_some_iff.1 hp
    obtain rfl := trivia_eq_some_iff.1 hskip
    obtain ⟨_, _, -, -, -, hstop⟩ := reaches_collect_trivium _ (Nat.le_refl e.rest.length)
    exact hstop

/-- The calls at the top level of a text. -/
theorem keeps_form (depth : Nat) :
    Keeps (fun _ _ => True) (call (term depth)) fun n => call (term (n - 1)) :=
  keeps_call (keeps_term depth) fun n _ => refuses_term n (.inl rfl)

/-! ### The place where reading stops -/

/-- What stands in front of the place where reading stops: trivia, and calls with trivia behind them
that are read alike if the text ends there. -/
theorem program_front (h : (program c).2.rest ≠ []) :
    ∃ gap body, c.Reaches (gap ++ body) (program c).2 ∧ Trivia gap ∧
      ∀ n, body.length ≤ n → Solid body ∧
        TakesMany (do let form ← call (term n); trivia; return form) (c.position.after gap) body []
          (program c).1 := by
  obtain ⟨gap, last, hgap, htrivia, hlast, -⟩ := reaches_collect_trivium (c := c) _ (Nat.le_refl _)
  obtain ⟨body, hbody, hkeep⟩ := takesMany_behind (keeps_form _) h (run_program c)
  have hne : (collect (lexeme Lexeme.trivium) c.rest.length c).2.rest ≠ [] := by
    rw [hbody.rest]
    exact List.append_ne_nil_of_right_ne_nil body h
  obtain rfl := hlast.resolve_right fun hend => hne hend.2
  rw [List.append_nil] at hgap
  refine ⟨gap, body, hgap.trans hbody, htrivia, fun n hn => ?_⟩
  obtain ⟨hsolid, hmany⟩ := hkeep (n + 1) [] (fun _ => trivial) (fun _ hx => nomatch hx)
    (refuses_call (by simp)) (by omega)
  rw [List.append_nil] at hsolid
  rw [hgap.position] at hmany
  exact ⟨hsolid, hmany⟩

/-- No call can be read where reading stops, at any depth. -/
theorem program_stops (c : Cursor) (depth : Nat) : call (term depth) (program c).2 = none := by
  have hstop : call (term c.rest.length) (program c).2 = none :=
    refused_of_behind (collect_stops (keeps_form _).advances.behind.shortens _ (Nat.le_refl _))
  cases hread : call (term depth) (program c).2 with
  | none => rfl
  | some x =>
    -- A call that is read at one depth is read at each that its text is not longer than.
    obtain ⟨cs, hreach, hne, -, htakes⟩ := keeps_form depth _ _ _ hread
    obtain ⟨gap, body, hfront, -⟩ := program_front (rest_ne_nil_of_reaches hreach hne)
    have hlength := congrArg List.length (hfront.trans hreach).rest
    simp only [List.length_append] at hlength
    have hagain := htakes (c.rest.length + 1) x.2.rest trivial (by omega)
    rw [Takes, ← hreach.rest] at hagain
    cases hstop.symm.trans hagain

/-- No trivia stand where reading stops. -/
theorem trivium_program (c : Cursor) : Lexeme.trivium (program c).2.rest = none := by
  obtain ⟨_, _, -, -, -, hstop⟩ := reaches_collect_trivium (c := c) _ (Nat.le_refl _)
  exact trivium_of_run_behind hstop (run_program c)

end Reader

/-- Trivia and calls with trivia behind them are read to the end. -/
theorem parse_of_takesMany {gap body : List Char} {forms : Program} (hgap : Trivia gap)
    (hbody : Solid body)
    (hforms : Reader.TakesMany
      (do let form ← Reader.call (Reader.term (gap ++ body).length); Reader.trivia; return form)
      (Position.origin.after gap) body [] forms) :
    parse (String.ofList (gap ++ body)) = .ok forms := by
  have hskip : Reader.Takes Reader.trivia .origin gap body () := Reader.takes_trivia hgap hbody
  have hstart := Reader.trivia_eq_some_iff.1 hskip
  have hread := hforms body.length (Nat.le_refl _)
  rw [List.append_nil] at hread
  have hprogram : Reader.program (Cursor.start (String.ofList (gap ++ body))) =
      (forms, ⟨[], (Position.origin.after gap).after body⟩) := by
    rw [Reader.program, Cursor.start, String.toList_ofList]
    simp only [← hstart, hread]
  simp only [parse, hprogram]

/-- The cause of a text that cannot be read on at `c`. -/
def Cause.atStop (c : Char) : Cause :=
  if c = '(' then .malformedCall else .unexpected c

theorem parse_eq_error {text : String} {f : Fault} (h : parse text = .error f) :
    ∃ c rest, (Reader.program (Cursor.start text)).2.rest = c :: rest ∧ f.cause = .atStop c ∧
      f.span = ⟨(Reader.program (Cursor.start text)).2.position,
        (Reader.program (Cursor.start text)).2.position.advance c⟩ := by
  simp only [parse] at h
  split at h
  · cases h
  · rename_i c rest hrest
    cases h
    exact ⟨c, rest, hrest, rfl, rfl⟩

theorem Cause.category_atStop (c : Char) : (Cause.atStop c).category = .unreadable := by
  rw [Cause.atStop]
  split
  · rfl
  · rfl

/-- The cause of a fault in reading tells an opening bracket from any other character. -/
theorem Cause.message_atStop {c : Char} (hc : c ≠ '(') :
    (Cause.atStop c).message =
      "Unexpected `" ++ String.singleton c ++ "`, expecting an invocation." := by
  rw [Cause.atStop, if_neg hc]
  rfl

theorem Cause.message_atStop_eq_iff (c : Char) :
    (Cause.atStop c).message =
      "Malformed expression, check the arguments and the closing parenthesis." ↔ c = '(' := by
  constructor
  · intro h
    by_contra hc
    rw [Cause.message_atStop hc] at h
    have hchars := congrArg String.toList h
    simp at hchars
  · rintro rfl
    rfl

theorem Cause.message_atStop_ne (c : Char) :
    (Cause.atStop c).message ≠ "Unexpected end of input." := by
  intro h
  by_cases hc : c = '('
  · rw [hc] at h
    exact absurd h (by decide)
  · rw [Cause.message_atStop hc] at h
    have hchars := congrArg String.toList h
    simp at hchars

/-- A character that is none of the trivia is no blank and no comma. It may start a comment, namely
one that a carriage return without a line feed breaks off. -/
theorem not_blank_of_trivium {c : Char} {rest : List Char}
    (h : Lexeme.trivium (c :: rest) = none) :
    c ≠ ' ' ∧ c ≠ '\t' ∧ c ≠ '\r' ∧ c ≠ '\n' ∧ c ≠ ',' := by
  have hblank {x : Char} (hx : isBlank x = true) : c ≠ x := by
    rintro rfl
    exact Lexeme.trivium_blank hx rest h
  refine ⟨hblank rfl, hblank rfl, hblank rfl, hblank rfl, ?_⟩
  rintro rfl
  simp [Lexeme.trivium, Lexeme.blanks, Lexeme.comment, Lexeme.comma, isBlank] at h

/-- A text that cannot be read falls into what is read of it, the character at which reading stops,
and a rest. -/
theorem exists_stop_of_parse {text : String} {f : Fault} (h : parse text = .error f) :
    ∃ gap body c rest,
      (Reader.program (Cursor.start text)).2 = ⟨c :: rest, .behind (gap ++ body)⟩ ∧
      f.cause = .atStop c ∧
      f.span = ⟨.behind (gap ++ body), .behind (gap ++ body ++ [c])⟩ ∧
      text.toList = gap ++ body ++ ([c] ++ rest) ∧ Trivia gap ∧
      ∀ n, body.length ≤ n → Solid body ∧
        Reader.TakesMany
          (do let form ← Reader.call (Reader.term n); Reader.trivia; return form)
          (Position.origin.after gap) body [] (Reader.program (Cursor.start text)).1 := by
  obtain ⟨c, rest, hrest, hcause, hspan⟩ := parse_eq_error h
  have hne : (Reader.program (Cursor.start text)).2.rest ≠ [] := by
    rw [hrest]
    exact List.cons_ne_nil c rest
  obtain ⟨gap, body, hreach, hgap, hforms⟩ := Reader.program_front hne
  have hplace : (Reader.program (Cursor.start text)).2.position = .behind (gap ++ body) :=
    hreach.position
  refine ⟨gap, body, c, rest, ?_, hcause, ?_, ?_, hgap, hforms⟩
  · rw [← hrest, ← hplace]
  · rw [hspan, hplace, Position.behind_append _ [c]]
    rfl
  · rw [List.singleton_append, ← hrest]
    exact hreach.rest

/-- Where no call is read, none is written. -/
theorem not_isPrefix_of_refused {rest : List Char} {place : Position}
    (h : ∀ depth, Reader.call (Reader.term depth) ⟨rest, place⟩ = none) {call : Call}
    {cs : List Char} (hw : call.term.WellFormed) (hl : Layout call.term cs) : ¬ cs <+: rest := by
  rintro ⟨back, rfl⟩
  have hreads : Reader.Reads (Reader.call (Reader.term cs.length)) _ cs back :=
    (Reader.readsLayouts_term cs.length).call hw hl (Nat.le_succ _)
  obtain ⟨form, behind, hread, -⟩ := hreads place
  rw [h] at hread
  cases hread

/-- A fault in reading a text points at the character `c` where the text cannot be read on. The text
in front of it is read alone, with the same spans, as the calls that were read before; at it no call
is read, and none is written there. -/
structure Fault.MarksStop (f : Fault) (text : String) (c : Char) : Prop where
  inside : f.span.start.offset < text.utf8ByteSize
  start : f.span.start.Faithful text
  char : cut text f.span.start.offset f.span.stop.offset = [c]
  stop : f.span.stop.offset = f.span.start.offset + c.utf8Size
  solid : c ≠ ' ' ∧ c ≠ '\t' ∧ c ≠ '\r' ∧ c ≠ '\n' ∧ c ≠ ','
  front : parse (String.ofList (cut text 0 f.span.start.offset)) =
    .ok (Reader.program (Cursor.start text)).1
  refused : ∀ depth, Reader.call (Reader.term depth)
    ⟨cut text f.span.start.offset text.utf8ByteSize, f.span.start⟩ = none
  unwritten : ∀ (call : Call) (cs : List Char), call.term.WellFormed → Layout call.term cs →
    ¬ cs <+: cut text f.span.start.offset text.utf8ByteSize
  failure : f.failure text = .unreadable f.cause.message (some f.span)
  malformed : f.cause.message =
    "Malformed expression, check the arguments and the closing parenthesis." ↔ c = '('
  unexpected : c ≠ '(' →
    f.cause.message = "Unexpected `" ++ String.singleton c ++ "`, expecting an invocation."
  noEnd : f.cause.message ≠ "Unexpected end of input."

/-- A text that is not read to its end is refused at the first call of the top level that cannot be
read. -/
theorem unreadable_text_marks_first_unreadable_call {text : String} {f : Fault}
    (h : parse text = .error f) : ∃ c, f.MarksStop text c := by
  obtain ⟨gap, body, c, rest, hstop, hcause, hspan, htext, hgap, hforms⟩ := exists_stop_of_parse h
  have hstops := Reader.program_stops (Cursor.start text)
  have htrivium := Reader.trivium_program (Cursor.start text)
  rw [hstop] at hstops htrivium
  have hwhole : text.toList = gap ++ body ++ (([c] ++ rest) ++ []) := by rw [List.append_nil, htext]
  have htail : cut text (Position.behind (gap ++ body)).offset text.utf8ByteSize = c :: rest := by
    rw [← offset_behind_eq_size htext]
    exact cut_behind hwhole
  obtain ⟨hsolid, hmany⟩ := hforms (gap ++ body).length (by simp)
  refine ⟨c, ?_⟩
  constructor
  case inside =>
    rw [hspan, ← offset_behind_eq_size htext]
    exact offset_lt_behind (List.cons_ne_nil c rest)
  case start =>
    rw [hspan]
    exact faithful_behind htext
  case char =>
    rw [hspan]
    exact cut_behind htext
  case stop =>
    rw [hspan, Position.offset_behind, Position.offset_behind, String.utf8Len_append]
    simp
  case solid => exact not_blank_of_trivium htrivium
  case front =>
    rw [hspan, cut_zero_behind htext]
    exact parse_of_takesMany hgap hsolid hmany
  case refused =>
    intro depth
    rw [hspan, htail]
    exact hstops depth
  case unwritten =>
    intro call cs hw hl
    rw [hspan, htail]
    exact not_isPrefix_of_refused hstops hw hl
  case failure =>
    rw [Fault.failure, hcause, Cause.category_atStop]
  case malformed =>
    rw [hcause]
    exact Cause.message_atStop_eq_iff c
  case unexpected =>
    intro hc
    rw [hcause]
    exact Cause.message_atStop hc
  case noEnd =>
    rw [hcause]
    exact Cause.message_atStop_ne c

/-- A comment that a carriage return breaks off, behind a call, a comment and a comma. -/
theorem unreadable_text_marks_first_unreadable_call_comment :
    ∃ f, parse "(f \"ö\" [x::y]) ; a\n,; b\r(g)" = .error f ∧
      f.span = ⟨⟨21, 2, 2⟩, ⟨22, 2, 3⟩⟩ ∧
      f.cause.message = "Unexpected `;`, expecting an invocation." ∧
      ∃ c, f.MarksStop "(f \"ö\" [x::y]) ; a\n,; b\r(g)" c := by
  have hfault : (parse "(f \"ö\" [x::y]) ; a\n,; b\r(g)").map (fun _ => ()) =
      .error ⟨.unexpected ';', ⟨⟨21, 2, 2⟩, ⟨22, 2, 3⟩⟩⟩ := by
    decide +kernel
  cases h : parse "(f \"ö\" [x::y]) ; a\n,; b\r(g)" with
  | ok p =>
    rw [h] at hfault
    cases hfault
  | error f =>
    rw [h] at hfault
    cases hfault
    exact ⟨_, rfl, rfl, rfl, unreadable_text_marks_first_unreadable_call h⟩

end LispLua
