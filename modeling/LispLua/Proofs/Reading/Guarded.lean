import LispLua.Proofs.Reading.Stop

/-!
# Reading comes to an end

The readers bound their repetitions and the depth of nesting by the length of the text. Here the
same grammar is read without bounds. Every repetition and every nested term is watched instead: it
is a standstill if the text left to read has not become shorter. No text leads to one, so the bounds
are never what stops a reader, and the grammar can be read by plain recursion.
-/

namespace LispLua

/-- How reading would go on for ever: something is repeated that takes nothing, or a term has a term
inside it that starts no later. -/
inductive Standstill where
  | repetition
  | recursion

/-- A reader that notices a standstill. -/
abbrev Guarded := StateT Cursor (OptionT (Except Standstill))

namespace Lexeme

/-- A run without quotes and backslashes. -/
def unmarked : Lexeme
  | cs =>
    match cs.takeWhile fun c => c != '"' && c != '\\' with
    | [] => none
    | run => some run

/-- A backslash and the character it guards. -/
def escape : Lexeme
  | '\\' :: c :: _ => some ['\\', c]
  | _ => none

/-- A piece of a string literal. -/
def piece : Lexeme := fun cs =>
  unmarked cs <|> escape cs

end Lexeme

namespace Guarded

variable {α β : Type}

/-- A reader without repetition. -/
def plain (r : Reader α) : Guarded α := fun c => .ok (r c)

/-- Apply a reader until it refuses. Each time it must leave less of the text. -/
def collect (r : Guarded α) (c : Cursor) : Except Standstill (List α × Cursor) :=
  match r c with
  | .error e => .error e
  | .ok none => .ok ([], c)
  | .ok (some (a, next)) =>
    if next.rest.length < c.rest.length then do
      let (as, stop) ← collect r next
      return (a :: as, stop)
    else .error .repetition
termination_by c.rest.length

/-- Apply a reader until it refuses. -/
def many (r : Guarded α) : Guarded (List α) := fun c =>
  (collect r c).map some

/-- Skip what may stand between terms. -/
def trivia : Guarded Unit := do
  let _ ← many (plain (.lexeme Lexeme.trivium))

/-- Read with `r` and give the span that was read. -/
def spanned (r : Guarded α) : Guarded (α × Span) := do
  let start ← plain Reader.position
  let a ← r
  return (a, ⟨start, ← plain Reader.position⟩)

/-- A string literal, piece by piece. -/
def string : Guarded Token := do
  let (pieces, span) ← spanned do
    plain (.char '"')
    let pieces ← many (plain (.lexeme Lexeme.piece))
    plain (.char '"')
    return pieces
  return ⟨String.ofList ('"' :: (pieces.flatten ++ ['"'])), span⟩

/-- A name, which may go on as a path. -/
def reference : Guarded Term := do
  let ((root, segments), span) ← spanned do
    let root ← plain (.token Lexeme.identifier)
    return (root, ← many (plain .segment))
  match segments with
  | [] => return .name root
  | _ => return .path ⟨root, segments, span⟩

/-- Anything that can be called. -/
def target : Guarded Term :=
  (return .wildcard (← plain .wildcard)) <|>
  (return .symbol (← plain .symbol)) <|>
  (return .number (← plain .number)) <|>
  reference

/-- A call, whose arguments are read by `inner`. -/
def call (inner : Guarded Term) : Guarded Call := do
  let ((target, args), span) ← spanned do
    plain (.char '(')
    trivia
    let target ← target
    let args ← many (do trivia; inner)
    trivia
    plain (.char ')')
    return (target, args)
  return ⟨target, args, span⟩

/-- Terms read by `inner`, each followed by trivia. -/
def terms (inner : Guarded Term) : Guarded (List Term) :=
  many do
    let t ← inner
    trivia
    return t

/-- A list, whose items are read by `inner`. -/
def list (inner : Guarded Term) : Guarded Term := do
  let (items, span) ← spanned do
    plain (.char '[')
    trivia
    let items ← terms inner
    plain (.char ']')
    return items
  return .list items span

/-- A table, whose keys and values are read by `inner`. -/
def table (inner : Guarded Term) : Guarded Term := do
  let ((escaped, items), span) ← spanned do
    let escaped ← plain .quote
    plain (.char '\x7b')
    trivia
    let items ← terms inner
    plain (.char '\x7d')
    return (escaped, items)
  return .table items escaped span

/-- A term, whose parts are read by `inner`. -/
def shallow (inner : Guarded Term) : Guarded Term :=
  (return (← call inner).term) <|>
  list inner <|>
  table inner <|>
  (return .string (← string)) <|>
  target

/-- A term. One inside it must start where less of the text is left. -/
def term (c : Cursor) : OptionT (Except Standstill) (Term × Cursor) :=
  shallow (fun d => if _h : d.rest.length < c.rest.length then term d
    else Except.error .recursion) c
termination_by c.rest.length

/-- The calls a text starts with, and the cursor where no further one can be read. -/
def program (c : Cursor) : Except Standstill (Program × Cursor) := do
  let (_, start) ← collect (plain (.lexeme Lexeme.trivium)) c
  collect (do let form ← call term; trivia; return form) start

/-- Read a whole text. -/
def parse (text : String) : Except Standstill (Except Fault Program) := do
  let (forms, stop) ← program (Cursor.start text)
  match stop.rest with
  | [] => return .ok forms
  | c :: _ => return .error ⟨.atStop c, ⟨stop.position, stop.position.advance c⟩⟩

/-! ### Agreement -/

/-- At a cursor, the guarded reader meets no standstill and does what the reader does. -/
def Agrees (s : Guarded α) (r : Reader α) (c : Cursor) : Prop :=
  s c = Except.ok (r c)

variable {s : Guarded α} {r : Reader α} {c : Cursor}

theorem agrees_plain (r : Reader α) (c : Cursor) : Agrees (plain r) r c := rfl

theorem agrees_pure (a : α) (c : Cursor) : Agrees (pure a) (pure a) c := rfl

/-- The second reader need agree only behind what the first one reads. -/
theorem Agrees.bind {k : α → Guarded β} {l : α → Reader β} (hs : Agrees s r c)
    (hk : ∀ a d, r c = some (a, d) → Agrees (k a) (l a) d) : Agrees (s >>= k) (r >>= l) c := by
  show OptionT.bind (s c) (fun x => k x.1 x.2) = Except.ok ((r c).bind fun x => l x.1 x.2)
  rw [hs]
  cases hr : r c with
  | none => rfl
  | some x => exact hk x.1 x.2 hr

theorem Agrees.map {f : α → β} (hs : Agrees s r c) :
    Agrees (do return f (← s)) (do return f (← r)) c :=
  hs.bind fun _ _ _ => agrees_pure _ _

theorem Agrees.orElse {s' : Guarded α} {r' : Reader α} (hs : Agrees s r c) (hs' : Agrees s' r' c) :
    Agrees (s <|> s') (r <|> r') c := by
  show OptionT.orElse (s c) (fun _ => s' c) = Except.ok (r c <|> r' c)
  rw [hs]
  cases r c with
  | none => exact hs'
  | some x => rfl

theorem Agrees.spanned (hs : Agrees s r c) : Agrees (spanned s) (Reader.spanned r) c :=
  (agrees_plain Reader.position c).bind fun _ d hd => by
    obtain ⟨-, rfl⟩ : _ ∧ d = c := Prod.mk.inj (Option.some.inj hd.symm)
    exact hs.bind fun _ e _ => (agrees_plain Reader.position e).map

/-- Repetition comes to the end that its bound allows for. -/
theorem collect_eq (hr : Reader.Shortens r) (n : Nat) (hn : c.rest.length ≤ n)
    (hs : ∀ d, d.rest.length ≤ c.rest.length → Agrees s r d) :
    collect s c = .ok (Reader.collect r n c) := by
  induction n generalizing c with
  | zero =>
    have hstop : r c = none := by
      cases hread : r c with
      | none => rfl
      | some x => exact absurd (hr c x.2 x.1 hread) (by omega)
    rw [collect, hs c le_rfl, hstop]
    rfl
  | succ n ih =>
    rw [collect, hs c le_rfl, Reader.collect]
    cases hread : r c with
    | none => rfl
    | some x =>
      obtain ⟨a, next⟩ := x
      have hlt := hr c next a hread
      have hrest := ih (c := next) (by omega) fun d hd => hs d (by omega)
      simp only [if_pos hlt, hrest]
      rfl

theorem agrees_many (hr : Reader.Shortens r)
    (hs : ∀ d, d.rest.length ≤ c.rest.length → Agrees s r d) :
    Agrees (many s) (Reader.many r) c := by
  show (collect s c).map some = _
  rw [collect_eq hr _ le_rfl hs]
  rfl

theorem agrees_trivia (c : Cursor) : Agrees trivia Reader.trivia c :=
  (agrees_many (Reader.advances_lexeme Lexeme.cuts_trivium).shortens fun d _ =>
    agrees_plain _ d).map

theorem Agrees.behind (hs : Agrees s r c) :
    Agrees (do let a ← s; trivia; return a) (do let a ← r; Reader.trivia; return a) c :=
  hs.bind fun _ d _ => (agrees_trivia d).bind fun _ _ _ => agrees_pure _ _

end Guarded

/-! ### String literals -/

namespace Lexeme

variable {cs rest text : List Char}

theorem unmarked_eq_some (h : unmarked cs = some text) :
    text = (cs.takeWhile fun c => c != '"' && c != '\\') ∧ text ≠ [] := by
  simp only [unmarked] at h
  split at h
  · cases h
  · rename_i hne
    cases h
    exact ⟨rfl, hne⟩

theorem escape_eq_some (h : escape cs = some text) :
    ∃ c rest, text = ['\\', c] ∧ cs = '\\' :: c :: rest := by
  unfold escape at h
  split at h
  · cases h
    exact ⟨_, _, rfl, rfl⟩
  · cases h

theorem quoted_unmarked {run : List Char} (h : ∀ c ∈ run, c ≠ '"' ∧ c ≠ '\\')
    (rest : List Char) : quoted (run ++ rest) = (quoted rest).map (run ++ ·) := by
  induction run with
  | nil => simp
  | cons c run ih =>
    obtain ⟨⟨hquote, hescape⟩, hrun⟩ := List.forall_mem_cons.1 h
    rw [List.cons_append, quoted, ih hrun, Option.map_map]
    · rfl
    · exact hquote
    · intro hc
      exact absurd hc hescape
    · intro d ds hc
      exact absurd hc hescape

/-- A piece stands at the start of a text, and the rest of the literal is looked for behind it. -/
theorem quoted_of_piece (h : piece cs = some text) :
    text ≠ [] ∧ ∃ rest, cs = text ++ rest ∧ quoted cs = (quoted rest).map (text ++ ·) := by
  rw [piece] at h
  cases hrun : unmarked cs with
  | some run =>
    rw [hrun] at h
    cases h
    obtain ⟨htext, hne⟩ := unmarked_eq_some hrun
    obtain ⟨rest, hrest⟩ : text <+: cs := htext ▸ List.takeWhile_prefix _
    refine ⟨hne, rest, hrest.symm, ?_⟩
    rw [← hrest]
    refine quoted_unmarked (fun c hc => ?_) rest
    rw [htext] at hc
    simpa using List.mem_takeWhile_imp hc
  | none =>
    rw [hrun] at h
    obtain ⟨c, rest, rfl, rfl⟩ := escape_eq_some h
    exact ⟨List.cons_ne_nil _ _, rest, rfl, rfl⟩

/-- Where no piece stands the literal ends, or nothing is left but a backslash that guards
nothing. -/
theorem quoted_of_refused (h : piece cs = none) :
    quoted cs = if cs.head? = some '"' then some ['"'] else none := by
  cases cs with
  | nil => rfl
  | cons c cs =>
    by_cases hquote : c = '"'
    · subst hquote
      rfl
    · by_cases hescape : c = '\\'
      · subst hescape
        cases cs with
        | nil => rfl
        | cons d ds => simp [piece, unmarked, escape] at h
      · simp [piece, unmarked, hquote, hescape] at h

theorem cuts_piece : Cuts piece := by
  intro cs text h
  obtain ⟨hne, rest, rfl, -⟩ := quoted_of_piece h
  exact ⟨List.prefix_append _ _, hne⟩

end Lexeme

namespace Reader

variable {c d : Cursor}

/-- A string literal, piece by piece. -/
def pieced : Reader Token := do
  let (pieces, span) ← spanned do
    char '"'
    let pieces ← many (lexeme Lexeme.piece)
    char '"'
    return pieces
  return ⟨String.ofList ('"' :: (pieces.flatten ++ ['"'])), span⟩

/-- The literal goes on behind the pieces that are read of it. -/
theorem quoted_of_run {pieces : List (List Char)} (h : Run (lexeme Lexeme.piece) c pieces d) :
    c.Reaches pieces.flatten d ∧
      Lexeme.quoted c.rest = (Lexeme.quoted d.rest).map (pieces.flatten ++ ·) := by
  induction h with
  | nil c => exact ⟨.refl c, by simp⟩
  | @cons c e d piece pieces hread _ ih =>
    obtain ⟨hpiece, rfl⟩ := lexeme_eq_some_iff.1 hread
    obtain ⟨-, rest, hrest, hquoted⟩ := Lexeme.quoted_of_piece hpiece
    obtain ⟨hreach, hmore⟩ := ih
    have hskip : (c.skip piece).rest = rest := by rw [Cursor.skip, hrest, List.drop_left]
    refine ⟨?_, ?_⟩
    · exact (Cursor.Reaches.skip ⟨rest, hrest.symm⟩).trans hreach
    · rw [hquoted, ← hskip, hmore, Option.map_map, List.flatten_cons]
      simp [Function.comp_def]

theorem string_of_pieced {t : Token} (h : pieced c = some (t, d)) : string c = some (t, d) := by
  obtain ⟨⟨pieces, span⟩, e, hs, hp⟩ := bind_eq_some_iff.1 h
  obtain ⟨rfl, rfl⟩ := pure_eq_some_iff.1 hp
  obtain ⟨hr, rfl⟩ := spanned_eq_some_iff.1 hs
  obtain ⟨_, e₁, hopen, hr⟩ := bind_eq_some_iff.1 hr
  obtain ⟨_, e₂, hmany, hr⟩ := bind_eq_some_iff.1 hr
  obtain ⟨_, e₃, hclose, hr⟩ := bind_eq_some_iff.1 hr
  obtain ⟨rfl, rfl⟩ := pure_eq_some_iff.1 hr
  obtain ⟨hreach, hquoted⟩ := quoted_of_run (run_many hmany)
  have hfirst := reaches_char hopen
  have hlast := reaches_char hclose
  refine token_eq_some_iff.2 ⟨_, ?_, (hfirst.trans (hreach.trans hlast)).eq_skip, rfl⟩
  have hend : Lexeme.quoted e₂.rest = some ['"'] := by
    rw [hlast.rest]
    rfl
  rw [hfirst.rest, List.singleton_append, Lexeme.string, hquoted, hend]
  rfl

theorem pieced_of_string {t : Token} (h : string c = some (t, d)) : ∃ y, pieced c = some y := by
  obtain ⟨text, htext, -⟩ := token_eq_some_iff.1 h
  unfold Lexeme.string at htext
  split at htext
  · rename_i cs hrest
    obtain ⟨inner, hinner, -⟩ := Option.map_eq_some_iff.1 htext
    have hopen : char '"' c = some ((), c.skip ['"']) := by
      refine char_eq_some_iff.2 ⟨?_, rfl⟩
      rw [hrest]
      rfl
    have hskip : (c.skip ['"']).rest = cs := by
      rw [Cursor.skip, hrest]
      rfl
    obtain ⟨pieces, e, hmany⟩ : ∃ pieces e, many (lexeme Lexeme.piece) (c.skip ['"']) =
      some (pieces, e) := ⟨_, _, rfl⟩
    -- the pieces end where none stands, and the literal still has its quote to come
    have hstop : Lexeme.piece e.rest = none :=
      lexeme_eq_none_iff.1 (many_stops (advances_lexeme Lexeme.cuts_piece).shortens hmany)
    obtain ⟨-, hquoted⟩ := quoted_of_run (run_many hmany)
    rw [hskip, hinner, Lexeme.quoted_of_refused hstop] at hquoted
    split at hquoted
    · rename_i hhead
      have hclose : char '"' e = some ((), e.skip ['"']) := char_eq_some_iff.2 ⟨hhead, rfl⟩
      have hparts : spanned (do
          char '"'
          let pieces ← many (lexeme Lexeme.piece)
          char '"'
          return pieces) c = some ((pieces, ⟨c.position, (e.skip ['"']).position⟩), e.skip ['"']) :=
        spanned_eq_some_iff.2 ⟨bind_eq_some_iff.2 ⟨_, _, hopen, bind_eq_some_iff.2 ⟨_, _, hmany,
          bind_eq_some_iff.2 ⟨_, _, hclose, rfl⟩⟩⟩, rfl⟩
      exact ⟨_, bind_eq_some_iff.2 ⟨_, _, hparts, rfl⟩⟩
    · cases hquoted
  · cases htext

theorem pieced_eq_string (c : Cursor) : pieced c = string c := by
  cases hstring : string c with
  | some x =>
    obtain ⟨y, hy⟩ := pieced_of_string hstring
    rw [hy, ← hstring, string_of_pieced hy]
  | none =>
    cases hpieced : pieced c with
    | none => rfl
    | some y =>
      rw [string_of_pieced hpieced] at hstring
      cases hstring

end Reader

namespace Guarded

variable {c : Cursor}

theorem agrees_string (c : Cursor) : Agrees string Reader.string c := by
  have hpieced : Agrees string Reader.pieced c := by
    refine Agrees.bind (Agrees.spanned ?_) fun _ _ _ => agrees_pure _ _
    refine (agrees_plain _ _).bind fun _ d _ => Agrees.bind ?_ fun _ _ _ => (agrees_plain _ _).map
    exact agrees_many (Reader.advances_lexeme Lexeme.cuts_piece).shortens fun e _ =>
      agrees_plain _ e
  rwa [Agrees, Reader.pieced_eq_string] at hpieced

/-! ### Names and targets -/

theorem agrees_reference (c : Cursor) : Agrees reference Reader.reference c := by
  refine Agrees.bind (Agrees.spanned ?_) fun x d _ => ?_
  · refine (agrees_plain _ _).bind fun _ _ _ => Agrees.map ?_
    exact agrees_many Reader.shortens_segment fun e _ => agrees_plain _ e
  · obtain ⟨⟨root, segments⟩, span⟩ := x
    cases segments <;> exact agrees_pure _ _

theorem agrees_target (c : Cursor) : Agrees target Reader.target c :=
  (agrees_plain _ _).map.orElse <| (agrees_plain _ _).map.orElse <|
    (agrees_plain _ _).map.orElse (agrees_reference c)

/-! ### Terms -/

section Nested

variable {s : Guarded Term} {r : Reader Term}

/-- The terms of a bracket, if all terms behind the cursor agree. -/
theorem agrees_terms (hr : Reader.Advances r)
    (hs : ∀ d, d.rest.length ≤ c.rest.length → Agrees s r d) :
    Agrees (terms s) (Reader.terms r) c := by
  refine agrees_many hr.behind.shortens fun d hd => ?_
  exact (hs d hd).behind

theorem agrees_call (hr : Reader.Advances r)
    (hs : ∀ d, d.rest.length < c.rest.length → Agrees s r d) :
    Agrees (call s) (Reader.call r) c := by
  refine Agrees.bind (Agrees.spanned ?_) fun _ _ _ => agrees_pure _ _
  refine (agrees_plain _ _).bind fun _ e₁ h₁ => (agrees_trivia _).bind fun _ e₂ h₂ => ?_
  refine (agrees_target _).bind fun _ e₃ h₃ => Agrees.bind ?_ fun _ e₄ _ => ?_
  · -- the opening bracket is gone, so the arguments all start behind the call
    have hopen := (Reader.advances_char _ _ _ _ h₁).2
    have hskip := (Reader.leaves_trivia _ _ _ h₂).length_le
    have htarget := (Reader.advances_target _ _ _ h₃).2
    refine agrees_many (Reader.leaves_trivia.bind_advances fun _ => hr).shortens fun d hd => ?_
    refine (agrees_trivia d).bind fun _ e he => hs e ?_
    have hgap := (Reader.leaves_trivia _ _ _ he).length_le
    omega
  · exact (agrees_trivia _).bind fun _ e₅ _ => (agrees_plain _ _).map

/-- A bracket takes its opening character before anything inside it is read. -/
theorem agrees_inside {β : Type} (opening closing : Char) (f : List Term → β)
    (hr : Reader.Advances r) {n : Nat} (hc : c.rest.length ≤ n)
    (hs : ∀ d, d.rest.length < n → Agrees s r d) :
    Agrees (do plain (.char opening); trivia; let ts ← terms s; plain (.char closing); return f ts)
      (do Reader.char opening; Reader.trivia; let ts ← Reader.terms r; Reader.char closing
          return f ts) c := by
  refine (agrees_plain _ _).bind fun _ e₁ h₁ => (agrees_trivia _).bind fun _ e₂ h₂ => ?_
  have hopen := (Reader.advances_char _ _ _ _ h₁).2
  have hskip := (Reader.leaves_trivia _ _ _ h₂).length_le
  exact (agrees_terms hr fun d hd => hs d (by omega)).bind fun _ _ _ => (agrees_plain _ _).map

theorem agrees_list (hr : Reader.Advances r)
    (hs : ∀ d, d.rest.length < c.rest.length → Agrees s r d) :
    Agrees (list s) (Reader.list r) c :=
  (agrees_inside '[' ']' id hr le_rfl hs).spanned.map

theorem agrees_table (hr : Reader.Advances r)
    (hs : ∀ d, d.rest.length < c.rest.length → Agrees s r d) :
    Agrees (table s) (Reader.table r) c := by
  refine Agrees.bind (Agrees.spanned ?_) fun _ _ _ => agrees_pure _ _
  refine (agrees_plain Reader.quote c).bind fun escaped e h => ?_
  have hquote : e.rest.length ≤ c.rest.length := by
    have hlength := congrArg List.length (Reader.reaches_quote h).rest
    rw [List.length_append] at hlength
    omega
  exact agrees_inside '\x7b' '\x7d' (fun items => (escaped, items)) hr hquote hs

end Nested

/-- A term agrees if the terms inside it do, which all start where less of the text is left. -/
theorem agrees_shallow {s : Guarded Term} {depth : Nat}
    (hs : ∀ d, d.rest.length < c.rest.length → Agrees s (Reader.term depth) d) :
    Agrees (shallow s) (Reader.term (depth + 1)) c := by
  have hr := Reader.advances_term depth
  exact (agrees_call hr hs).map.orElse <| (agrees_list hr hs).orElse <|
    (agrees_table hr hs).orElse <| (agrees_string c).map.orElse (agrees_target c)

/-- The guard on nested terms lets every term through that is inside another. -/
theorem agrees_term_succ {depth : Nat}
    (hs : ∀ d, d.rest.length < c.rest.length → Agrees term (Reader.term depth) d) :
    Agrees term (Reader.term (depth + 1)) c := by
  rw [Agrees, term]
  refine agrees_shallow fun d hd => ?_
  rw [Agrees, dif_pos hd]
  exact hs d hd

/-- Depth is enough as soon as it is the length of what is left. -/
theorem agrees_term (depth : Nat) (hc : c.rest.length ≤ depth) :
    Agrees term (Reader.term depth) c := by
  induction depth generalizing c with
  | zero =>
    -- nothing is left to read, so a depth of one reads no more than a depth of zero
    have hone : Agrees term (Reader.term 1) c := agrees_term_succ fun d hd => by omega
    have hnone : Reader.term 1 c = none := by
      cases hread : Reader.term 1 c with
      | none => rfl
      | some x =>
        have hlt := (Reader.advances_term 1 _ _ _ hread).2
        omega
    rw [Agrees, hone, hnone]
    rfl
  | succ depth ih => exact agrees_term_succ fun d hd => ih (by omega)

theorem program_eq (c : Cursor) : program c = .ok (Reader.program c) := by
  have htrivia := Reader.advances_lexeme Lexeme.cuts_trivium
  have hstart : collect (plain (.lexeme Lexeme.trivium)) c =
      .ok (Reader.collect (.lexeme Lexeme.trivium) c.rest.length c) :=
    collect_eq htrivia.shortens _ le_rfl fun d _ => agrees_plain _ d
  have hle : (Reader.collect (.lexeme Lexeme.trivium) c.rest.length c).2.rest.length ≤
      c.rest.length :=
    (Reader.leaves_of_run htrivia.leaves (Reader.run_collect _ _ _)).length_le
  have hforms := collect_eq (c := (Reader.collect (.lexeme Lexeme.trivium) c.rest.length c).2)
    (s := do let form ← call term; trivia; return form)
    (Reader.grammarAdvances c.rest.length).call.behind.shortens _ le_rfl fun d hd =>
      (agrees_call (Reader.advances_term _) fun e he => agrees_term _ (by omega)).behind
  rw [program, hstart]
  exact hforms

theorem parse_eq (text : String) : parse text = .ok (LispLua.parse text) := by
  rw [parse, program_eq, LispLua.parse]
  obtain ⟨forms, ⟨rest, position⟩⟩ := Reader.program (Cursor.start text)
  cases rest <;> rfl

/-- At a cursor, none of the readers of the grammar meets a standstill, and each does what the reader
does that goes no deeper than `depth`. -/
structure GrammarAgrees (depth : Nat) (c : Cursor) : Prop where
  call : Agrees (call term) (Reader.call (Reader.term depth)) c
  term : Agrees term (Reader.term depth) c
  target : Agrees target Reader.target c
  list : Agrees (list Guarded.term) (Reader.list (Reader.term depth)) c
  table : Agrees (table Guarded.term) (Reader.table (Reader.term depth)) c
  reference : Agrees reference Reader.reference c
  string : Agrees string Reader.string c
  trivia : Agrees trivia Reader.trivia c
  terms : Agrees (terms Guarded.term) (Reader.terms (Reader.term depth)) c

theorem grammarAgrees {depth : Nat} (hc : c.rest.length ≤ depth) : GrammarAgrees depth c := by
  have hr := Reader.advances_term depth
  have hs (d : Cursor) (hd : d.rest.length ≤ c.rest.length) : Agrees term (Reader.term depth) d :=
    agrees_term depth (hd.trans hc)
  constructor
  case call => exact agrees_call hr fun d hd => hs d hd.le
  case term => exact agrees_term depth hc
  case target => exact agrees_target c
  case list => exact agrees_list hr fun d hd => hs d hd.le
  case table => exact agrees_table hr fun d hd => hs d hd.le
  case reference => exact agrees_reference c
  case string => exact agrees_string c
  case trivia => exact agrees_trivia c
  case terms => exact agrees_terms hr hs

end Guarded

/-- The readers of the grammar take something off the text whenever they read, and trivia are never
refused. So no reader meets a standstill at any cursor, whatever it is nested in, and every text is
read to a program or to a fault with a place in it. -/
theorem reading_progresses :
    (∀ depth, Reader.GrammarAdvances depth) ∧
    (∀ c deeper, Guarded.GrammarAgrees (c.rest.length + deeper) c) ∧
    ∀ text, Guarded.parse text = .ok (parse text) ∧
      ((∃ p, parse text = .ok p) ∨
        ∃ f message span, parse text = .error f ∧
          f.failure text = .unreadable message (some span) ∧
          message ≠ "Unexpected end of input.") := by
  refine ⟨Reader.grammarAdvances, fun c deeper => Guarded.grammarAgrees (Nat.le_add_right _ _),
    fun text => ⟨Guarded.parse_eq text, ?_⟩⟩
  cases hparse : parse text with
  | ok p => exact .inl ⟨p, rfl⟩
  | error f =>
    obtain ⟨c, -, -, hcause, -⟩ := parse_eq_error hparse
    refine .inr ⟨f, f.cause.message, f.span, rfl, ?_, ?_⟩
    · rw [Fault.failure, hcause, Cause.category_atStop]
    · rw [hcause]
      exact Cause.message_atStop_ne c

end LispLua
