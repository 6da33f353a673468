import LispLua.Proofs.Lexical.Gaps

/-!
# Reading choices

A choice is read from its text: the text is cut at those words `then`, `elseif`, `else` and `end`
that belong to the choice itself and not to brackets, blocks, choices, strings or comments inside
it. What stands between the words may be anything that closes what it opens.
-/

namespace LispLua.Lua

/-- A choice of Lua: tests with their blocks, tried in order, and a block for when none holds. -/
structure Choice where
  clauses : List (String × String)
  otherwise : Option String
  deriving DecidableEq

namespace Choice

/-- The words of a choice behind its `if`. -/
inductive Keyword where
  | thenWord | elseifWord | elseWord | endWord
  deriving DecidableEq

/-- How a word is written. -/
def Keyword.chars : Keyword → List Char
  | thenWord => "then".toList
  | elseifWord => "elseif".toList
  | elseWord => "else".toList
  | endWord => "end".toList

/-- The word that some characters are. -/
def keyword? (word : List Char) : Option Keyword :=
  [Keyword.thenWord, .elseifWord, .elseWord, .endWord].find? (·.chars = word)

/-- The word of the choice around a text that ends in front of a character of the text. -/
def wordBefore? (s : Scan) (c : Char) : Option Keyword :=
  match s with
  | ⟨.code word, [.choice]⟩ => if isWordChar c then none else keyword? word
  | _ => none

/-- Cut a text inside a choice at the words of the choice: the code in front of each word, and the
text behind the last. `code` has been read since the last word. -/
def cut (s : Scan) (code : List Char) :
    List Char → Option (List (List Char × Keyword) × List Char)
  | [] => some ([], code)
  | c :: cs => (s.step c).bind fun s' =>
    match wordBefore? s c with
    | none => cut s' (code ++ [c]) cs
    | some w =>
      let piece := (code.take (code.length - w.chars.length), w)
      (cut s' [c] cs).map fun r => (piece :: r.1, r.2)

/-- A text without a blank at its start and one at its end. -/
def unpad (cs : List Char) : String :=
  let dropBlank (cs : List Char) : List Char := if cs.head? = some ' ' then cs.tail else cs
  String.ofList (dropBlank (dropBlank cs).reverse).reverse

/-- The pieces of a text that starts with `if` and ends with a word of its choice. -/
def pieces (text : String) : Option (List (String × Keyword)) :=
  match text.toList with
  | 'i' :: 'f' :: ' ' :: cs => (cut ⟨.code [], [.choice]⟩ [' '] (cs ++ [' '])).bind fun r =>
    if r.2 = [' '] then some (r.1.map fun piece => (unpad piece.1, piece.2)) else none
  | _ => none

/-- The clauses that some pieces are, with the block behind `else`. -/
def readClauses : List (String × Keyword) → Option Choice
  | (test, .thenWord) :: (block, .elseifWord) :: rest =>
    (readClauses rest).map fun c => { c with clauses := (test, block) :: c.clauses }
  | [(test, .thenWord), (block, .elseWord), (otherwise, .endWord)] =>
    some ⟨[(test, block)], some otherwise⟩
  | [(test, .thenWord), (block, .endWord)] => some ⟨[(test, block)], none⟩
  | _ => none

/-- Read a choice. -/
def read (text : String) : Option Choice :=
  (pieces text).bind readClauses

example : read "if f(\"then\") then return (function() if b then return 1; end end)(); end" =
    some ⟨[("f(\"then\")", "return (function() if b then return 1; end end)();")], none⟩ := by
  decide +kernel

example : read "if a--b == 1 then return 2; end" = none := by decide +kernel

/-! ### Cutting -/

theorem keyword?_chars (w : Keyword) : keyword? w.chars = some w := by
  cases w <;> rfl

theorem closeWord_keyword {word : List Char} {w : Keyword} (h : keyword? word = some w) :
    closeWord word [] = none := by
  have hword : w.chars = word := by
    simpa using List.find?_some h
  subst hword
  cases w <;> rfl

/-- In a text that closes all it opens no word belongs to a choice around it. -/
theorem wordBefore?_above {s s' : Scan} {c : Char} (h : s.step c = some s') :
    wordBefore? (s.above [.choice]) c = none := by
  obtain ⟨mode, openers⟩ := s
  cases mode with
  | code word =>
    cases openers with
    | nil =>
      show (if isWordChar c then none else keyword? word) = none
      split
      · rfl
      · rename_i hc
        cases hword : keyword? word with
        | none => rfl
        | some w =>
          have hnone := closeWord_keyword hword
          simp [Scan.step, codeStep, hc, hnone] at h
    | cons opener openers => cases opener <;> cases openers <;> rfl
  | _ => rfl

theorem cut_scan {s s' : Scan} {cs : List Char} (h : scan s cs = some s') (code rest : List Char) :
    cut (s.above [.choice]) code (cs ++ rest) = cut (s'.above [.choice]) (code ++ cs) rest := by
  induction cs generalizing s code with
  | nil =>
    cases h
    simp
  | cons c cs ih =>
    rw [scan_cons] at h
    obtain ⟨s₁, hstep, hscan⟩ := Option.bind_eq_some_iff.1 h
    obtain ⟨outer, rfl, habove⟩ := step_above (E := (· = [.choice])) (by simp) rfl hstep
    rw [List.cons_append, cut, habove, Option.bind_some, wordBefore?_above hstep]
    simpa using ih hscan (code ++ [c])

/-- A text that closes all it opens is not cut. -/
theorem cut_reads {cs : List Char} (h : Reads cs) (code rest : List Char) :
    cut ⟨.code [], [.choice]⟩ code (cs ++ ' ' :: rest) =
      cut ⟨.code [], [.choice]⟩ (code ++ cs ++ [' ']) rest := by
  have hshuts : Shuts (cs ++ [' ']) := h.append_shuts rfl rfl
  have hcut : cut ⟨.code [], [.choice]⟩ code (cs ++ [' '] ++ rest) =
      cut ⟨.code [], [.choice]⟩ (code ++ (cs ++ [' '])) rest := cut_scan hshuts code rest
  simpa using hcut

theorem cut_word {cs : List Char} (h : ∀ c ∈ cs, isWordChar c = true) (word : List Char)
    (openers : List Opener) (code rest : List Char) :
    cut ⟨.code word, openers⟩ code (cs ++ rest) =
      cut ⟨.code (word ++ cs), openers⟩ (code ++ cs) rest := by
  induction cs generalizing word code with
  | nil => simp
  | cons c cs ih =>
    obtain ⟨hc, hcs⟩ := List.forall_mem_cons.1 h
    have hstep : Scan.step ⟨.code word, openers⟩ c = some ⟨.code (word ++ [c]), openers⟩ := by
      simp [Scan.step, codeStep, hc]
    have hword : wordBefore? ⟨.code word, openers⟩ c = none := by
      unfold wordBefore?
      split
      · rw [if_pos hc]
      · rfl
    rw [List.cons_append, cut, hstep, Option.bind_some, hword]
    simpa using ih hcs (word ++ [c]) (code ++ [c])

/-- What is open behind a word of a choice. -/
def Keyword.leaves : Keyword → List Opener
  | thenWord | elseifWord | elseWord => [.choice]
  | endWord => []

/-- The text of a choice is cut at a word of the choice. -/
theorem cut_keyword (w : Keyword) (code rest : List Char) :
    cut ⟨.code [], [.choice]⟩ code (w.chars ++ ' ' :: rest) =
      (cut ⟨.code [], w.leaves⟩ [' '] rest).map fun r => ((code, w) :: r.1, r.2) := by
  have hchars : w.chars.all isWordChar = true := by
    cases w <;> rfl
  rw [List.all_eq_true] at hchars
  have hstep : Scan.step ⟨.code w.chars, [.choice]⟩ ' ' = some ⟨.code [], w.leaves⟩ := by
    cases w <;> rfl
  have hword : wordBefore? ⟨.code w.chars, [.choice]⟩ ' ' = some w := keyword?_chars w
  rw [cut_word hchars, List.nil_append, cut, hstep, Option.bind_some, hword]
  simp

/-- Code between words of a choice, with a blank on each side. -/
theorem cut_piece {text : String} (h : Reads text.toList) (w : Keyword) (rest : List Char) :
    cut ⟨.code [], [.choice]⟩ [' '] (text.toList ++ ' ' :: (w.chars ++ ' ' :: rest)) =
      (cut ⟨.code [], w.leaves⟩ [' '] rest).map fun r =>
        ((' ' :: (text.toList ++ [' ']), w) :: r.1, r.2) := by
  rw [cut_reads h, cut_keyword]
  rfl

theorem unpad_padded (text : String) : unpad (' ' :: (text.toList ++ [' '])) = text := by
  simp [unpad]

/-! ### Writing -/

/-- How the end of a choice is written. -/
def closing (otherwise : Option String) : String :=
  match otherwise with
  | some block => " else " ++ block ++ " end"
  | none => " end"

/-- How the clauses of a choice are written, behind its `if`. -/
def writeClauses (otherwise : Option String) : List (String × String) → String
  | [] => ""
  | [(test, block)] => test ++ " then " ++ block ++ closing otherwise
  | (test, block) :: rest =>
    test ++ " then " ++ block ++ " elseif " ++ writeClauses otherwise rest

/-- How a choice is written. Without any test it is a block alone, or nothing. -/
def write (c : Choice) : String :=
  match c.clauses with
  | [] => c.otherwise.getD ""
  | clauses => "if " ++ writeClauses c.otherwise clauses

/-- The code of a choice closes what it opens. -/
structure Closed (c : Choice) : Prop where
  clauses : ∀ clause ∈ c.clauses, Reads clause.1.toList ∧ Reads clause.2.toList
  otherwise : ∀ block, c.otherwise = some block → Reads block.toList

/-- The pieces of the clauses of a choice. -/
def clausePieces (otherwise : Option String) : List (String × String) → List (String × Keyword)
  | [] => []
  | [(test, block)] =>
    (test, .thenWord) ::
      match otherwise with
      | some last => [(block, .elseWord), (last, .endWord)]
      | none => [(block, .endWord)]
  | (test, block) :: rest =>
    (test, .thenWord) :: (block, .elseifWord) :: clausePieces otherwise rest

theorem writeClauses_cons_cons (otherwise : Option String) (test block : String)
    (next : String × String) (rest : List (String × String)) :
    writeClauses otherwise ((test, block) :: next :: rest) =
      test ++ " then " ++ block ++ " elseif " ++ writeClauses otherwise (next :: rest) := by
  rw [writeClauses]
  simp

theorem clausePieces_cons_cons (otherwise : Option String) (test block : String)
    (next : String × String) (rest : List (String × String)) :
    clausePieces otherwise ((test, block) :: next :: rest) =
      (test, .thenWord) :: (block, .elseifWord) :: clausePieces otherwise (next :: rest) := by
  rw [clausePieces]
  simp

/-- A piece with a blank on each side. -/
def pad (piece : String × Keyword) : List Char × Keyword :=
  (' ' :: (piece.1.toList ++ [' ']), piece.2)

theorem cut_clauses {otherwise : Option String}
    (hotherwise : ∀ block, otherwise = some block → Reads block.toList) :
    ∀ clauses : List (String × String), clauses ≠ [] →
      (∀ clause ∈ clauses, Reads clause.1.toList ∧ Reads clause.2.toList) →
      cut ⟨.code [], [.choice]⟩ [' '] ((writeClauses otherwise clauses).toList ++ [' ']) =
        some ((clausePieces otherwise clauses).map pad, [' '])
  | [], h, _ => absurd rfl h
  | [(test, block)], _, h => by
    obtain ⟨htest, hblock⟩ := h _ (List.mem_singleton_self _)
    cases otherwise with
    | none =>
      have htext : (writeClauses none [(test, block)]).toList ++ [' '] = test.toList ++
          ' ' :: (Keyword.thenWord.chars ++ ' ' :: (block.toList ++
            ' ' :: (Keyword.endWord.chars ++ [' ']))) := by
        simp [writeClauses, closing, Keyword.chars]
      rw [htext, cut_piece htest, Keyword.leaves, cut_piece hblock]
      rfl
    | some last =>
      have htext : (writeClauses (some last) [(test, block)]).toList ++ [' '] = test.toList ++
          ' ' :: (Keyword.thenWord.chars ++ ' ' :: (block.toList ++
            ' ' :: (Keyword.elseWord.chars ++ ' ' :: (last.toList ++
              ' ' :: (Keyword.endWord.chars ++ [' ']))))) := by
        simp [writeClauses, closing, Keyword.chars]
      rw [htext, cut_piece htest, Keyword.leaves, cut_piece hblock, Keyword.leaves,
        cut_piece (hotherwise last rfl)]
      rfl
  | (test, block) :: next :: rest, _, h => by
    obtain ⟨⟨htest, hblock⟩, hrest⟩ := List.forall_mem_cons.1 h
    have ih := cut_clauses hotherwise (next :: rest) (List.cons_ne_nil _ _) hrest
    have htext : (writeClauses otherwise ((test, block) :: next :: rest)).toList ++ [' '] =
        test.toList ++ ' ' :: (Keyword.thenWord.chars ++ ' ' :: (block.toList ++
          ' ' :: (Keyword.elseifWord.chars ++
            ' ' :: ((writeClauses otherwise (next :: rest)).toList ++ [' '])))) := by
      rw [writeClauses_cons_cons]
      simp [Keyword.chars]
    rw [htext, cut_piece htest, Keyword.leaves, cut_piece hblock, Keyword.leaves, ih,
      clausePieces_cons_cons]
    rfl

theorem readClauses_clausePieces (otherwise : Option String) :
    ∀ clauses : List (String × String), clauses ≠ [] →
      readClauses (clausePieces otherwise clauses) = some ⟨clauses, otherwise⟩
  | [], h => absurd rfl h
  | [(test, block)], _ => by cases otherwise <;> rfl
  | (test, block) :: next :: rest, _ => by
    rw [clausePieces_cons_cons, readClauses,
      readClauses_clausePieces otherwise (next :: rest) (List.cons_ne_nil _ _)]
    rfl

/-- The text of a choice whose code closes what it opens is cut at the words of the choice. -/
theorem pieces_write {c : Choice} (h : c.Closed) (hne : c.clauses ≠ []) :
    pieces c.write = some (clausePieces c.otherwise c.clauses) := by
  obtain ⟨clauses, otherwise⟩ := c
  have hcut := cut_clauses h.otherwise clauses hne h.clauses
  have htext : (write ⟨clauses, otherwise⟩).toList =
      'i' :: 'f' :: ' ' :: (writeClauses otherwise clauses).toList := by
    cases clauses with
    | nil => exact absurd rfl hne
    | cons clause rest => simp [write]
  have hunpad : ∀ piece : String × Keyword, (unpad (pad piece).1, (pad piece).2) = piece :=
    fun piece => Prod.ext (unpad_padded piece.1) rfl
  simp [pieces, htext, hcut, Function.comp_def, hunpad]

/-- So it is read as the choice. -/
theorem read_write {c : Choice} (h : c.Closed) (hne : c.clauses ≠ []) :
    read c.write = some c := by
  rw [read, pieces_write h hne, Option.bind_some, readClauses_clausePieces _ _ hne]

theorem count_clausePieces (otherwise : Option String) :
    ∀ clauses : List (String × String), clauses ≠ [] →
      (clausePieces otherwise clauses).countP (·.2 = .endWord) = 1
  | [], h => absurd rfl h
  | [(test, block)], _ => by cases otherwise <;> simp [clausePieces]
  | (test, block) :: next :: rest, _ => by
    rw [clausePieces_cons_cons]
    simpa using count_clausePieces otherwise (next :: rest) (List.cons_ne_nil _ _)

/-- The number of words `end` that belong to the choice a text is. -/
def ends (text : String) : Nat :=
  ((pieces text).getD []).countP (·.2 = .endWord)

/-- A choice ends once. -/
theorem ends_write {c : Choice} (h : c.Closed) (hne : c.clauses ≠ []) : ends c.write = 1 := by
  rw [ends, pieces_write h hne, Option.getD_some, count_clausePieces _ _ hne]

/-- Clauses that are written as choices of their own with ` else` between them make one choice. -/
theorem intercalate_clauses (otherwise : Option String) :
    ∀ clauses : List (String × String), clauses ≠ [] →
      String.intercalate " else" (clauses.map fun c => "if " ++ c.1 ++ " then " ++ c.2) ++
          closing otherwise =
        "if " ++ writeClauses otherwise clauses
  | [], h => absurd rfl h
  | [(test, block)], _ => by
    apply String.toList_inj.1
    simp [writeClauses]
  | (test, block) :: next :: rest, _ => by
    have ih := intercalate_clauses otherwise (next :: rest) (List.cons_ne_nil _ _)
    rw [List.map_cons] at ih
    rw [List.map_cons, List.map_cons, String.intercalate_cons_cons, String.append_assoc, ih,
      writeClauses_cons_cons]
    -- ` else` and the `if ` of the next clause are the word between the two
    apply String.toList_inj.1
    simp

/-! ### Executing -/

/-- The block that a choice executes if its tests hold as given, by their order. -/
def run (c : Choice) (holds : Nat → Bool) : Option String :=
  match c.clauses.zipIdx.find? fun clause => holds clause.2 with
  | some ((_, block), _) => some block
  | none => c.otherwise

/-- The first test that holds decides. -/
theorem run_of_first {c : Choice} {holds : Nat → Bool} {i : Nat} {test block : String}
    (hclause : c.clauses[i]? = some (test, block)) (hi : holds i = true)
    (hearlier : ∀ j < i, holds j = false) : c.run holds = some block := by
  obtain ⟨hlt, hget⟩ := List.getElem?_eq_some_iff.1 hclause
  have hfind : (c.clauses.zipIdx.find? fun clause => holds clause.2) = some ((test, block), i) := by
    refine List.find?_eq_some_iff_getElem.2 ⟨hi, i, by simpa using hlt, ?_, fun j hj => ?_⟩
    · simp [hget]
    · simpa using hearlier j hj
  rw [run, hfind]

theorem run_of_none {c : Choice} {holds : Nat → Bool}
    (h : ∀ i < c.clauses.length, holds i = false) : c.run holds = c.otherwise := by
  have hfind : (c.clauses.zipIdx.find? fun clause => holds clause.2) = none := by
    refine List.find?_eq_none.2 fun clause hclause => ?_
    obtain ⟨-, hlt, -⟩ := List.mem_zipIdx hclause
    simpa using h clause.2 (by simpa using hlt)
  rw [run, hfind]

end Choice

end LispLua.Lua
