import LispLua.Proofs.Operators.Expression

/-!
# The lexical shape of a Lua text

Whether the strings and comments of a text are closed and its brackets and blocks are nested, read
character by character as Lua does: strings in either kind of quotes with escapes and without line
ends, comments up to the end of a line or between long brackets, and words as long as they go.

A word counts only when it has ended, so the reading of a text can end within a word. Two texts can
be joined if the second starts with a character that ends words.

Long strings are not read: no generated text has one, and a text that seems to is refused.
-/

namespace LispLua.Lua

/-- What has been opened and must be closed. -/
inductive Opener where
  | paren
  | bracket
  | brace
  /-- A loop whose block has not begun. -/
  | header
  /-- A block, which `end` closes. -/
  | block
  /-- A choice, which `end` closes, and in which `then`, `elseif` and `else` stand. -/
  | choice
  deriving DecidableEq

/-- What a character is read as a part of. -/
inductive Mode where
  /-- The code itself, behind the characters of a word. -/
  | code (word : List Char)
  /-- Behind an opening bracket. -/
  | bracketed
  /-- Behind a minus sign. -/
  | minus
  /-- A comment that has just begun. -/
  | dashes
  /-- Such a comment, behind an opening bracket. -/
  | dashesBracketed
  /-- A comment up to the end of the line. -/
  | line
  /-- A comment between long brackets, perhaps behind a closing bracket. -/
  | long (closing : Bool)
  /-- A string in quotes, perhaps behind a backslash. -/
  | string (quote : Char) (escaped : Bool)
  deriving DecidableEq

/-- Where the reading of a text is. -/
structure Scan where
  mode : Mode
  /-- What is open, the latest first. -/
  openers : List Opener
  deriving DecidableEq

/-- The words between the parts of a choice. -/
def choiceWords : List (List Char) :=
  ["then".toList, "elseif".toList, "else".toList]

/-- What is open behind a word. -/
def closeWord (word : List Char) (openers : List Opener) : Option (List Opener) :=
  if word = "function".toList then some (.block :: openers)
  else if word = "if".toList then some (.choice :: openers)
  else if word = "for".toList then some (.header :: openers)
  else if word = "do".toList then
    match openers with
    | .header :: outer => some (.block :: outer)
    | _ => some (.block :: openers)
  else if word ∈ choiceWords then
    match openers with
    | .choice :: _ => some openers
    | _ => none
  else if word = "end".toList then
    match openers with
    | .block :: outer | .choice :: outer => some outer
    | _ => none
  else some openers

/-- What a bracket opens. -/
def opens? (c : Char) : Option Opener :=
  if c = '(' then some .paren
  else if c = '[' then some .bracket
  else if c = '\x7b' then some .brace
  else none

/-- What a bracket closes. -/
def closes? (c : Char) : Option Opener :=
  if c = ')' then some .paren
  else if c = ']' then some .bracket
  else if c = '\x7d' then some .brace
  else none

/-- Close what has been opened last. -/
def closeOpener (opener : Opener) : List Opener → Option Scan
  | [] => none
  | top :: outer => if top = opener then some ⟨.code [], outer⟩ else none

/-- A character of code that belongs to no word. -/
def markStep (openers : List Opener) (c : Char) : Option Scan :=
  match opens? c, closes? c with
  | some opener, _ => some ⟨if c = '[' then .bracketed else .code [], opener :: openers⟩
  | none, some opener => closeOpener opener openers
  | none, none =>
    some ⟨if c = '"' ∨ c = '\'' then .string c false else if c = '-' then .minus else .code [],
      openers⟩

/-- A character of code. -/
def codeStep (word : List Char) (openers : List Opener) (c : Char) : Option Scan :=
  if isWordChar c then some ⟨.code (word ++ [c]), openers⟩
  else (closeWord word openers).bind (markStep · c)

/-- Whether a character ends a line. -/
def isLineEnd (c : Char) : Bool :=
  c == '\n' || c == '\r'

/-- A comment up to the end of the line, behind a character of it. -/
def commentMode (c : Char) : Mode :=
  if isLineEnd c then .code [] else .line

/-- What follows a character that is not code, if it may stand there. -/
def Mode.aside (c : Char) : Mode → Option Mode
  | .dashes => some (if c = '[' then .dashesBracketed else commentMode c)
  | .dashesBracketed =>
    if c = '=' then none else some (if c = '[' then .long false else commentMode c)
  | .line => some (commentMode c)
  | .long closing => some (if closing && c == ']' then .code [] else .long (c == ']'))
  | .string quote escaped =>
    if isLineEnd c then none
    else if escaped then some (.string quote false)
    else if c = quote then some (.code [])
    else some (.string quote (c == '\\'))
  | _ => none

/-- Read one character. -/
def Scan.step (s : Scan) (c : Char) : Option Scan :=
  match s.mode with
  | .code word => codeStep word s.openers c
  | .bracketed => if c = '[' ∨ c = '=' then none else codeStep [] s.openers c
  | .minus => if c = '-' then some ⟨.dashes, s.openers⟩ else codeStep [] s.openers c
  | mode => (mode.aside c).map (⟨·, s.openers⟩)

/-- Read a text. -/
def scan (s : Scan) (cs : List Char) : Option Scan :=
  cs.foldlM Scan.step s

/-- The start of a text. -/
def Scan.start : Scan :=
  ⟨.code [], []⟩

/-- What is open at the end of a text, unless it ends within a string or a long comment. -/
def Scan.rest (s : Scan) : Option (List Opener) :=
  match s.mode with
  | .code word => closeWord word s.openers
  | .long _ | .string _ _ => none
  | _ => some s.openers

/-- Whether all strings and comments of a text are closed, and its brackets and blocks nested. -/
def isNested (text : String) : Bool :=
  (scan .start text.toList).bind Scan.rest == some []

example : isNested "f(\"(\", 'a\"') -- (\nfor i=1, 2 do g[i] = \x7b \x7d --[[ end ]] end" = true :=
  by decide +kernel

example : isNested "f(" = false ∧ isNested "\"a\nb\"" = false ∧ isNested "--[[ a" = false ∧
    isNested "if a then (b end)" = false ∧ isNested "for i=1, 2 end" = false ∧
    isNested "if (a then b) end" = false := by
  decide +kernel

theorem scan_nil (s : Scan) : scan s [] = some s := rfl

theorem scan_cons (s : Scan) (c : Char) (cs : List Char) :
    scan s (c :: cs) = (s.step c).bind (scan · cs) := rfl

theorem scan_append (s : Scan) (cs ds : List Char) :
    scan s (cs ++ ds) = (scan s cs).bind (scan · ds) :=
  List.foldlM_append

/-! ### What is open around a text -/

/-- The reading of a text with more open around it. -/
def Scan.above (s : Scan) (outer : List Opener) : Scan :=
  ⟨s.mode, s.openers ++ outer⟩

section

/- What is open around a text can change only in one way: a word `do` that stands alone in the text
is taken for that of a loop around it. -/
variable {E : List Opener → Prop} (hE : ∀ outer, E (.header :: outer) → E outer)

include hE

theorem closeWord_above {word : List Char} {openers openers' outer : List Opener} (houter : E outer)
    (h : closeWord word openers = some openers') :
    ∃ outer', E outer' ∧ closeWord word (openers ++ outer) = some (openers' ++ outer') := by
  unfold closeWord at h ⊢
  by_cases hfunction : word = "function".toList
  · rw [if_pos hfunction] at h ⊢
    cases h
    exact ⟨outer, houter, rfl⟩
  rw [if_neg hfunction] at h ⊢
  by_cases hif : word = "if".toList
  · rw [if_pos hif] at h ⊢
    cases h
    exact ⟨outer, houter, rfl⟩
  rw [if_neg hif] at h ⊢
  by_cases hfor : word = "for".toList
  · rw [if_pos hfor] at h ⊢
    cases h
    exact ⟨outer, houter, rfl⟩
  rw [if_neg hfor] at h ⊢
  by_cases hdo : word = "do".toList
  · rw [if_pos hdo] at h ⊢
    cases openers with
    | nil =>
      cases h
      cases outer with
      | nil => exact ⟨[], houter, rfl⟩
      | cons top outer =>
        cases top with
        | header => exact ⟨outer, hE outer houter, rfl⟩
        | _ => exact ⟨_, houter, rfl⟩
    | cons top openers => cases top <;> cases h <;> exact ⟨outer, houter, rfl⟩
  rw [if_neg hdo] at h ⊢
  by_cases hchoice : word ∈ choiceWords
  · rw [if_pos hchoice] at h ⊢
    cases openers with
    | nil => cases h
    | cons top openers =>
      cases top with
      | choice =>
        cases h
        exact ⟨outer, houter, rfl⟩
      | _ => cases h
  rw [if_neg hchoice] at h ⊢
  by_cases hend : word = "end".toList
  · rw [if_pos hend] at h ⊢
    cases openers with
    | nil => cases h
    | cons top openers =>
      -- only a block or a choice can be closed here
      cases top with
      | block | choice =>
        cases h
        exact ⟨outer, houter, rfl⟩
      | _ => cases h
  · rw [if_neg hend] at h ⊢
    cases h
    exact ⟨outer, houter, rfl⟩

omit hE in
theorem closeOpener_above {opener : Opener} {openers : List Opener} {s : Scan}
    (h : closeOpener opener openers = some s) (outer : List Opener) :
    closeOpener opener (openers ++ outer) = some (s.above outer) := by
  cases openers with
  | nil => cases h
  | cons top openers =>
    by_cases htop : top = opener
    · rw [closeOpener, if_pos htop] at h
      cases h
      rw [List.cons_append, closeOpener, if_pos htop]
      rfl
    · rw [closeOpener, if_neg htop] at h
      cases h

omit hE in
theorem markStep_above {openers : List Opener} {c : Char} {s : Scan}
    (h : markStep openers c = some s) (outer : List Opener) :
    markStep (openers ++ outer) c = some (s.above outer) := by
  unfold markStep at h ⊢
  split at h
  · cases h
    rfl
  · exact closeOpener_above h outer
  · cases h
    rfl

theorem codeStep_above {word : List Char} {openers outer : List Opener} {c : Char} {s : Scan}
    (houter : E outer) (h : codeStep word openers c = some s) :
    ∃ outer', E outer' ∧ codeStep word (openers ++ outer) c = some (s.above outer') := by
  unfold codeStep at h ⊢
  by_cases hword : isWordChar c = true
  · rw [if_pos hword] at h ⊢
    cases h
    exact ⟨outer, houter, rfl⟩
  · rw [if_neg hword] at h ⊢
    obtain ⟨openers', hclose, hmark⟩ := Option.bind_eq_some_iff.1 h
    obtain ⟨outer', houter', hclose'⟩ := closeWord_above hE houter hclose
    exact ⟨outer', houter', by rw [hclose', Option.bind_some, markStep_above hmark]⟩

theorem step_above {s s' : Scan} {c : Char} {outer : List Opener} (houter : E outer)
    (h : s.step c = some s') :
    ∃ outer', E outer' ∧ (s.above outer).step c = some (s'.above outer') := by
  obtain ⟨mode, openers⟩ := s
  cases mode with
  | code word => exact codeStep_above hE houter h
  | bracketed =>
    by_cases hc : c = '[' ∨ c = '='
    · simp [Scan.step, hc] at h
    · simp only [Scan.step, Scan.above, if_neg hc] at h ⊢
      exact codeStep_above hE houter h
  | minus =>
    by_cases hc : c = '-'
    · simp only [Scan.step, Scan.above, if_pos hc] at h ⊢
      cases h
      exact ⟨outer, houter, rfl⟩
    · simp only [Scan.step, Scan.above, if_neg hc] at h ⊢
      exact codeStep_above hE houter h
  | dashes | dashesBracketed | line | long _ | string _ _ =>
    simp only [Scan.step, Scan.above, Option.map_eq_some_iff] at h ⊢
    obtain ⟨mode, hmode, rfl⟩ := h
    exact ⟨outer, houter, mode, hmode, rfl⟩

/-- What is open around a text does not matter for it. -/
theorem scan_above {s s' : Scan} {cs : List Char} {outer : List Opener} (houter : E outer)
    (h : scan s cs = some s') :
    ∃ outer', E outer' ∧ scan (s.above outer) cs = some (s'.above outer') := by
  induction cs generalizing s outer with
  | nil =>
    cases h
    exact ⟨outer, houter, rfl⟩
  | cons c cs ih =>
    rw [scan_cons] at h
    obtain ⟨s₁, hstep, hscan⟩ := Option.bind_eq_some_iff.1 h
    obtain ⟨outer₁, houter₁, hstep'⟩ := step_above hE houter hstep
    obtain ⟨outer', houter', hscan'⟩ := ih houter₁ hscan
    exact ⟨outer', houter', by rw [scan_cons, hstep', Option.bind_some, hscan']⟩

end

/-! ### Texts that close what they open -/

/-- A text closes all it opens. It can end with a word, which is then no opening or closing one. -/
def Reads (cs : List Char) : Prop :=
  ∃ word openers, scan .start cs = some ⟨.code word, openers⟩ ∧ closeWord word openers = some []

/-- A text closes all it opens, and its last word is ended. -/
def Shuts (cs : List Char) : Prop :=
  scan .start cs = some .start

theorem Shuts.reads {cs : List Char} (h : Shuts cs) : Reads cs :=
  ⟨[], [], h, rfl⟩

theorem reads_nil : Reads [] :=
  Shuts.reads rfl

/-- A text that starts with a character of no word. -/
def startsApart (cs : List Char) : Bool :=
  cs.head?.any fun c => !isWordChar c

/-- Code that has just been read up to a word which leaves `openers` open. -/
def AtWord (openers : List Opener) (s : Scan) : Prop :=
  ∃ word inner, s = ⟨.code word, inner⟩ ∧ closeWord word inner = some openers

/-- A text that starts apart from a word ends it. -/
theorem AtWord.scan {openers : List Opener} {s : Scan} {cs : List Char} (h : AtWord openers s)
    (hcs : startsApart cs = true) : Lua.scan s cs = Lua.scan ⟨.code [], openers⟩ cs := by
  obtain ⟨word, inner, rfl, hclose⟩ := h
  cases cs with
  | nil => cases hcs
  | cons c cs =>
    have hc : isWordChar c = false := by simpa [startsApart] using hcs
    have hnil : closeWord [] openers = some openers := rfl
    simp only [scan_cons, Scan.step, codeStep, hc, hclose, hnil, Bool.false_eq_true, if_false]

/-- A text that closes what it opens can stand anywhere but in the header of a loop. -/
theorem Reads.above {cs : List Char} (h : Reads cs) {openers : List Opener}
    (hopeners : openers.head? ≠ some .header) :
    ∃ s, scan ⟨.code [], openers⟩ cs = some s ∧ AtWord openers s := by
  obtain ⟨word, inner, hscan, hclose⟩ := h
  have hE : ∀ outer, Opener.header :: outer = openers → outer = openers := by
    rintro outer rfl
    exact (hopeners rfl).elim
  obtain ⟨outer, houter, hscan'⟩ := scan_above (E := (· = openers)) hE rfl hscan
  obtain ⟨outer', houter', hclose'⟩ := closeWord_above (E := (· = openers)) hE houter hclose
  rw [houter'] at hclose'
  exact ⟨_, hscan', word, _, rfl, hclose'⟩

/-- In the header of a loop it can take the header for its own. -/
theorem Reads.below_header {cs : List Char} (h : Reads cs) {openers : List Opener}
    (hopeners : openers.head? ≠ some .header) :
    ∃ s, scan ⟨.code [], .header :: openers⟩ cs = some s ∧
      (AtWord (.header :: openers) s ∨ AtWord openers s) := by
  obtain ⟨word, inner, hscan, hclose⟩ := h
  let E (outer : List Opener) : Prop := outer = .header :: openers ∨ outer = openers
  have hE : ∀ outer, E (.header :: outer) → E outer := by
    rintro outer (h | rfl)
    · exact .inr (List.cons.inj h).2
    · exact (hopeners rfl).elim
  obtain ⟨outer, houter, hscan'⟩ := scan_above hE (.inl rfl) hscan
  obtain ⟨outer', houter', hclose'⟩ := closeWord_above hE houter hclose
  refine ⟨_, hscan', ?_⟩
  rcases houter' with rfl | rfl
  · exact .inl ⟨word, _, rfl, hclose'⟩
  · exact .inr ⟨word, _, rfl, hclose'⟩

/-- Such a text that has ended its last word leaves the reading where it was. -/
theorem Shuts.above {cs : List Char} (h : Shuts cs) {openers : List Opener}
    (hopeners : openers.head? ≠ some .header) :
    scan ⟨.code [], openers⟩ cs = some ⟨.code [], openers⟩ := by
  have hE : ∀ outer, Opener.header :: outer = openers → outer = openers := by
    rintro outer rfl
    exact (hopeners rfl).elim
  obtain ⟨outer, houter, hscan⟩ := scan_above (E := (· = openers)) hE rfl h
  rw [houter] at hscan
  exact hscan

/-! ### Words -/

/-- The words of blocks and choices. -/
def blockWords : List (List Char) :=
  ["function".toList, "if".toList, "for".toList, "do".toList, "end".toList] ++ choiceWords

/-- A word that neither opens nor closes a block and is no part of a choice. -/
def IsPlainWord (cs : List Char) : Prop :=
  (∀ c ∈ cs, isWordChar c = true) ∧ cs ∉ blockWords

theorem closeWord_of_notMem {cs : List Char} (h : cs ∉ blockWords) (openers : List Opener) :
    closeWord cs openers = some openers := by
  simp only [blockWords, List.mem_append, List.mem_cons, List.not_mem_nil, or_false, not_or] at h
  obtain ⟨⟨hfunction, hif, hfor, hdo, hend⟩, hchoice⟩ := h
  unfold closeWord
  rw [if_neg hfunction, if_neg hif, if_neg hfor, if_neg hdo, if_neg hchoice, if_neg hend]

theorem scan_word {cs : List Char} (h : ∀ c ∈ cs, isWordChar c = true) (word : List Char)
    (openers : List Opener) :
    scan ⟨.code word, openers⟩ cs = some ⟨.code (word ++ cs), openers⟩ := by
  induction cs generalizing word with
  | nil => simp [scan_nil]
  | cons c cs ih =>
    obtain ⟨hc, hcs⟩ := List.forall_mem_cons.1 h
    rw [scan_cons]
    simp only [Scan.step, codeStep, hc, if_true, Option.bind_some]
    rw [ih hcs, List.append_assoc, List.singleton_append]

theorem IsPlainWord.atWord {cs : List Char} (h : IsPlainWord cs) (openers : List Opener) :
    ∃ s, scan ⟨.code [], openers⟩ cs = some s ∧ AtWord openers s :=
  ⟨_, scan_word h.1 [] openers, cs, openers, rfl, closeWord_of_notMem h.2 openers⟩

theorem IsPlainWord.reads {cs : List Char} (h : IsPlainWord cs) : Reads cs :=
  ⟨cs, [], scan_word h.1 [] [], closeWord_of_notMem h.2 []⟩

end LispLua.Lua
