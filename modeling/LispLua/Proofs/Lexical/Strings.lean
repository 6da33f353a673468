import LispLua.Proofs.Lexical.Words
import LispLua.Proofs.Operators.Meaning
import LispLua.Proofs.Reading.Taking

/-!
# The value of a string literal

A string literal denotes bytes: its characters in UTF-8, and for a backslash and a character what
the two stand for. A program may have line ends in a literal, Lua may not, so line ends are written
as escapes. This module compares what a literal denotes in a program and what its emitted form
denotes to Lua.

Line ends are escaped one by one, without a look at what stands in front. Behind a backslash the
escape of a line end is itself split: the two backslashes go together, and the letter is left.
-/

namespace LispLua

open Lua (isLineEnd escapeLineEnd)

/-- What a backslash and a character denote together, if they may stand together. -/
structure Escapes where
  bytes : Char → Option (List UInt8)
  backslash : bytes '\\' = some (String.utf8EncodeChar '\\')
  lineFeed : bytes 'n' = some (String.utf8EncodeChar '\n')
  carriageReturn : bytes 'r' = some (String.utf8EncodeChar '\r')

/-- The escapes of line ends, while all other characters stand for themselves. -/
def Escapes.verbatim : Escapes where
  bytes c :=
    some (String.utf8EncodeChar (if c = 'n' then '\n' else if c = 'r' then '\r' else c))
  backslash := rfl
  lineFeed := rfl
  carriageReturn := rfl

/-- A character by its bytes in UTF-8. -/
def encoded (c : Char) : Option (List UInt8) :=
  some (String.utf8EncodeChar c)

/-- The same for all characters but line ends, which are refused. -/
def unlessLineEnd (bytes : Char → Option (List UInt8)) (c : Char) : Option (List UInt8) :=
  if isLineEnd c then none else bytes c

/-- What is read when some bytes stand in front. -/
def prepend (front : Option (List UInt8)) (behind : Option (List UInt8 × List Char)) :
    Option (List UInt8 × List Char) :=
  front.bind fun bytes => behind.map fun (value, rest) => (bytes ++ value, rest)

/-- Read a literal behind its opening quote: the bytes up to the closing quote, and what is left
behind that. -/
def readQuoted (plain pair : Char → Option (List UInt8)) :
    List Char → Option (List UInt8 × List Char)
  | [] => none
  | '"' :: rest => some ([], rest)
  | ['\\'] => none
  | '\\' :: c :: cs => prepend (pair c) (readQuoted plain pair cs)
  | c :: cs => prepend (plain c) (readQuoted plain pair cs)

/-- Read a literal. -/
def readString (plain pair : Char → Option (List UInt8)) :
    List Char → Option (List UInt8 × List Char)
  | '"' :: cs => readQuoted plain pair cs
  | _ => none

namespace Escapes

variable (e : Escapes)

/-- A backslash and a character in a program. A line end behind a backslash denotes itself. -/
def sourcePair (c : Char) : Option (List UInt8) :=
  if isLineEnd c then some (String.utf8EncodeChar c) else e.bytes c

/-- Read a literal of a program, where line ends denote themselves. -/
def source : List Char → Option (List UInt8 × List Char) :=
  readString encoded e.sourcePair

/-- Read a literal of Lua that has no line ends. -/
def lua : List Char → Option (List UInt8 × List Char) :=
  readString (unlessLineEnd encoded) (unlessLineEnd e.bytes)

/-- What a backslash and a character of a program denote when they are emitted. -/
def emittedPair (c : Char) : Option (List UInt8) :=
  if c = '\n' then some (String.utf8EncodeChar '\\' ++ String.utf8EncodeChar 'n')
  else if c = '\r' then some (String.utf8EncodeChar '\\' ++ String.utf8EncodeChar 'r')
  else e.bytes c

end Escapes

/-- The number of line ends that stand behind a backslash. -/
def guardedLineEnds : List Char → Nat
  | '\\' :: c :: cs => (if isLineEnd c then 1 else 0) + guardedLineEnds cs
  | _ :: cs => guardedLineEnds cs
  | [] => 0

/-! ### Reading piece by piece -/

theorem prepend_prepend (front next : List UInt8) (behind : Option (List UInt8 × List Char)) :
    prepend (some front) (prepend (some next) behind) = prepend (some (front ++ next)) behind := by
  cases behind <;> simp [prepend]

section

variable {plain pair : Char → Option (List UInt8)} {c : Char} {cs : List Char}

theorem readQuoted_plain (hquote : c ≠ '"') (hslash : c ≠ '\\') :
    readQuoted plain pair (c :: cs) = prepend (plain c) (readQuoted plain pair cs) := by
  rw [readQuoted]
  · exact hquote
  · exact fun h => absurd h hslash
  · exact fun _ _ h => absurd h hslash

theorem readQuoted_pair :
    readQuoted plain pair ('\\' :: c :: cs) = prepend (pair c) (readQuoted plain pair cs) := by
  rw [readQuoted]

theorem guardedLineEnds_plain (hslash : c ≠ '\\') :
    guardedLineEnds (c :: cs) = guardedLineEnds cs := by
  rw [guardedLineEnds]
  exact fun _ _ h => absurd h hslash

end

/-- What stands behind a literal is left. -/
theorem readQuoted_append {plain pair : Char → Option (List UInt8)} {cs : List Char}
    (h : IsQuoted cs) (rest : List Char) :
    readQuoted plain pair (cs ++ rest) =
      (readQuoted plain pair cs).map fun (value, _) => (value, rest) := by
  induction h with
  | close => rfl
  | @plain c cs hquote hslash _ ih =>
    rw [List.cons_append, readQuoted_plain hquote hslash, readQuoted_plain hquote hslash, ih]
    cases plain c <;> cases readQuoted plain pair cs <;> rfl
  | @escape c cs _ ih =>
    rw [List.cons_append, List.cons_append, readQuoted_pair, readQuoted_pair, ih]
    cases pair c <;> cases readQuoted plain pair cs <;> rfl

/-! ### The emitted form -/

theorem lineEnd_cases (c : Char) : c = '\n' ∨ c = '\r' ∨ isLineEnd c = false := by
  by_cases hfeed : c = '\n'
  · exact .inl hfeed
  · by_cases hreturn : c = '\r'
    · exact .inr (.inl hreturn)
    · exact .inr (.inr (by simp [isLineEnd, hfeed, hreturn]))

section

variable {c : Char} (h : isLineEnd c = false)

include h

theorem ne_of_not_lineEnd : c ≠ '\n' ∧ c ≠ '\r' := by
  simpa [isLineEnd] using h

theorem escapeLineEnd_of_not_lineEnd : escapeLineEnd c = [c] := by
  obtain ⟨hfeed, hreturn⟩ := ne_of_not_lineEnd h
  rw [escapeLineEnd, if_neg hfeed, if_neg hreturn]

theorem unlessLineEnd_of_not_lineEnd (bytes : Char → Option (List UInt8)) :
    unlessLineEnd bytes c = bytes c := by
  rw [unlessLineEnd, h]
  rfl

theorem Escapes.emittedPair_of_not_lineEnd (e : Escapes) : e.emittedPair c = e.bytes c := by
  obtain ⟨hfeed, hreturn⟩ := ne_of_not_lineEnd h
  rw [emittedPair, if_neg hfeed, if_neg hreturn]

end

namespace Escapes

variable (e : Escapes) {cs : List Char}

/-- Lua reads two backslashes together, and what stands behind them on its own. -/
theorem lua_backslashes {c : Char} (hquote : c ≠ '"') (hslash : c ≠ '\\')
    (hline : isLineEnd c = false) :
    readQuoted (unlessLineEnd encoded) (unlessLineEnd e.bytes) ('\\' :: '\\' :: c :: cs) =
      prepend (some (String.utf8EncodeChar '\\' ++ String.utf8EncodeChar c))
        (readQuoted (unlessLineEnd encoded) (unlessLineEnd e.bytes) cs) := by
  rw [readQuoted_pair, readQuoted_plain hquote hslash, unlessLineEnd_of_not_lineEnd hline,
    unlessLineEnd_of_not_lineEnd rfl, e.backslash, encoded, prepend_prepend]

/-- What Lua reads in the emitted form. -/
theorem lua_escaped (h : IsQuoted cs) :
    readQuoted (unlessLineEnd encoded) (unlessLineEnd e.bytes) (cs.flatMap escapeLineEnd) =
      readQuoted encoded e.emittedPair cs := by
  induction h with
  | close => rfl
  | @plain c cs hquote hslash _ ih =>
    rw [List.flatMap_cons, readQuoted_plain hquote hslash, ← ih]
    rcases lineEnd_cases c with rfl | rfl | hline
    · exact readQuoted_pair.trans (congrArg (prepend · _) e.lineFeed)
    · exact readQuoted_pair.trans (congrArg (prepend · _) e.carriageReturn)
    · rw [escapeLineEnd_of_not_lineEnd hline, List.singleton_append,
        readQuoted_plain hquote hslash, unlessLineEnd_of_not_lineEnd hline]
  | @escape c cs _ ih =>
    rw [List.flatMap_cons, List.flatMap_cons, readQuoted_pair, ← ih,
      escapeLineEnd_of_not_lineEnd (c := '\\') rfl, List.singleton_append]
    -- the backslash in front goes together with that of an escape, whose letter is left
    rcases lineEnd_cases c with rfl | rfl | hline
    · exact e.lua_backslashes (by decide) (by decide) rfl
    · exact e.lua_backslashes (by decide) (by decide) rfl
    · rw [escapeLineEnd_of_not_lineEnd hline, List.singleton_append, readQuoted_pair,
        unlessLineEnd_of_not_lineEnd hline, emittedPair_of_not_lineEnd hline]

/-- Without a line end behind a backslash, what is emitted denotes what the program says. -/
theorem emitted_eq_source (h : IsQuoted cs) (hguarded : guardedLineEnds cs = 0) :
    readQuoted encoded e.emittedPair cs = readQuoted encoded e.sourcePair cs := by
  induction h with
  | close => rfl
  | @plain c cs hquote hslash _ ih =>
    rw [guardedLineEnds_plain hslash] at hguarded
    rw [readQuoted_plain hquote hslash, readQuoted_plain hquote hslash, ih hguarded]
  | @escape c cs _ ih =>
    rw [guardedLineEnds, Nat.add_eq_zero_iff] at hguarded
    obtain ⟨hc, hcs⟩ := hguarded
    have hline : isLineEnd c = false := by simpa using hc
    rw [readQuoted_pair, readQuoted_pair, ih hcs, emittedPair_of_not_lineEnd hline, sourcePair,
      hline]
    rfl

/-- Each line end behind a backslash makes the value longer by a byte. -/
theorem length_emitted (h : IsQuoted cs) {value : List UInt8} {rest : List Char}
    (hvalue : readQuoted encoded e.sourcePair cs = some (value, rest)) :
    ∃ value', readQuoted encoded e.emittedPair cs = some (value', rest) ∧
      value'.length = value.length + guardedLineEnds cs := by
  induction h generalizing value with
  | close =>
    cases hvalue
    exact ⟨[], rfl, rfl⟩
  | @plain c cs hquote hslash _ ih =>
    rw [readQuoted_plain hquote hslash] at hvalue
    obtain ⟨⟨value₁, rest₁⟩, hcs, heq⟩ := Option.map_eq_some_iff.1 hvalue
    cases heq
    obtain ⟨value', hcs', hlength⟩ := ih hcs
    refine ⟨String.utf8EncodeChar c ++ value', ?_, ?_⟩
    · rw [readQuoted_plain hquote hslash, hcs']
      rfl
    · rw [guardedLineEnds_plain hslash, List.length_append, List.length_append, hlength,
        Nat.add_assoc]
  | @escape c cs _ ih =>
    rw [readQuoted_pair] at hvalue
    obtain ⟨bytes, hbytes, hrest⟩ := Option.bind_eq_some_iff.1 hvalue
    obtain ⟨⟨value₁, rest₁⟩, hcs, heq⟩ := Option.map_eq_some_iff.1 hrest
    cases heq
    obtain ⟨value', hcs', hlength⟩ := ih hcs
    -- a line end is one byte, and a backslash and a letter are two
    have hpair : ∃ bytes', e.emittedPair c = some bytes' ∧
        bytes'.length = bytes.length + if isLineEnd c then 1 else 0 := by
      cases hline : isLineEnd c with
      | false =>
        rw [sourcePair, hline] at hbytes
        exact ⟨bytes, (emittedPair_of_not_lineEnd hline e).trans hbytes, rfl⟩
      | true =>
        rw [sourcePair, hline] at hbytes
        cases hbytes
        simp only [isLineEnd, Bool.or_eq_true, beq_iff_eq] at hline
        rcases hline with rfl | rfl
        · exact ⟨_, rfl, rfl⟩
        · exact ⟨_, rfl, rfl⟩
    obtain ⟨bytes', hbytes', hlength'⟩ := hpair
    refine ⟨bytes' ++ value', ?_, ?_⟩
    · rw [readQuoted_pair, hbytes', hcs']
      rfl
    · rw [guardedLineEnds, List.length_append, List.length_append, hlength, hlength']
      omega

end Escapes

theorem toList_stringText (text : String) :
    (Gen.stringText text).toList = text.toList.flatMap escapeLineEnd :=
  String.toList_ofList

theorem Gen.exec_value_string (t : Token) (job : Job) (s : Session) :
    (value (.string t)).exec job s = (.ok (.word (stringText t.text)), s) :=
  exec_value_plain (g := return .word (stringText t.text))
    (congrArg (exec · job s) (term_eq_step (.string t)))

/-- A string literal that can be read is emitted as one literal of Lua without line ends, from any
session. If no line end in it stands behind a backslash, Lua reads the value that the literal has in
the program, whatever the other escapes stand for. Else Lua reads another one, which is longer by a
byte for each line end behind a backslash. -/
theorem string_value_kept_unless_guarded {c d : Cursor} {t : Token}
    (h : Reader.string c = some (t, d)) (job : Job) (s : Session) :
    ∃ text, (Gen.value (.string t)).exec job s = (.ok (.word text), s) ∧
      IsLiteral text.toList ∧ (∀ x ∈ text.toList, isLineEnd x = false) ∧
      ∀ (e : Escapes) (rest : List Char),
        (guardedLineEnds t.text.toList = 0 →
          e.lua (text.toList ++ rest) = e.source (t.text.toList ++ rest)) ∧
        ∀ value, e.source t.text.toList = some (value, []) →
          ∃ value', e.lua (text.toList ++ rest) = some (value', rest) ∧
            value'.length = value.length + guardedLineEnds t.text.toList := by
  obtain ⟨text, htext, -, rfl⟩ := Reader.token_eq_some_iff.1 h
  obtain ⟨⟨hquoted⟩, -⟩ := Lexeme.string_eq_some_iff.1 htext
  rename_i cs
  refine ⟨_, Gen.exec_value_string _ job s, ?_⟩
  rw [toList_stringText, String.toList_ofList]
  refine ⟨.mk (Lua.isQuoted_escaped hquoted), Lua.isLineEnd_escaped, fun e rest => ?_⟩
  -- what Lua reads, by what the program says about each pair
  have hlua : e.lua (('"' :: cs).flatMap escapeLineEnd ++ rest) =
      (readQuoted encoded e.emittedPair cs).map fun (value, _) => (value, rest) := by
    rw [← e.lua_escaped hquoted, ← readQuoted_append (Lua.isQuoted_escaped hquoted)]
    rfl
  rw [hlua, guardedLineEnds_plain (by decide)]
  constructor
  · intro hguarded
    rw [e.emitted_eq_source hquoted hguarded, ← readQuoted_append hquoted]
    rfl
  · intro value hvalue
    obtain ⟨value', hvalue', hlength⟩ := e.length_emitted hquoted hvalue
    exact ⟨value', by rw [hvalue']; rfl, hlength⟩

/-- A literal with a line feed of its own and an escaped quote and backslash. -/
theorem string_value_kept_unless_guarded_raw :
    let cs := ['"', 'é', '\n', '\\', '"', '\\', '\\', '\n', '"']
    let t : Token := ⟨String.ofList cs, .origin, Position.origin.after cs⟩
    Reader.string ⟨cs, .origin⟩ = some (t, ⟨[], Position.origin.after cs⟩) ∧
      guardedLineEnds t.text.toList = 0 ∧
      ∃ text, (Gen.value (.string t)).exec default .start = (.ok (.word text), .start) ∧
        Escapes.verbatim.lua text.toList = some ([0xc3, 0xa9, 0x0a, 0x22, 0x5c, 0x0a], []) := by
  intro cs t
  have hread : Reader.string ⟨cs, .origin⟩ = some (t, ⟨[], Position.origin.after cs⟩) := rfl
  have htext : t.text.toList = cs := String.toList_ofList
  have hguarded : guardedLineEnds t.text.toList = 0 := by
    rw [htext]
    decide
  obtain ⟨text, hrun, -, -, hvalue⟩ := string_value_kept_unless_guarded hread default .start
  have hlua := (hvalue .verbatim []).1 hguarded
  rw [List.append_nil, List.append_nil, htext] at hlua
  exact ⟨hread, hguarded, text, hrun, hlua.trans rfl⟩

/-- A line feed behind a backslash denotes a line feed, and what is emitted a backslash and a
letter. -/
theorem guarded_line_feed_lost :
    let cs := ['"', '\\', '\n', '"']
    let t : Token := ⟨String.ofList cs, .origin, Position.origin.after cs⟩
    Reader.string ⟨cs, .origin⟩ = some (t, ⟨[], Position.origin.after cs⟩) ∧
      Escapes.verbatim.source t.text.toList = some ([0x0a], []) ∧
      (Gen.value (.string t)).exec default .start = (.ok (.word "\"\\\\n\""), .start) ∧
      Escapes.verbatim.lua "\"\\\\n\"".toList = some ([0x5c, 0x6e], []) :=
  ⟨rfl, rfl, Gen.exec_value_string _ _ _, rfl⟩

end LispLua
