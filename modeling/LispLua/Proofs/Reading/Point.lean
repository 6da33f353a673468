import LispLua.Text.Position
import Mathlib.Data.List.Induction
import Mathlib.Data.String.Basic

/-!
# Points and slices of a text

A position says three things about a point of a text: how many bytes stand before it, in which line
it is, and how many characters of that line stand before it. They can be read off the text in front
of the point, and a position is faithful to a text if it agrees with that.
-/

namespace LispLua

/-- The characters of a text from the byte offset `i` up to the byte offset `j`. -/
def cut (text : String) (i j : Nat) : List Char :=
  (String.Pos.Raw.extract text ⟨i⟩ ⟨j⟩).toList

namespace Position

/-- A position lies between two characters of a text, its line is one more than the line feeds in
front of it, and its column one more than the characters in front of it behind the last of them. -/
structure Faithful (p : Position) (text : String) : Prop where
  boundary : (String.Pos.Raw.mk p.offset).IsValid text
  line : p.line = 1 + (cut text 0 p.offset).count '\n'
  column : p.column = 1 + ((cut text 0 p.offset).reverse.takeWhile (· != '\n')).length

/-- The point behind `before`, which a text starts with. -/
def behind (before : List Char) : Position :=
  origin.after before

@[simp] theorem behind_nil : behind [] = origin := rfl

theorem behind_append (before cs : List Char) : behind (before ++ cs) = (behind before).after cs :=
  after_append origin before cs

theorem offset_behind (before : List Char) : (behind before).offset = String.utf8Len before := by
  induction before using List.reverseRecOn with
  | nil => rfl
  | append_singleton cs c ih =>
    rw [behind_append, after_cons, after_nil, String.utf8Len_append, ← ih]
    by_cases h : c = '\n' <;> simp [advance, h]

theorem line_behind (before : List Char) : (behind before).line = 1 + before.count '\n' := by
  induction before using List.reverseRecOn with
  | nil => rfl
  | append_singleton cs c ih =>
    rw [behind_append, after_cons, after_nil, List.count_append]
    by_cases h : c = '\n'
    · simp [advance, h, ih, Nat.add_assoc]
    · simp [advance, h, ih]

theorem column_behind (before : List Char) :
    (behind before).column = 1 + (before.reverse.takeWhile (· != '\n')).length := by
  induction before using List.reverseRecOn with
  | nil => rfl
  | append_singleton cs c ih =>
    rw [behind_append, after_cons, after_nil, List.reverse_append]
    by_cases h : c = '\n'
    · simp [advance, h]
    · simp [advance, h, ih, Nat.add_assoc]

end Position

section

variable {text : String} {before cs rest : List Char}

/-- The offsets of two points cut out what stands between them. -/
theorem cut_behind (h : text.toList = before ++ (cs ++ rest)) :
    cut text (Position.behind before).offset (Position.behind (before ++ cs)).offset = cs := by
  have htext : text = String.ofList (before ++ cs ++ rest) := by
    rw [List.append_assoc, ← h, String.ofList_toList]
  rw [cut, Position.offset_behind, Position.offset_behind, String.utf8Len_append, htext,
    String.extract_of_valid, String.toList_ofList]

theorem cut_zero_behind (h : text.toList = before ++ rest) :
    cut text 0 (Position.behind before).offset = before := by
  have hcut : cut text (Position.behind []).offset (Position.behind ([] ++ before)).offset = before :=
    cut_behind h
  rwa [List.nil_append] at hcut

theorem offset_behind_eq_size (h : text.toList = before) :
    (Position.behind before).offset = text.utf8ByteSize := by
  rw [Position.offset_behind, ← h, ← String.utf8ByteSize_ofList, String.ofList_toList]

/-- The position behind a part of a text is faithful. -/
theorem faithful_behind (h : text.toList = before ++ rest) :
    (Position.behind before).Faithful text := by
  refine ⟨?_, ?_, ?_⟩
  · apply String.Pos.Raw.isValid_iff_exists_append.2
    refine ⟨String.ofList before, String.ofList rest, ?_, ?_⟩
    · rw [← String.ofList_append, ← h, String.ofList_toList]
    · rw [Position.offset_behind, String.rawEndPos_ofList]
  · rw [cut_zero_behind h, Position.line_behind]
  · rw [cut_zero_behind h, Position.column_behind]

end

theorem offset_lt_behind {before cs : List Char} (h : cs ≠ []) :
    (Position.behind before).offset < (Position.behind (before ++ cs)).offset := by
  have hpos : String.utf8Len cs ≠ 0 := mt String.utf8Len_eq_zero.1 h
  rw [Position.offset_behind, Position.offset_behind, String.utf8Len_append]
  omega

theorem offset_le_behind (before cs : List Char) :
    (Position.behind before).offset ≤ (Position.behind (before ++ cs)).offset := by
  rw [Position.offset_behind, Position.offset_behind, String.utf8Len_append]
  omega

end LispLua
