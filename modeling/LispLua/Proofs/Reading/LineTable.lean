import LispLua.Proofs.Reading.Point

/-!
# A table of lines

A position can be worked out from what is left of a text. Its offset is the number of bytes that
were taken, its line is found by a search among the offsets at which lines start, and its column
counts the characters from there on. A subtraction, an index and a slice stand on this way, and each
has a range. None of them is ever left, and the position is the one that counting along the text
gives.

Any search will do that keeps its promise, so the search is a parameter. `scan` is one.
-/

namespace LispLua

/-! ### Searches -/

/-- What a search for a number in a sorted row promises: the index of the number, or an index at which
it can be put in without disturbing the order if it is not there. -/
structure Searches (search : List Nat → Nat → Except Nat Nat) : Prop where
  found {xs : List Nat} {x i : Nat} : xs.Pairwise (· ≤ ·) → search xs x = .ok i → xs[i]? = some x
  missing {xs : List Nat} {x i : Nat} : xs.Pairwise (· ≤ ·) → search xs x = .error i →
    x ∉ xs ∧ i ≤ xs.length ∧ (xs.take i ++ x :: xs.drop i).Pairwise (· ≤ ·)

/-- The index of the last number up to the one searched for. -/
def lastUpTo? : Except Nat Nat → Option Nat
  | .ok i => some i
  | .error 0 => none
  | .error (i + 1) => some i

section

variable {front back : List Nat} {x i : Nat}

/-- In a row without repetitions, what is found is the last number up to `x`. -/
theorem length_eq_of_found (hsorted : (front ++ back).Pairwise (· < ·))
    (hfront : ∀ y ∈ front, y ≤ x) (hback : ∀ y ∈ back, x < y)
    (h : (front ++ back)[i]? = some x) : front.length = i + 1 := by
  obtain ⟨hi, hx⟩ := List.getElem?_eq_some_iff.1 h
  have hlt : i < front.length := by
    by_contra hge
    rw [List.getElem_append_right (by omega)] at hx
    exact Nat.lt_irrefl x (hback x (hx ▸ List.getElem_mem _))
  -- If another one up to `x` came behind, it would be larger than `x`.
  have hlast : front.length ≤ i + 1 := by
    by_contra hmore
    have hnext := List.pairwise_iff_getElem.1 hsorted i (i + 1) hi (by simp; omega) (by omega)
    rw [hx, List.getElem_append_left (by omega)] at hnext
    have hle := hfront _ (List.getElem_mem (l := front) (n := i + 1) (by omega))
    omega
  omega

/-- The only place for a missing number is behind all that are smaller. -/
theorem length_eq_of_missing (hfront : ∀ y ∈ front, y ≤ x) (hback : ∀ y ∈ back, x < y)
    (hmem : x ∉ front ++ back) (hi : i ≤ (front ++ back).length)
    (hput : ((front ++ back).take i ++ x :: (front ++ back).drop i).Pairwise (· ≤ ·)) :
    front.length = i := by
  obtain ⟨-, hdrop, htake⟩ := List.pairwise_append.1 hput
  have hlower : front.length ≤ i := by
    by_contra hless
    have hin : front[i] ∈ (front ++ back).drop i := by
      rw [List.drop_append_of_le_length (by omega)]
      exact List.mem_append_left _ (List.mem_drop_iff_getElem.2 ⟨0, by omega, by simp⟩)
    have hfirst : front[i] ∈ front := List.getElem_mem _
    have heq : x = front[i] :=
      Nat.le_antisymm (List.rel_of_pairwise_cons hdrop hin) (hfront _ hfirst)
    exact hmem (heq ▸ List.mem_append_left _ hfirst)
  have hupper : i ≤ front.length := by
    by_contra hmore
    rw [List.length_append] at hi
    have hin : back[0] ∈ (front ++ back).take i := by
      rw [List.take_append]
      exact List.mem_append_right _ (List.mem_take_iff_getElem.2 ⟨0, by omega, rfl⟩)
    have hle := htake _ hin x List.mem_cons_self
    have hlt := hback _ (List.getElem_mem (l := back) (n := 0) (by omega))
    omega
  omega

/-- A search finds where the numbers up to `x` end. -/
theorem Searches.lastUpTo?_eq {search : List Nat → Nat → Except Nat Nat} (hsearch : Searches search)
    (hsorted : (front ++ back).Pairwise (· < ·)) (hne : front ≠ []) (hfront : ∀ y ∈ front, y ≤ x)
    (hback : ∀ y ∈ back, x < y) :
    lastUpTo? (search (front ++ back) x) = some (front.length - 1) := by
  have hpos : 0 < front.length := List.length_pos_iff.2 hne
  have hle : (front ++ back).Pairwise (· ≤ ·) := hsorted.imp Nat.le_of_lt
  cases h : search (front ++ back) x with
  | ok i =>
    have hlength := length_eq_of_found hsorted hfront hback (hsearch.found hle h)
    rw [lastUpTo?, hlength, Nat.add_sub_cancel]
  | error i =>
    obtain ⟨hmem, hi, hput⟩ := hsearch.missing hle h
    have hlength := length_eq_of_missing hfront hback hmem hi hput
    obtain ⟨k, hk⟩ := Nat.exists_eq_add_one.2 hpos
    rw [← hlength, hk, lastUpTo?, Nat.add_sub_cancel]

end

/-- A search from the front. -/
def scan : List Nat → Nat → Except Nat Nat
  | [], _ => .error 0
  | y :: ys, x =>
    if y < x then
      match scan ys x with
      | .ok i => .ok (i + 1)
      | .error i => .error (i + 1)
    else if y = x then .ok 0 else .error 0

theorem searches_scan : Searches scan where
  found {xs x i} hsorted h := by
    fun_induction scan xs x generalizing i with
    | case2 y ys x hlt k hk ih =>
      cases h
      exact ih hsorted.of_cons hk
    | case4 =>
      cases h
      rfl
    | _ => cases h
  missing {xs x i} hsorted h := by
    fun_induction scan xs x generalizing i with
    | case1 =>
      cases h
      simp
    | case3 y ys x hlt k hk ih =>
      cases h
      obtain ⟨hy, hys⟩ := List.pairwise_cons.1 hsorted
      obtain ⟨hmem, hle, hput⟩ := ih hys hk
      have hall : ∀ z ∈ ys.take k ++ x :: ys.drop k, y ≤ z := by
        intro z hz
        rcases List.mem_append.1 hz with hz | hz
        · exact hy z (List.mem_of_mem_take hz)
        · rcases List.mem_cons.1 hz with rfl | hz
          · exact Nat.le_of_lt hlt
          · exact hy z (List.mem_of_mem_drop hz)
      refine ⟨?_, Nat.succ_le_succ hle, .cons hall hput⟩
      rintro (_ | ⟨_, hx⟩)
      · exact Nat.lt_irrefl _ hlt
      · exact hmem hx
    | case5 y ys x hge hne =>
      cases h
      have hall : ∀ z ∈ y :: ys, x < z := by
        rintro z (_ | ⟨_, hz⟩)
        · omega
        · have := List.rel_of_pairwise_cons hsorted hz
          omega
      refine ⟨fun hx => Nat.lt_irrefl x (hall x hx), Nat.zero_le _, ?_⟩
      exact .cons (fun z hz => Nat.le_of_lt (hall z hz)) hsorted
    | _ => cases h

/-! ### Lines -/

/-- The offsets at which the lines behind the first one start, if the text starts at `offset`. -/
def lineStartsFrom (offset : Nat) : List Char → List Nat
  | [] => []
  | c :: cs =>
    let next := offset + c.utf8Size
    if c = '\n' then next :: lineStartsFrom next cs else lineStartsFrom next cs

/-- The offsets at which the lines of a text start. -/
def lineStarts (text : String) : List Nat :=
  0 :: lineStartsFrom 0 text.toList

theorem lineStartsFrom_append (offset : Nat) (cs ds : List Char) :
    lineStartsFrom offset (cs ++ ds) =
      lineStartsFrom offset cs ++ lineStartsFrom (offset + String.utf8Len cs) ds := by
  induction cs generalizing offset with
  | nil => rfl
  | cons c cs ih =>
    have hlen : offset + c.utf8Size + String.utf8Len cs = offset + String.utf8Len (c :: cs) := by
      rw [String.utf8Len_cons]
      omega
    rw [List.cons_append, lineStartsFrom, lineStartsFrom, ih, hlen]
    split
    · rw [List.cons_append]
    · rfl

theorem length_lineStartsFrom (offset : Nat) (cs : List Char) :
    (lineStartsFrom offset cs).length = cs.count '\n' := by
  induction cs generalizing offset with
  | nil => rfl
  | cons c cs ih => by_cases h : c = '\n' <;> simp [lineStartsFrom, h, ih]

/-- Behind the first one, lines start behind a character. -/
theorem bounds_of_mem_lineStartsFrom {offset x : Nat} {cs : List Char}
    (h : x ∈ lineStartsFrom offset cs) : offset < x ∧ x ≤ offset + String.utf8Len cs := by
  induction cs generalizing offset with
  | nil => cases h
  | cons c cs ih =>
    have hpos := c.utf8Size_pos
    have hnext : x = offset + c.utf8Size ∨ x ∈ lineStartsFrom (offset + c.utf8Size) cs := by
      by_cases hc : c = '\n' <;> simp_all [lineStartsFrom]
    rw [String.utf8Len_cons]
    rcases hnext with rfl | hnext
    · omega
    · have := ih hnext
      omega

theorem pairwise_lineStartsFrom (offset : Nat) (cs : List Char) :
    (offset :: lineStartsFrom offset cs).Pairwise (· < ·) := by
  induction cs generalizing offset with
  | nil => simp [lineStartsFrom]
  | cons c cs ih =>
    refine .cons (fun x hx => (bounds_of_mem_lineStartsFrom hx).1) ?_
    by_cases h : c = '\n'
    · simpa [lineStartsFrom, h] using ih (offset + c.utf8Size)
    · simpa [lineStartsFrom, h] using (ih (offset + c.utf8Size)).of_cons

/-- The last line of a text starts behind its last line feed. -/
theorem exists_last_line (before : List Char) :
    ∃ head, before = head ++ (before.reverse.takeWhile (· != '\n')).reverse ∧
      (0 :: lineStartsFrom 0 before).getLast? = some (String.utf8Len head) := by
  induction before using List.reverseRecOn with
  | nil => exact ⟨[], rfl, rfl⟩
  | append_singleton cs c ih =>
    by_cases h : c = '\n'
    · refine ⟨cs ++ [c], by simp [h], ?_⟩
      rw [lineStartsFrom_append, lineStartsFrom, if_pos h, lineStartsFrom, ← List.cons_append,
        List.getLast?_concat, Nat.zero_add, String.utf8Len_append, String.utf8Len_cons,
        String.utf8Len_nil, Nat.zero_add]
    · obtain ⟨head, hcs, hlast⟩ := ih
      refine ⟨head, ?_, by simpa [lineStartsFrom_append, lineStartsFrom, h] using hlast⟩
      rw [List.reverse_append, List.reverse_singleton, List.singleton_append,
        List.takeWhile_cons_of_pos (by simpa using h), List.reverse_cons, ← List.append_assoc, ← hcs]

section

variable {text : String} {before rest : List Char}

/-- The lines that start up to a point, and those that start behind it. -/
theorem lineStarts_eq_append (h : text.toList = before ++ rest) :
    lineStarts text =
      (0 :: lineStartsFrom 0 before) ++ lineStartsFrom (String.utf8Len before) rest := by
  rw [lineStarts, h, lineStartsFrom_append, Nat.zero_add, List.cons_append]

/-- A search in the table finds the line of a point. -/
theorem Searches.line_eq {search : List Nat → Nat → Except Nat Nat} (hsearch : Searches search)
    (h : text.toList = before ++ rest) :
    lastUpTo? (search (lineStarts text) (Position.behind before).offset) =
      some (before.count '\n') := by
  have hsorted : (lineStarts text).Pairwise (· < ·) := pairwise_lineStartsFrom 0 text.toList
  have hcount : before.count '\n' = (0 :: lineStartsFrom 0 before).length - 1 := by
    rw [List.length_cons, length_lineStartsFrom, Nat.add_sub_cancel]
  rw [lineStarts_eq_append h] at hsorted ⊢
  rw [Position.offset_behind, hcount]
  apply hsearch.lastUpTo?_eq hsorted (List.cons_ne_nil _ _)
  · intro y hy
    rcases List.mem_cons.1 hy with rfl | hy
    · exact Nat.zero_le _
    · have := (bounds_of_mem_lineStartsFrom hy).2
      omega
  · exact fun y hy => (bounds_of_mem_lineStartsFrom hy).1

/-- The line of a point starts behind the last line feed in front of it. -/
theorem exists_line_start (h : text.toList = before ++ rest) :
    ∃ head, before = head ++ (before.reverse.takeWhile (· != '\n')).reverse ∧
      (lineStarts text)[before.count '\n']? = some (Position.behind head).offset := by
  obtain ⟨head, hhead, hlast⟩ := exists_last_line before
  refine ⟨head, hhead, ?_⟩
  rw [List.getLast?_eq_getElem?, List.length_cons, length_lineStartsFrom, Nat.add_sub_cancel] at hlast
  rw [lineStarts_eq_append h, List.getElem?_append_left (by simp [length_lineStartsFrom]), hlast,
    Position.offset_behind]

end

/-! ### Positions -/

/-- A difference, if there is one. -/
def difference? (m n : Nat) : Option Nat :=
  if n ≤ m then some (m - n) else none

/-- The characters between two offsets, if those stand in order and between characters. -/
def slice? (text : String) (i j : Nat) : Option (List Char) :=
  if i ≤ j ∧ (String.Pos.Raw.mk i).IsValid text ∧ (String.Pos.Raw.mk j).IsValid text then
    some (cut text i j)
  else none

theorem slice?_behind {text : String} {before cs rest : List Char}
    (h : text.toList = before ++ (cs ++ rest)) :
    slice? text (Position.behind before).offset (Position.behind (before ++ cs)).offset =
      some cs := by
  have hstop : text.toList = (before ++ cs) ++ rest := by rw [h, List.append_assoc]
  rw [slice?, if_pos ⟨offset_le_behind before cs, (faithful_behind h).boundary,
    (faithful_behind hstop).boundary⟩, cut_behind h]

/-- The position in front of what is left of a text. -/
def Position.lookup? (search : List Nat → Nat → Except Nat Nat) (text : String)
    (rest : List Char) : Option Position := do
  let offset ← difference? text.utf8ByteSize (String.utf8Len rest)
  let line ← lastUpTo? (search (lineStarts text) offset)
  let cs ← slice? text (← (lineStarts text)[line]?) offset
  return ⟨offset, line + 1, cs.length + 1⟩

/-- The position in front of what is left of a text can be looked up, and it is the one behind what
was taken. -/
theorem Position.lookup?_eq_some {search : List Nat → Nat → Except Nat Nat}
    (hsearch : Searches search) {text : String} {before rest : List Char}
    (h : text.toList = before ++ rest) : lookup? search text rest = some (behind before) := by
  have hoffset : difference? text.utf8ByteSize (String.utf8Len rest) =
      some (behind before).offset := by
    rw [← offset_behind_eq_size h, offset_behind, offset_behind, String.utf8Len_append, difference?,
      if_pos (Nat.le_add_left _ _), Nat.add_sub_cancel]
  obtain ⟨head, hhead, hstart⟩ := exists_line_start h
  have hslice : slice? text (behind head).offset (behind before).offset =
      some (before.reverse.takeWhile (· != '\n')).reverse := by
    have htext : text.toList =
        head ++ ((before.reverse.takeWhile (· != '\n')).reverse ++ rest) := by
      rw [h, ← List.append_assoc, ← hhead]
    have hbehind := slice?_behind htext
    rwa [← hhead] at hbehind
  simp only [lookup?, hoffset, hsearch.line_eq h, hstart, hslice, Option.bind_eq_bind,
    Option.bind_some]
  show some _ = some (Position.mk (behind before).offset (behind before).line (behind before).column)
  rw [line_behind, column_behind, List.length_reverse, Nat.add_comm 1, Nat.add_comm 1]

end LispLua
