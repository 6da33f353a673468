import LispLua.Proofs.Lexical.Scanner

/-!
# Texts with gaps

A text that is put together from known characters and from other texts, which may be anything that
closes what it opens. Such a text is read with its gaps left out: if it closes all it opens then, it
does so whatever fills the gaps.
-/

namespace LispLua.Lua

/-! ### Texts with gaps -/

/-- Whether a text can stand right behind an opening bracket without making a long one of it. -/
def startsClear (cs : List Char) : Bool :=
  cs.head?.any fun c => c != '[' && c != '='

theorem startsClear_append {cs : List Char} (h : startsClear cs = true) (ds : List Char) :
    startsClear (cs ++ ds) = true := by
  cases cs with
  | nil => cases h
  | cons c cs => exact h

theorem scan_bracketed {cs : List Char} (h : startsClear cs = true) (openers : List Opener) :
    scan ⟨.bracketed, openers⟩ cs = scan ⟨.code [], openers⟩ cs := by
  cases cs with
  | nil => cases h
  | cons c cs =>
    simp only [startsClear, List.head?_cons, Option.any_some, Bool.and_eq_true, bne_iff_ne] at h
    simp only [scan_cons, Scan.step, h, or_self, if_false]

/-- A text that closes all it opens and can stand between brackets. -/
def Neat (cs : List Char) : Prop :=
  Reads cs ∧ startsClear cs = true

/-- Every character of a text is read as a part of the string or comment around it. -/
def Stays (mode : Mode) (cs : List Char) : Prop :=
  ∀ c ∈ cs, mode.aside c = some mode

/-- Such a text does not leave the string or comment. -/
theorem Stays.scan {mode : Mode} {cs : List Char} (h : Stays mode cs) (openers : List Opener) :
    Lua.scan ⟨mode, openers⟩ cs = some ⟨mode, openers⟩ := by
  induction cs with
  | nil => rfl
  | cons c cs ih =>
    obtain ⟨hc, hcs⟩ := List.forall_mem_cons.1 h
    have hstep : Scan.step ⟨mode, openers⟩ c = some ⟨mode, openers⟩ := by
      cases mode with
      | code | bracketed | minus => cases hc
      | _ => simp only [Scan.step, hc, Option.map_some]
    rw [scan_cons, hstep, Option.bind_some, ih hcs]

theorem Stays.intercalate {mode : Mode} {sep : List Char} {texts : List (List Char)}
    (hsep : Stays mode sep) (htexts : ∀ cs ∈ texts, Stays mode cs) :
    Stays mode (sep.intercalate texts) := by
  induction texts with
  | nil => simp [Stays]
  | cons t texts ih =>
    obtain ⟨ht, htexts⟩ := List.forall_mem_cons.1 htexts
    cases texts with
    | nil => simpa using ht
    | cons t' texts =>
      rw [List.intercalate_cons_cons]
      exact List.forall_mem_append.2 ⟨List.forall_mem_append.2 ⟨ht, hsep⟩, ih htexts⟩

/-- A part of a text: characters that are known, or a gap for another text. -/
inductive Piece where
  | text (text : String)
  /-- A gap for a text that closes all it opens. -/
  | gap (text : String)
  /-- A gap behind an opening bracket. -/
  | key (text : String)
  /-- A gap for a text that also ends its last word. -/
  | whole (text : String)
  /-- A gap for a word. -/
  | word (text : String)
  /-- A gap inside a string or a comment. -/
  | within (mode : Mode) (text : String)
  /-- The bounds of a loop, with the beginning of its block. -/
  | bounds (text : String)

namespace Piece

/-- The characters of a part. -/
def chars : Piece → List Char
  | text t | gap t | key t | whole t | word t | within _ t => t.toList
  | bounds t => t.toList ++ " do ".toList

/-- What is put into a gap can stand there. -/
def Fits : Piece → Prop
  | text _ => True
  | gap t | bounds t => Reads t.toList
  | key t => Neat t.toList
  | whole t => Shuts t.toList
  | word t => IsPlainWord t.toList
  | within mode t => Stays mode t.toList

end Piece

/-- All gaps of a text are filled with what can stand there. -/
def Filled : List Piece → Prop
  | [] => True
  | .text _ :: ps => Filled ps
  | p :: ps => p.Fits ∧ Filled ps

theorem filled_cons {p : Piece} {ps : List Piece} (h : Filled (p :: ps)) : p.Fits ∧ Filled ps := by
  cases p with
  | text => exact ⟨trivial, h⟩
  | _ => exact h

/-- Whether a text that closes all it opens can stand here. -/
def Scan.isFree (s : Scan) : Bool :=
  s.mode = .code [] && s.openers.head? != some .header

theorem Scan.isFree_iff {s : Scan} :
    s.isFree = true ↔ s.mode = .code [] ∧ s.openers.head? ≠ some .header := by
  simp [isFree]

/-- Read a text and leave out its gaps. `pending` says whether it has come to the end of a gap,
where a word may have to be ended. -/
def walk (pending : Bool) (s : Scan) : List Piece → Option (Bool × Scan)
  | [] => some (pending, s)
  | .text t :: ps =>
    if pending && !startsApart t.toList then none else (scan s t.toList).bind (walk false · ps)
  | .gap _ :: ps => if !pending && s.isFree then walk true s ps else none
  | .key _ :: ps =>
    if !pending && s.mode = .bracketed && s.openers.head? != some .header then
      walk true ⟨.code [], s.openers⟩ ps
    else none
  | .whole _ :: ps => if !pending && s.isFree then walk false s ps else none
  | .word _ :: ps => if !pending && s.mode = .code [] then walk true s ps else none
  | .within mode _ :: ps => if !pending && s.mode = mode then walk false s ps else none
  | .bounds _ :: ps =>
    if !pending && s = ⟨.code [], [.header]⟩ then walk false ⟨.code [], [.block]⟩ ps else none

/-- What a reading that leaves out gaps stands for. -/
def Tracks (pending : Bool) (s t : Scan) : Prop :=
  if pending then s.mode = .code [] ∧ AtWord s.openers t else t = s

/-- One part of a text: where the reading without it goes on, the reading with it stands. -/
theorem scan_piece {p : Piece} {ps : List Piece} {pending : Bool} {s t : Scan} {r : Bool × Scan}
    (h : walk pending s (p :: ps) = some r) (hp : p.Fits) (ht : Tracks pending s t) :
    ∃ pending₁ s₁ t₁, scan t p.chars = some t₁ ∧ Tracks pending₁ s₁ t₁ ∧
      walk pending₁ s₁ ps = some r := by
  cases p with
  | text cs =>
    rw [walk] at h
    split at h
    · cases h
    · rename_i hapart
      obtain ⟨s₁, hscan, hwalk⟩ := Option.bind_eq_some_iff.1 h
      refine ⟨false, s₁, s₁, ?_, rfl, hwalk⟩
      cases pending with
      | false => rwa [show t = s from ht]
      | true =>
        obtain ⟨hmode, hword⟩ := ht
        rw [Piece.chars, hword.scan (by simpa using hapart), ← hmode]
        exact hscan
  | gap cs =>
    rw [walk, Option.ite_none_right_eq_some, Bool.and_eq_true, Bool.not_eq_true',
      Scan.isFree_iff] at h
    obtain ⟨⟨rfl, hmode, htop⟩, hwalk⟩ := h
    obtain ⟨t₁, hscan, hword⟩ := Reads.above hp htop
    refine ⟨true, s, t₁, ?_, ⟨hmode, hword⟩, hwalk⟩
    rw [show t = s from ht, ← hscan, ← hmode]
    rfl
  | key cs =>
    rw [walk, Option.ite_none_right_eq_some] at h
    simp only [Bool.and_eq_true, Bool.not_eq_true', decide_eq_true_eq, bne_iff_ne] at h
    obtain ⟨⟨⟨rfl, hmode⟩, htop⟩, hwalk⟩ := h
    obtain ⟨hreads, hstart⟩ := hp
    obtain ⟨t₁, hscan, hword⟩ := Reads.above hreads htop
    refine ⟨true, ⟨.code [], s.openers⟩, t₁, ?_, ⟨rfl, hword⟩, hwalk⟩
    rw [show t = s from ht, ← hscan, ← scan_bracketed hstart, ← hmode]
    rfl
  | whole cs =>
    rw [walk, Option.ite_none_right_eq_some, Bool.and_eq_true, Bool.not_eq_true',
      Scan.isFree_iff] at h
    obtain ⟨⟨rfl, hmode, htop⟩, hwalk⟩ := h
    have hscan := Shuts.above hp htop
    rw [← hmode] at hscan
    refine ⟨false, s, s, ?_, rfl, hwalk⟩
    rw [show t = s from ht]
    exact hscan
  | word cs =>
    rw [walk, Option.ite_none_right_eq_some] at h
    simp only [Bool.and_eq_true, Bool.not_eq_true', decide_eq_true_eq] at h
    obtain ⟨⟨rfl, hmode⟩, hwalk⟩ := h
    obtain ⟨t₁, hscan, hword⟩ := IsPlainWord.atWord hp s.openers
    refine ⟨true, s, t₁, ?_, ⟨hmode, hword⟩, hwalk⟩
    rw [show t = s from ht, ← hscan, ← hmode]
    rfl
  | within mode cs =>
    rw [walk, Option.ite_none_right_eq_some] at h
    simp only [Bool.and_eq_true, Bool.not_eq_true', decide_eq_true_eq] at h
    obtain ⟨⟨rfl, rfl⟩, hwalk⟩ := h
    refine ⟨false, s, s, ?_, rfl, hwalk⟩
    rw [show t = s from ht]
    exact Stays.scan hp s.openers
  | bounds cs =>
    rw [walk, Option.ite_none_right_eq_some] at h
    simp only [Bool.and_eq_true, Bool.not_eq_true', decide_eq_true_eq] at h
    obtain ⟨⟨rfl, rfl⟩, hwalk⟩ := h
    obtain ⟨t₁, hscan, hword⟩ := Reads.below_header hp (by simp : ([] : List Opener).head? ≠ _)
    refine ⟨false, ⟨.code [], [.block]⟩, _, ?_, rfl, hwalk⟩
    rw [show t = _ from ht, Piece.chars, scan_append, hscan, Option.bind_some]
    rcases hword with hword | hword
    · rw [hword.scan rfl]
      rfl
    · rw [hword.scan rfl]
      rfl

theorem scan_of_walk {ps : List Piece} {pending pending' : Bool} {s s' t : Scan}
    (h : walk pending s ps = some (pending', s')) (hps : Filled ps)
    (ht : Tracks pending s t) :
    ∃ t', scan t (ps.flatMap Piece.chars) = some t' ∧ Tracks pending' s' t' := by
  induction ps generalizing pending s t with
  | nil =>
    cases h
    exact ⟨t, rfl, ht⟩
  | cons p ps ih =>
    obtain ⟨hp, hrest⟩ := filled_cons hps
    obtain ⟨pending₁, s₁, t₁, hscan, htracks, hwalk⟩ := scan_piece h hp ht
    obtain ⟨t', hscan', htracks'⟩ := ih hwalk hrest htracks
    exact ⟨t', by rw [List.flatMap_cons, scan_append, hscan, Option.bind_some, hscan'], htracks'⟩

/-- What is open when the code that has been read is ended. -/
def Scan.ending (s : Scan) : Option (List Opener) :=
  match s.mode with
  | .code word => closeWord word s.openers
  | _ => none

/-- A text leaves open what it does with its gaps left out. -/
theorem exists_scan_of_walk {ps : List Piece} {s : Scan} {openers : List Opener}
    (h : (walk false s ps).bind (·.2.ending) = some openers) (hps : Filled ps) :
    ∃ t, scan s (ps.flatMap Piece.chars) = some t ∧ AtWord openers t := by
  obtain ⟨⟨pending, s'⟩, hwalk, hending⟩ := Option.bind_eq_some_iff.1 h
  obtain ⟨t, hscan, htracks⟩ := scan_of_walk hwalk hps (rfl : Tracks false s s)
  refine ⟨t, hscan, ?_⟩
  obtain ⟨mode, inner⟩ := s'
  cases mode with
  | code word =>
    cases pending with
    | false => exact ⟨word, inner, htracks, hending⟩
    | true =>
      obtain ⟨hmode, hword⟩ := htracks
      cases hmode
      cases hending
      exact hword
  | _ => cases hending

/-- A text closes all it opens if it does so with its gaps left out. -/
theorem Reads.of_walk {ps : List Piece} (h : (walk false .start ps).bind (·.2.ending) = some [])
    (hps : Filled ps) : Reads (ps.flatMap Piece.chars) := by
  obtain ⟨t, hscan, word, openers, rfl, hclose⟩ := exists_scan_of_walk h hps
  exact ⟨word, openers, hscan, hclose⟩

theorem Neat.of_walk {p : Piece} {ps : List Piece} (hp : startsClear p.chars = true)
    (h : (walk false .start (p :: ps)).bind (·.2.ending) = some [])
    (hps : Filled (p :: ps)) : Neat ((p :: ps).flatMap Piece.chars) :=
  ⟨.of_walk h hps, List.flatMap_cons ▸ startsClear_append hp _⟩

theorem Shuts.of_walk {ps : List Piece} (h : walk false .start ps = some (false, .start))
    (hps : Filled ps) : Shuts (ps.flatMap Piece.chars) := by
  obtain ⟨t, hscan, htracks⟩ := scan_of_walk h hps (rfl : Tracks false .start .start)
  rwa [show t = .start from htracks] at hscan

/-- A text that stands in a choice and leaves it open. -/
def Continues (cs : List Char) : Prop :=
  scan ⟨.code [], [.choice]⟩ cs = some ⟨.code [], [.choice]⟩

theorem Continues.of_walk {ps : List Piece}
    (h : walk false ⟨.code [], [.choice]⟩ ps = some (false, ⟨.code [], [.choice]⟩))
    (hps : Filled ps) : Continues (ps.flatMap Piece.chars) := by
  obtain ⟨t, hscan, htracks⟩ := scan_of_walk h hps (rfl : Tracks false _ _)
  rwa [show t = _ from htracks] at hscan

theorem Continues.append {cs ds : List Char} (hcs : Continues cs) (hds : Continues ds) :
    Continues (cs ++ ds) := by
  rw [Continues, scan_append, hcs, Option.bind_some, hds]

/-- Behind `if` a choice goes on until it is closed. -/
theorem Continues.reads {cs : List Char} (h : Continues cs) (ps : List Piece)
    (hwalk : (walk false ⟨.code [], [.choice]⟩ ps).bind (·.2.ending) = some [])
    (hps : Filled ps) : Reads ("if ".toList ++ (cs ++ ps.flatMap Piece.chars)) := by
  obtain ⟨t, hscan, word, openers, rfl, hclose⟩ := exists_scan_of_walk hwalk hps
  have hif : scan .start "if ".toList = some ⟨.code [], [.choice]⟩ := rfl
  refine ⟨word, openers, ?_, hclose⟩
  rw [scan_append, hif, Option.bind_some, scan_append, h, Option.bind_some, hscan]

theorem Shuts.append {cs ds : List Char} (hcs : Shuts cs) (hds : Shuts ds) : Shuts (cs ++ ds) := by
  rw [Shuts, scan_append, hcs, Option.bind_some, hds]

/-- A character of no word leaves no word behind. -/
theorem word_eq_nil_of_markStep {openers openers' : List Opener} {word : List Char} {c : Char}
    (h : markStep openers c = some ⟨.code word, openers'⟩) : word = [] := by
  unfold markStep at h
  split at h
  · split at h <;> cases h
    rfl
  · cases openers with
    | nil => cases h
    | cons top openers =>
      rw [closeOpener] at h
      split at h <;> cases h
      rfl
  · split at h
    · cases h
    · split at h <;> cases h
      rfl

theorem word_eq_nil_of_aside {mode : Mode} {word : List Char} {c : Char}
    (h : mode.aside c = some (.code word)) : word = [] := by
  cases mode <;> grind [Mode.aside, commentMode]

theorem word_eq_nil_of_step {s : Scan} {openers : List Opener} {word : List Char} {c : Char}
    (hc : isWordChar c = false) (h : s.step c = some ⟨.code word, openers⟩) : word = [] := by
  have hcode : ∀ {before : List Char} {inner : List Opener},
      codeStep before inner c = some ⟨.code word, openers⟩ → word = [] := by
    intro before inner h
    simp only [codeStep, hc, Bool.false_eq_true, if_false] at h
    obtain ⟨_, -, hmark⟩ := Option.bind_eq_some_iff.1 h
    exact word_eq_nil_of_markStep hmark
  obtain ⟨mode, inner⟩ := s
  unfold Scan.step at h
  split at h
  · exact hcode h
  · split at h
    · cases h
    · exact hcode h
  · split at h
    · cases h
    · exact hcode h
  · obtain ⟨mode, hmode, heq⟩ := Option.map_eq_some_iff.1 h
    cases heq
    exact word_eq_nil_of_aside hmode

/-- What ends with a character of no word has ended its last word. -/
theorem Reads.shuts {cs : List Char} {c : Char} (h : Reads (cs ++ [c]))
    (hc : isWordChar c = false) : Shuts (cs ++ [c]) := by
  obtain ⟨word, openers, hscan, hclose⟩ := h
  have hword : word = [] := by
    rw [scan_append] at hscan
    obtain ⟨s, -, hstep⟩ := Option.bind_eq_some_iff.1 hscan
    rw [scan_cons] at hstep
    obtain ⟨s', hstep', hnil⟩ := Option.bind_eq_some_iff.1 hstep
    cases hnil
    exact word_eq_nil_of_step hc hstep'
  subst hword
  cases hclose
  exact hscan

theorem startsApart_append {cs : List Char} (h : startsApart cs = true) (ds : List Char) :
    startsApart (cs ++ ds) = true := by
  cases cs with
  | nil => cases h
  | cons c cs => exact h

/-- Behind a text that closes all it opens, one that starts apart is read as from the start. -/
theorem Reads.scan_append {cs ds : List Char} (h : Reads cs) (hds : startsApart ds = true) :
    scan .start (cs ++ ds) = scan .start ds := by
  obtain ⟨s, hscan, hword⟩ := h.above (by simp : ([] : List Opener).head? ≠ some .header)
  rw [Lua.scan_append, show scan .start cs = some s from hscan, Option.bind_some, hword.scan hds]
  rfl

theorem Reads.append_shuts {cs ds : List Char} (h : Reads cs) (hapart : startsApart ds = true)
    (hds : Shuts ds) : Shuts (cs ++ ds) := by
  rw [Shuts, h.scan_append hapart, hds]

/-- Texts in a row, with something between them that ends words. -/
theorem Reads.intercalate {sep : List Char} {mode : Mode} {texts : List (List Char)}
    (hapart : startsApart sep = true) (hsep : scan .start sep = some ⟨mode, []⟩)
    (htexts : ∀ cs ∈ texts, Reads cs)
    (hmode : ∀ cs ∈ texts, ∀ rest, scan ⟨mode, []⟩ (cs ++ rest) = scan .start (cs ++ rest)) :
    Reads (sep.intercalate texts) := by
  induction texts with
  | nil => exact reads_nil
  | cons t texts ih =>
    obtain ⟨ht, htexts⟩ := List.forall_mem_cons.1 htexts
    obtain ⟨-, hmode⟩ := List.forall_mem_cons.1 hmode
    cases texts with
    | nil => simpa using ht
    | cons t' texts =>
      obtain ⟨word, openers, hscan, hclose⟩ := ih htexts hmode
      obtain ⟨rest, hrest⟩ : ∃ rest, sep.intercalate (t' :: texts) = t' ++ rest := by
        cases texts with
        | nil => exact ⟨[], by simp⟩
        | cons _ _ => exact ⟨_, by rw [List.intercalate_cons_cons, List.append_assoc]⟩
      refine ⟨word, openers, ?_, hclose⟩
      rw [List.intercalate_cons_cons, List.append_assoc,
        ht.scan_append (startsApart_append hapart _), Lua.scan_append, hsep, Option.bind_some,
        ← hscan, hrest]
      exact hmode t' (by simp) rest

theorem Neat.intercalate {sep : List Char} {texts : List (List Char)}
    (hapart : startsApart sep = true) (hsep : Shuts sep) (hne : texts ≠ [])
    (htexts : ∀ cs ∈ texts, Neat cs) : Neat (sep.intercalate texts) := by
  refine ⟨.intercalate hapart hsep (fun cs hcs => (htexts cs hcs).1) fun _ _ _ => rfl, ?_⟩
  obtain ⟨t, ts, rfl⟩ := List.exists_cons_of_ne_nil hne
  have ht : startsClear t = true := (htexts t (by simp)).2
  cases ts with
  | nil => simpa using ht
  | cons t' ts =>
    rw [List.intercalate_cons_cons, List.append_assoc]
    exact startsClear_append ht _

end LispLua.Lua
