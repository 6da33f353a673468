import LispLua.Proofs.Lowering.Rules
import LispLua.Proofs.Sugar.Pairs

/-! # Nodes of code -/

namespace LispLua.Lua.Code

/-- The codes right inside a code, in the order of the text. -/
def parts : Code → List Code
  | word _ | quoted _ | member _ _ | symbol _ | arguments | externNote _ _ => []
  | field c _ | method c _ | item c _ | paren c | negate c | isTable c | thunk _ c | run _ c
  | give _ c | bind _ c | handler _ c | closure _ _ c | declareThen _ c | load c | loadAs _ c
  | loadMembers _ c => [c]
  | entry c d | binary _ c d | power c d | arm c d | protect _ c d | assign c d | define c d =>
    [c, d]
  | branch c d e => [c, d, e]
  | list cs | table cs | record cs | chain _ cs | every cs | lines cs | choose cs
  | moduleNote _ cs => cs
  | call c cs => c :: cs
  | scope cs c | chooseElse cs c => cs ++ [c]
  | count _ cs ds => cs ++ ds
  | each _ _ c cs => c :: cs

mutual

/-- The codes inside a code, at any depth. -/
def inner : Code → List Code
  | word _ | quoted _ | member _ _ | symbol _ | arguments | externNote _ _ => []
  | field c _ | method c _ | item c _ | paren c | negate c | isTable c | thunk _ c | run _ c
  | give _ c | bind _ c | handler _ c | closure _ _ c | declareThen _ c | load c | loadAs _ c
  | loadMembers _ c => c :: c.inner
  | entry c d | binary _ c d | power c d | arm c d | protect _ c d | assign c d | define c d =>
    c :: c.inner ++ d :: d.inner
  | branch c d e => c :: c.inner ++ (d :: d.inner ++ e :: e.inner)
  | list cs | table cs | record cs | chain _ cs | every cs | lines cs | choose cs
  | moduleNote _ cs => nodesAll cs
  | call c cs => c :: c.inner ++ nodesAll cs
  | scope cs c | chooseElse cs c => nodesAll cs ++ c :: c.inner
  | count _ cs ds => nodesAll cs ++ nodesAll ds
  | each _ _ c cs => c :: c.inner ++ nodesAll cs

/-- Some codes, and the codes inside them. -/
def nodesAll : List Code → List Code
  | [] => []
  | c :: cs => c :: c.inner ++ nodesAll cs

end

/-- A code and the codes inside it. -/
def nodes (c : Code) : List Code :=
  c :: c.inner

theorem nodesAll_eq (cs : List Code) : nodesAll cs = cs.flatMap nodes := by
  induction cs with
  | nil => rfl
  | cons c cs ih => rw [nodesAll, ih, List.flatMap_cons, nodes, List.cons_append]

theorem inner_eq (c : Code) : c.inner = c.parts.flatMap nodes := by
  cases c <;> simp [inner, parts, nodesAll_eq, nodes]

theorem sizeOf_lt_of_mem_parts {c d : Code} (h : d ∈ c.parts) : sizeOf d < sizeOf c := by
  cases c <;> grind [parts, → List.sizeOf_lt_of_mem]

/-- Induction over codes by their parts. -/
theorem induction_parts {motive : Code → Prop}
    (parts : ∀ c : Code, (∀ d ∈ c.parts, motive d) → motive c) (c : Code) : motive c :=
  parts c fun d _ => induction_parts parts d
termination_by sizeOf c
decreasing_by exact sizeOf_lt_of_mem_parts ‹_›

/-- A property holds of every node of a code. -/
def Every (Q : Code → Prop) (c : Code) : Prop :=
  ∀ d ∈ c.nodes, Q d

theorem Every.intro {Q : Code → Prop} {c : Code} (hc : Q c) (hparts : ∀ d ∈ c.parts, d.Every Q) :
    c.Every Q := by
  refine List.forall_mem_cons.2 ⟨hc, fun d hd => ?_⟩
  rw [inner_eq] at hd
  obtain ⟨part, hpart, hd⟩ := List.mem_flatMap.1 hd
  exact hparts part hpart d hd

theorem nodes_subset_of_mem {c d : Code} (h : d ∈ c.nodes) : d.nodes ⊆ c.nodes := by
  induction c using induction_parts with
  | parts c ih =>
    rcases List.mem_cons.1 h with rfl | hinner
    · exact List.Subset.refl _
    · rw [inner_eq] at hinner
      obtain ⟨part, hpart, hd⟩ := List.mem_flatMap.1 hinner
      refine fun e he => List.mem_cons_of_mem c ?_
      rw [inner_eq]
      exact List.mem_flatMap.2 ⟨part, hpart, ih part hpart hd he⟩

/-- What holds of every node of a code does so of every node of a code inside it. -/
theorem Every.of_mem {Q : Code → Prop} {c d : Code} (h : c.Every Q) (hd : d ∈ c.nodes) :
    d.Every Q :=
  fun e he => h e (nodes_subset_of_mem hd he)

/-- Code that only puts other code together: it does not refer to a name, declare one or open a
function. -/
def IsGlue : Code → Prop
  | word _ | member _ _ | arguments | thunk _ _ | protect _ _ _ | handler _ _ | closure _ _ _
  | bind _ _ | scope _ _ | count _ _ _ | each _ _ _ _ | declareThen _ _ | loadAs _ _
  | loadMembers _ _ => False
  | _ => True

/-- A property goes over from the parts of code to what they are glued together to. -/
def Glued (R : Code → Prop) : Prop :=
  ∀ c, c.IsGlue → (∀ d ∈ c.parts, R d) → R c

/-- Glue that stands in access expressions, between operands and between the cases of a match. -/
def IsJoint : Code → Prop
  | field _ _ | method _ _ | item _ _ | paren _ | chain _ _ | binary _ _ _ | negate _ | power _ _
  | lines _ | choose _ | chooseElse _ _ => True
  | _ => False

/-- A property goes over from the parts of code to what they are joined to. -/
def Joined (R : Code → Prop) : Prop :=
  ∀ c, c.IsJoint → (∀ d ∈ c.parts, R d) → R c

theorem Glued.joined {R : Code → Prop} (hR : Glued R) : Joined R := by
  intro c hc
  refine hR c ?_
  cases c <;> trivial

theorem joined_every {Q : Code → Prop} (hQ : ∀ c, c.IsJoint → Q c) : Joined (Every Q) := by
  intro c hc hparts
  exact .intro (hQ c hc) hparts

theorem glued_every {Q : Code → Prop} (hQ : ∀ c, c.IsGlue → Q c) : Glued (Every Q) := by
  intro c hc hparts
  exact .intro (hQ c hc) hparts

theorem forall_mem_uniquePairs {α : Type} {P : α → Prop} {as : List α} (h : ∀ a ∈ as, P a) :
    ∀ ab ∈ uniquePairs as, P ab.1 ∧ P ab.2 :=
  forall_mem_uniquePairs_iff.2 (List.pairwise_of_forall_mem_list fun a ha b hb => ⟨h a ha, h b hb⟩)

namespace Joined

variable {R : Code → Prop} (hR : Joined R)

include hR

theorem of_accesses {segments : List Segment} {root code : Code} (h : Accesses segments root code)
    (hroot : R root) : R code := by
  induction h with
  | root => exact hroot
  | field _ _ ih => exact hR _ trivial (List.forall_mem_singleton.2 ih)
  | method _ _ ih => exact hR _ trivial (List.forall_mem_singleton.2 ih)

theorem of_part {value part : Code} (h : Session.Part value part) (hvalue : R value) : R part := by
  induction h with
  | self => exact hvalue
  | paren => exact hR _ trivial (List.forall_mem_singleton.2 hvalue)
  | item index _ ih => exact hR _ trivial (List.forall_mem_singleton.2 ih)

/-- What holds of a value and goes over to the declaration of a part holds of all that a pattern
declares. -/
theorem of_destructs (hbind : ∀ {name : String} {part : Code}, R part → R (.bind name part))
    {value : Code} {bs : List Code} {s s' : Session} (h : s.Destructs value bs s')
    (hvalue : R value) : ∀ b ∈ bs, R b := by
  induction h with
  | nil => simp
  | cons t hpart _ ih => exact List.forall_mem_cons.2 ⟨hbind (hR.of_part hpart hvalue), ih⟩

theorem indexable {c : Code} (h : R c) : R (Gen.indexable c) := by
  unfold Gen.indexable
  split
  · exact h
  · exact hR _ trivial (List.forall_mem_singleton.2 h)

theorem operand {c : Code} (h : R c) : R (Gen.operand c) := by
  unfold Gen.operand
  split
  · exact hR _ trivial (List.forall_mem_singleton.2 h)
  · exact h

theorem power (target : Target) {base exponent : Code} (hbase : R base) (hexponent : R exponent) :
    R (Gen.power target base exponent) := by
  unfold Gen.power
  split
  · exact hR _ trivial (by simpa [parts] using ⟨hbase, hexponent⟩)
  · exact hR _ trivial (by simpa [parts] using ⟨hbase, hexponent⟩)

theorem powers (target : Target) {first : Code} {rest : List Code} (hfirst : R first)
    (hrest : ∀ c ∈ rest, R c) : R (rest.foldl (Gen.power target) first) := by
  induction rest generalizing first with
  | nil => exact hfirst
  | cons c rest ih =>
    obtain ⟨hc, hrest⟩ := List.forall_mem_cons.1 hrest
    exact ih (hR.power target hfirst hc) hrest

theorem combine (op : Operator) (target : Target) {cs : List Code} (h : ∀ c ∈ cs, R c) :
    R (Gen.combine op target cs) := by
  unfold Gen.combine
  split
  · refine hR _ trivial fun c hc => ?_
    obtain ⟨ab, hab, rfl⟩ := List.mem_map.1 hc
    have hpair := forall_mem_uniquePairs h ab hab
    exact hR _ trivial (by simpa [parts] using hpair)
  · split
    · exact hR _ trivial (List.forall_mem_singleton.2 (hR _ trivial h))
    · exact hR _ trivial (List.forall_mem_singleton.2 (hR _ trivial h))
    · obtain ⟨hfirst, hrest⟩ := List.forall_mem_cons.1 h
      exact hR.powers target hfirst hrest
    · exact hR _ trivial h

theorem choice {cs : List Code} {otherwise : Option (List Code)} (h : ∀ c ∈ cs, R c)
    (hotherwise : ∀ ds, otherwise = some ds → ∀ d ∈ ds, R d) : R (Gen.choice cs otherwise) := by
  cases cs with
  | nil =>
    cases otherwise with
    | none => exact hR _ trivial h
    | some ds => exact hR _ trivial (hotherwise ds rfl)
  | cons c cs =>
    cases otherwise with
    | none => exact hR _ trivial h
    | some ds =>
      refine hR _ trivial (List.forall_mem_append.2 ⟨h, ?_⟩)
      exact List.forall_mem_singleton.2 (hR _ trivial (hotherwise ds rfl))

end Joined

end LispLua.Lua.Code
