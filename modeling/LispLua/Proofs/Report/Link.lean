import LispLua.Report.Issue
import Mathlib.Logic.Function.Basic

/-!
# Links of bug reports

Percent encoding can be undone, whatever the text: an escape tells its byte, and every other
character of an encoded text is a byte by itself. Encoded text has none of the marks that divide a
link, so the fields of the query are found again in the sentence that holds the link, even if the
sentence has such marks in front of it.

The decoder knows nothing of the encoder. It takes escapes with digits of either case, and any ASCII
character but the percent sign as it stands.
-/

namespace LispLua

theorem utf8Bytes_eq (text : String) : utf8Bytes text = text.toUTF8.data.toList := by
  rw [String.toUTF8_eq_toByteArray, ← String.utf8Encode_toList, List.utf8Encode,
    List.data_toByteArray, utf8Bytes]

theorem utf8Bytes_injective : Function.Injective utf8Bytes := by
  intro a b h
  rw [utf8Bytes_eq, utf8Bytes_eq, Array.toList_inj] at h
  exact String.toByteArray_inj.1 (ByteArray.ext h)

namespace Percent

/-- The characters that stand for themselves. -/
def unreserved : List Char :=
  "ABCDEFGHIJKLMNOPQRSTUVWXYZabcdefghijklmnopqrstuvwxyz0123456789-_.!~*'()".toList

/-- The digits of escapes. -/
def upperDigits : List Char :=
  "0123456789ABCDEF".toList

/-- Unreserved characters and escapes with upper case digits. -/
inductive Escaped : List Char → Prop
  | nil : Escaped []
  | plain {c : Char} {cs : List Char} : c ∈ unreserved → Escaped cs → Escaped (c :: cs)
  | escape {high low : Char} {cs : List Char} : high ∈ upperDigits → low ∈ upperDigits →
      Escaped cs → Escaped ('%' :: high :: low :: cs)

/-- The value of a hexadecimal digit of either case. -/
def digitValue? (c : Char) : Option Nat :=
  if c.isDigit then some (c.toNat - '0'.toNat)
  else if 'A' ≤ c ∧ c ≤ 'F' then some (c.toNat - 'A'.toNat + 10)
  else if 'a' ≤ c ∧ c ≤ 'f' then some (c.toNat - 'a'.toNat + 10)
  else none

/-- The bytes that a text in a link stands for. A percent sign must start an escape, and there are no
characters outside ASCII. -/
def decode : List Char → Option (List UInt8)
  | [] => some []
  | '%' :: high :: low :: cs => do
    let h ← digitValue? high
    let l ← digitValue? low
    return UInt8.ofNat (16 * h + l) :: (← decode cs)
  | c :: cs =>
    if c = '%' ∨ 128 ≤ c.toNat then none else (decode cs).map (UInt8.ofNat c.toNat :: ·)

/-! ### Bytes -/

theorem hexadecimal_byte {n : Nat} (h : n < 256) :
    hexadecimal 2 n = [Nat.digitChar (n / 16), Nat.digitChar (n % 16)] := by
  unfold hexadecimal
  by_cases hn : n < 16
  · rw [Nat.toDigits_of_lt_base hn, Nat.div_eq_of_lt hn, Nat.mod_eq_of_lt hn]
    rfl
  · have hhigh : n / 16 < 16 := by omega
    rw [Nat.toDigits_of_base_le (by decide) (Nat.le_of_not_lt hn), Nat.toDigits_of_lt_base hhigh]
    rfl

theorem upperDigit_of_lt {d : Nat} (h : d < 16) :
    d.digitChar.toUpper ∈ upperDigits ∧ digitValue? d.digitChar.toUpper = some d := by
  decide +revert

theorem unreserved_of_isUnreserved {b : UInt8} (h : isUnreserved b = true) :
    b.toNat < 128 ∧ Char.ofNat b.toNat ∈ unreserved ∧ (Char.ofNat b.toNat).toNat = b.toNat := by
  have hb : b.toNat < 128 := by
    simp only [isUnreserved, Bool.and_eq_true, decide_eq_true_eq, UInt8.lt_iff_toNat_lt] at h
    exact h.1
  have hall : ∀ n < 128, isUnreserved (UInt8.ofNat n) = true →
      Char.ofNat n ∈ unreserved ∧ (Char.ofNat n).toNat = n := by
    decide +kernel
  exact ⟨hb, hall b.toNat hb (by rwa [UInt8.ofNat_toNat])⟩

/-- A byte is encoded as an unreserved character or as an escape. -/
theorem encodeByte_cases (b : UInt8) :
    (∃ c ∈ unreserved, encodeByte b = [c] ∧ c.toNat < 128 ∧ UInt8.ofNat c.toNat = b) ∨
    ∃ high ∈ upperDigits, ∃ low ∈ upperDigits, encodeByte b = ['%', high, low] ∧
      digitValue? high = some (b.toNat / 16) ∧ digitValue? low = some (b.toNat % 16) := by
  by_cases h : isUnreserved b = true
  · obtain ⟨hb, hc, hn⟩ := unreserved_of_isUnreserved h
    refine .inl ⟨Char.ofNat b.toNat, hc, by rw [encodeByte, if_pos h], by rwa [hn], ?_⟩
    rw [hn, UInt8.ofNat_toNat]
  · have hb : b.toNat < 256 := b.toNat_lt
    obtain ⟨hhigh, hvalue⟩ := upperDigit_of_lt (show b.toNat / 16 < 16 by omega)
    obtain ⟨hlow, hvalue'⟩ := upperDigit_of_lt (show b.toNat % 16 < 16 by omega)
    refine .inr ⟨_, hhigh, _, hlow, ?_, hvalue, hvalue'⟩
    rw [encodeByte, if_neg h, hexadecimal_byte hb]
    rfl

/-! ### Texts -/

theorem ne_percent_of_unreserved {c : Char} (h : c ∈ unreserved) : c ≠ '%' := by
  rintro rfl
  exact absurd h (by decide)

theorem decode_cons {c : Char} (hc : c ≠ '%') (hascii : c.toNat < 128) (cs : List Char) :
    decode (c :: cs) = (decode cs).map (UInt8.ofNat c.toNat :: ·) := by
  rw [decode, if_neg (not_or.2 ⟨hc, Nat.not_le.2 hascii⟩)]
  rintro _ _ _ rfl
  exact absurd rfl hc

theorem decode_encodeByte (b : UInt8) (cs : List Char) :
    decode (encodeByte b ++ cs) = (decode cs).map (b :: ·) := by
  obtain ⟨c, hc, hbyte, hascii, hb⟩ | ⟨high, -, low, -, hbyte, hhigh, hlow⟩ := encodeByte_cases b
  · rw [hbyte, List.singleton_append, decode_cons (ne_percent_of_unreserved hc) hascii, hb]
  · have hb : 16 * (b.toNat / 16) + b.toNat % 16 = b.toNat := Nat.div_add_mod b.toNat 16
    rw [hbyte]
    simp only [List.cons_append, List.nil_append, decode, hhigh, hlow, Option.bind_eq_bind,
      Option.bind_some, hb, UInt8.ofNat_toNat]
    cases decode cs <;> rfl

theorem decode_flatMap (bs : List UInt8) : decode (bs.flatMap encodeByte) = some bs := by
  induction bs with
  | nil => rfl
  | cons b bs ih => rw [List.flatMap_cons, decode_encodeByte, ih, Option.map_some]

theorem decode_encode (text : String) : decode (encode text).toList = some (utf8Bytes text) := by
  rw [encode, String.toList_ofList, decode_flatMap]

theorem encode_injective : Function.Injective encode := by
  intro a b h
  have hbytes := decode_encode a
  rw [h, decode_encode] at hbytes
  exact utf8Bytes_injective (Option.some.inj hbytes).symm

theorem escaped_flatMap (bs : List UInt8) : Escaped (bs.flatMap encodeByte) := by
  induction bs with
  | nil => exact .nil
  | cons b bs ih =>
    rw [List.flatMap_cons]
    obtain ⟨c, hc, hbyte, -⟩ | ⟨high, hhigh, low, hlow, hbyte, -⟩ := encodeByte_cases b
    · rw [hbyte]
      exact .plain hc ih
    · rw [hbyte]
      exact .escape hhigh hlow ih

theorem escaped_encode (text : String) : Escaped (encode text).toList := by
  rw [encode, String.toList_ofList]
  exact escaped_flatMap _

/-- An encoded text has unreserved characters and percent signs only. -/
theorem Escaped.subset {cs : List Char} (h : Escaped cs) : cs ⊆ '%' :: unreserved := by
  have hdigits : upperDigits ⊆ '%' :: unreserved := by decide
  induction h with
  | nil => exact List.nil_subset _
  | plain hc _ ih => exact List.cons_subset.2 ⟨List.mem_cons_of_mem _ hc, ih⟩
  | escape hhigh hlow _ ih =>
    refine List.cons_subset.2 ⟨List.mem_cons_self, ?_⟩
    exact List.cons_subset.2 ⟨hdigits hhigh, List.cons_subset.2 ⟨hdigits hlow, ih⟩⟩

end Percent

/-! ### Reports -/

namespace Issue

open Percent

variable (i : Issue)

/-- A field of the query of a link. -/
def field (key : String) (value : List Char) : List Char :=
  key.toList ++ '=' :: value

/-- The fields of a link as they are written. -/
def writtenFields : List (List Char) :=
  i.fields.map fun f => field f.1 (encode f.2).toList

theorem toList_query : i.query.toList = ['&'].intercalate i.writtenFields := by
  simp [query, writtenFields, field, String.toList_intercalate, Function.comp_def]

/-- The marks that divide a link stand nowhere else in its fields. -/
theorem notMem_writtenFields {mark : Char} (hmark : mark = '?' ∨ mark = '&') :
    ∀ cs ∈ i.writtenFields, mark ∉ cs := by
  have hkeys : ∀ f ∈ i.fields, mark ∉ f.1.toList := by
    simp only [fields, List.forall_mem_cons, List.not_mem_nil, false_implies, implies_true, and_true]
    rcases hmark with rfl | rfl <;> decide
  have hvalue : mark ∉ '=' :: '%' :: unreserved := by
    rcases hmark with rfl | rfl <;> decide
  intro cs hcs
  obtain ⟨f, hf, rfl⟩ := List.mem_map.1 hcs
  rw [field, List.mem_append]
  rintro (hkey | hmem)
  · exact hkeys f hf hkey
  · exact hvalue (List.cons_subset_cons '=' (escaped_encode f.2).subset hmem)

theorem splitOn_query : i.query.toList.splitOn '&' = i.writtenFields := by
  rw [toList_query]
  exact List.splitOn_intercalate '&' (i.notMem_writtenFields (.inr rfl)) (List.cons_ne_nil _ _)

theorem notMem_query : '?' ∉ i.query.toList := by
  have h : ∀ cs ∈ i.writtenFields, '?' ∉ cs := i.notMem_writtenFields (.inl rfl)
  rw [toList_query]
  simp only [writtenFields, fields, List.map_cons, List.map_nil, List.forall_mem_cons] at h ⊢
  simp [h.1, h.2.1, h.2.2.1]

/-- The body of a report has the program in it as it stands. -/
theorem body_eq_append : ∃ before behind, ∀ code : String,
    { i with code := code }.body = before ++ code ++ behind := by
  have append {f : String → String}
      (h : ∃ before behind, ∀ code, f code = before ++ code ++ behind) (text : String) :
      ∃ before behind, ∀ code, f code ++ text = before ++ code ++ behind := by
    obtain ⟨before, behind, h⟩ := h
    exact ⟨before, behind ++ text, fun code => by rw [h, String.append_assoc]⟩
  unfold body
  dsimp only
  -- What stands behind the program is taken off piece by piece.
  iterate 9 apply append
  exact ⟨_, "", fun code => String.append_empty.symm⟩

theorem toList_invitation : ∃ front, i.invitation.toList = front ++ '?' :: i.query.toList := by
  have hmark : "?".toList = ['?'] := by decide
  unfold invitation
  rw [String.toList_append, String.toList_append, hmark, List.append_assoc]
  exact ⟨_, rfl⟩

/-- The query of the link of a report is what stands behind the last question mark of the sentence.
It has a title, labels and a body in this order, all of them encoded, and decoding them gives the
bytes of the report, with the whole program in it. -/
theorem link_decodes_to_report :
    (∀ i : Issue, ∃ front query, i.invitation.toList = front ++ '?' :: query ∧ '?' ∉ query ∧
      ∃ title labels body,
        query.splitOn '&' = [field "title" title, field "labels" labels, field "body" body] ∧
        (∀ value ∈ [title, labels, body], Escaped value) ∧
        decode title = some i.title.toUTF8.data.toList ∧
        decode labels = some "bug,codegen".toUTF8.data.toList ∧
        decode body = some i.body.toUTF8.data.toList ∧
        ∃ before behind, ∀ code, { i with code := code }.body = before ++ code ++ behind) ∧
    Function.Injective encode := by
  refine ⟨fun i => ?_, encode_injective⟩
  obtain ⟨front, hfront⟩ := i.toList_invitation
  refine ⟨front, i.query.toList, hfront, i.notMem_query, ?_⟩
  have hdecode (text : String) : decode (encode text).toList = some text.toUTF8.data.toList := by
    rw [decode_encode, utf8Bytes_eq]
  refine ⟨_, _, _, i.splitOn_query, ?_, hdecode _, hdecode _, hdecode _, i.body_eq_append⟩
  simp [escaped_encode]

end Issue

end LispLua
