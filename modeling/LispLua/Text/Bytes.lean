/-!
# Bytes of a text

The UTF-8 form of a text as a list of bytes, and hexadecimal numerals.
-/

namespace LispLua

/-- The bytes of a text in UTF-8. -/
def utf8Bytes (text : String) : List UInt8 :=
  text.toList.flatMap String.utf8EncodeChar

/-- A number in lower case hexadecimal digits, padded with zeros to at least `width` of them. -/
def hexadecimal (width n : Nat) : List Char :=
  let digits := Nat.toDigits 16 n
  List.replicate (width - digits.length) '0' ++ digits

end LispLua
