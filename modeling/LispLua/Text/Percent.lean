import LispLua.Text.Bytes

/-!
# Percent encoding

Text inside the query of a link: the unreserved characters stand for themselves, every other byte
is written as a percent sign and two upper case hexadecimal digits.
-/

namespace LispLua.Percent

/-- Whether a byte stands for itself. -/
def isUnreserved (b : UInt8) : Bool :=
  let c := Char.ofNat b.toNat
  b < 128 && (c.isAlphanum || "-_.!~*'()".toList.contains c)

/-- The encoded form of one byte. -/
def encodeByte (b : UInt8) : List Char :=
  if isUnreserved b then [Char.ofNat b.toNat]
  else '%' :: (hexadecimal 2 b.toNat).map Char.toUpper

/-- The encoded form of a text. -/
def encode (text : String) : String :=
  String.ofList ((utf8Bytes text).flatMap encodeByte)

end LispLua.Percent
