import LispLua.Text.Bytes

/-!
# Digests

A 32 bit digest of a byte string, mixed four bytes at a time by multiplication and rotation. Equal
texts have equal digests, so a name derived from one does not depend on where it is used.
-/

namespace LispLua

namespace Digest

/-- Rotate a word to the left. -/
def rotate (x k : UInt32) : UInt32 :=
  (x <<< k) ||| (x >>> (32 - k))

/-- Spread the bits of one block. -/
def scramble (k : UInt32) : UInt32 :=
  rotate (k * 0xcc9e2d51) 15 * 0x1b873593

/-- Take one full block into the digest. -/
def mixBlock (h k : UInt32) : UInt32 :=
  rotate (h ^^^ scramble k) 13 * 5 + 0xe6546b64

/-- A word from bytes, the lowest byte first. -/
def word : List UInt8 → UInt32
  | [] => 0
  | b :: bs => b.toUInt32 ||| (word bs <<< 8)

/-- Take all blocks into the digest; the last one may be short. -/
def mix (h : UInt32) : List UInt8 → UInt32
  | a :: b :: c :: d :: rest => mix (mixBlock h (word [a, b, c, d])) rest
  | tail => h ^^^ scramble (word tail)

/-- Make every bit of the result depend on every bit of the digest. -/
def finish (h : UInt32) : UInt32 :=
  let h := (h ^^^ (h >>> 16)) * 0x85ebca6b
  let h := (h ^^^ (h >>> 13)) * 0xc2b2ae35
  h ^^^ (h >>> 16)

end Digest

/-- The digest of a list of bytes under a seed. -/
def digest (seed : UInt32) (bytes : List UInt8) : UInt32 :=
  Digest.finish (Digest.mix seed bytes ^^^ UInt32.ofNat bytes.length)

end LispLua
