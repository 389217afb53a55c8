/-
# Bytes and their bits

Byte `j` of a list lies on bits `8 * j` to `8 * j + 7`, low bit first. Packing bits whose
number is no multiple of eight fills the last byte with zeros.

The bits of bytes are a function of all lists; `writeBits` gives them out within the room of a
list of bits, which grows while the bytes are unpacked.

Key definitions: `Bytes.toBits`, `Bytes.writeBits`, `Bytes.ofBits`.
-/
import BitCircuit.Size

namespace BitCircuit
namespace Bytes

/-- The eight bits of a byte. -/
def byteBits (b : UInt8) : List Bool :=
  (List.range 8).map b.toBitVec.getLsbD

/-- The byte spelled by the first eight of `bs`, with zeros for those that are missing. -/
def byteOfBits (bs : List Bool) : UInt8 :=
  UInt8.ofBitVec ((BitVec.ofBoolListLE bs).setWidth 8)

/-- The bits of all bytes, in order. -/
def toBits (bytes : List UInt8) : List Bool :=
  bytes.flatMap byteBits

/-- The bits of all bytes, if a list has room for them. -/
def writeBits (bytes : List UInt8) : Except Error (List Bool) := do
  requireBelow (byteRoom + 1) (8 * bytes.length)
  return toBits bytes

/-- The bytes that `bs` spells, eight bits each. -/
def ofBits (bs : List Bool) : List UInt8 :=
  match bs with
  | [] => []
  | b :: rest => byteOfBits ((b :: rest).take 8) :: ofBits (rest.drop 7)
termination_by bs.length
decreasing_by simp only [List.length_drop, List.length_cons]; omega

end Bytes
end BitCircuit
