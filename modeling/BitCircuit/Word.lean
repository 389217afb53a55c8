/-
# Words and their bits

A `Word` has 128 bits. A list of bits is read low bit first. Two ways to spell a
word with a given number of bits meet here: past the word's own bits the unsigned
spelling has zeros and the signed one repeats the sign. Reading back is `ofUnsignedBits`
and `ofSignedBits`.

The spellings are functions of all widths; `writeUnsigned` and `writeSigned` give them out
within the limit of a list.

Key definitions: `Word.unsignedBits`, `Word.signedBits`, `Word.ofUnsignedBits`,
`Word.ofSignedBits`, `Word.signExtendFrom`, `Word.lowBits`.
-/
import BitCircuit.Size

namespace BitCircuit

/-- A 128-bit word, read as a natural number (`toNat`) or in two's complement (`toInt`). -/
abbrev Word := BitVec 128

namespace Word

/-- The low `n` bits of `x`; positions past the word are zero. -/
def unsignedBits (x : Word) (n : Nat) : List Bool :=
  (List.range n).map x.getLsbD

/-- The low `n` bits of `x` in two's complement; positions past the word repeat the sign. -/
def signedBits (x : Word) (n : Nat) : List Bool :=
  (List.range n).map fun i => x.getLsbD (min i 127)

/-- The unsigned spelling, if a list can be that long. -/
def writeUnsigned (x : Word) (n : Nat) : Except Error (List Bool) := do
  requireBelow byteLimit n
  return x.unsignedBits n

/-- The signed spelling, if a list can be that long. -/
def writeSigned (x : Word) (n : Nat) : Except Error (List Bool) := do
  requireBelow byteLimit n
  return x.signedBits n

/-- The word spelled by `bs`; bits past the word are dropped. -/
def ofUnsignedBits (bs : List Bool) : Word :=
  (BitVec.ofBoolListLE bs).setWidth 128

/-- Copies bit `n - 1` of `x` over all bits above it. A width of zero names no sign bit,
and a width of 128 or more leaves nothing above it: then `x` is returned as it is. -/
def signExtendFrom (n : Nat) (x : Word) : Word :=
  if n = 0 ∨ 128 ≤ n then x else (x <<< (128 - n)).sshiftRight (128 - n)

/-- The word that `bs` spells in two's complement, its last bit being the sign. -/
def ofSignedBits (bs : List Bool) : Word :=
  signExtendFrom bs.length (ofUnsignedBits bs)

/-- Keeps the low `n` bits of `x` and clears the others. -/
def lowBits (n : Nat) (x : Word) : Word :=
  if 128 ≤ n then x else x &&& ((1 <<< n) - 1)

end Word
end BitCircuit
