/-
# Limits of sizes

Sizes are counted in 64 bits, and a list may fill half of the memory that 64 bits can
address. A list that is made in one piece therefore has fewer than 2^63 entries of one
byte, such as bits, and fewer than 2^60 wires, which take eight bytes each. A size beyond
these limits is refused before anything is made of it.

A list that grows entry by entry doubles its room whenever it is full. It never gets past
2^62 bytes, for the next doubling would ask for more than half of the memory. So a list of
bits that grows has room for 2^62 of them, and a list of gates, 32 bytes each, for 2^57.

Key definitions: `sizeLimit`, `byteLimit`, `wireLimit`, `byteRoom`, `gateRoom`,
`requireBelow`, `difference`.
-/
import BitCircuit.Error

namespace BitCircuit

/-- Every size is below 2^64. -/
def sizeLimit : Nat := 18446744073709551616

/-- A list of bits or bytes that is made in one piece has fewer than 2^63 entries. -/
def byteLimit : Nat := 9223372036854775808

/-- A list of wires that is made in one piece has fewer than 2^60 entries. -/
def wireLimit : Nat := 1152921504606846976

/-- A growing list of entries of one byte has room for 2^62 of them. -/
def byteRoom : Nat := 4611686018427387904

/-- A growing list of gates has room for 2^57 of them. -/
def gateRoom : Nat := 144115188075855872

/-- A list of `n` entries is within its limit. -/
def requireBelow (limit n : Nat) : Except Error Unit :=
  if n < limit then .ok () else .error (.tooLarge n)

/-- The difference of two sizes, which must not be negative. -/
def difference (n k : Nat) : Except Error Nat :=
  if k ≤ n then .ok (n - k) else .error .outOfRange

end BitCircuit
