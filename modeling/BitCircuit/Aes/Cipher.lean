/-
# AES on bundles

The state has 128 wires: byte `j` lies on wires `8 * j` to `8 * j + 7`, low bit first, and
byte `r + 4 * c` is row `r` of column `c`. A round substitutes every byte, turns the rows,
mixes the columns and adds a round key; the last round does not mix. The expanded key holds
one round key more than there are rounds.

Key definitions: `Aes.byteAt`, `Aes.shiftRows`, `Build.mixColumns`, `Build.encrypt`.
-/
import BitCircuit.Aes.Substitution

namespace BitCircuit
namespace Aes

/-- Byte `j` of a state. -/
def byteAt (state : Bundle) (j : Nat) : Except Error Bundle :=
  state.slice (8 * j) (8 * j + 8)

/-- The number of the byte that moves to byte `j` when row `r` is turned left by `r`. -/
def shiftedFrom (j : Nat) : Nat :=
  j % 4 + 4 * ((j / 4 + j % 4) % 4)

/-- Turns row `r` of the state left by `r` bytes. Only wires move. -/
def shiftRows (state : Bundle) : Except Error Bundle := do
  requireWidth state 128
  return (← (List.range 16).mapM fun j => byteAt state (shiftedFrom j)).flatten

/-- Round key `r` of an expanded key. -/
def roundKey (expandedKey : Bundle) (r : Nat) : Except Error Bundle :=
  expandedKey.slice (128 * r) (128 * (r + 1))

/-- An expanded key holds at least two round keys and nothing besides. -/
def requireRoundKeys (expandedKey : Bundle) : Except Error Unit :=
  if expandedKey.length < 256 ∨ expandedKey.length % 128 ≠ 0 then
    .error (.roundKeys expandedKey.length)
  else
    .ok ()

end Aes

namespace Build

open Aes

/-- Wires that carry the sum of two bundles, position by position. -/
def xorBundles (a b : Bundle) : Build Bundle := do
  (← inStep a b).mapM fun (x, y) => gate .xor x y

/-- Wires that carry twice a byte in the field of 256 elements. -/
def doubleByte : Bundle → Build Bundle
  | [b0, b1, b2, b3, b4, b5, b6, b7] => do
    let d1 ← gate .xor b0 b7
    let d3 ← gate .xor b2 b7
    let d4 ← gate .xor b3 b7
    return [b7, d1, b1, d3, d4, b4, b5, b6]
  | _ => throw .outOfRange

/-- Drives a byte of a mixed column: the byte `a`, the sum `parity` of the column, and twice
the sum `pair` of the byte and the one below it. -/
def mixByte (a pair parity out : Bundle) : Build Unit := do
  let doubled ← doubleByte pair
  (← inStep (← inStep (← inStep a parity) doubled) out).forM fun (((a, p), d), o) => do
    gateTo .xor (← gate .xor a p) d o

/-- Mixes column `c`. -/
def mixColumn (state out : Bundle) (c : Nat) : Build Unit := do
  let a0 ← byteAt state (4 * c)
  let a1 ← byteAt state (4 * c + 1)
  let a2 ← byteAt state (4 * c + 2)
  let a3 ← byteAt state (4 * c + 3)
  let u0 ← xorBundles a0 a1
  let u1 ← xorBundles a1 a2
  let u2 ← xorBundles a2 a3
  let u3 ← xorBundles a3 a0
  let parity ← xorBundles u0 u2
  mixByte a0 u0 parity (← byteAt out (4 * c))
  mixByte a1 u1 parity (← byteAt out (4 * c + 1))
  mixByte a2 u2 parity (← byteAt out (4 * c + 2))
  mixByte a3 u3 parity (← byteAt out (4 * c + 3))

/-- Drives `out` with the columns of `state` mixed, using linear gates only. -/
def mixColumns (state out : Bundle) : Build Unit := do
  requireWidth state 128
  requireWidth out 128
  requireDistinct [out] [state]
  (List.range 4).forM (mixColumn state out)

/-- Fresh wires that carry the state after substitution and turning of rows. -/
def substituteAndShift (state : Bundle) : Build Bundle := do
  let substituted ← newBundle 128
  (List.range 16).forM fun j => do
    substituteByte (← byteAt state j) (← byteAt substituted j)
  shiftRows substituted

/-- A round before the last one. -/
def innerRound (expandedKey state : Bundle) (r : Nat) : Build Bundle := do
  let shifted ← substituteAndShift state
  let mixed ← newBundle 128
  mixColumns shifted mixed
  xorBundles mixed (← roundKey expandedKey r)

/-- Drives `ciphertext` with the encryption of `message` under an expanded key. Its width
gives the number of rounds; ten make AES-128. -/
def encrypt (message expandedKey ciphertext : Bundle) : Build Unit := do
  requireWidth message 128
  requireWidth ciphertext 128
  requireRoundKeys expandedKey
  requireDistinct [ciphertext] [message, expandedKey]
  let rounds := expandedKey.length / 128 - 1
  let start ← xorBundles message (← roundKey expandedKey 0)
  let state ← (List.range' 1 (rounds - 1)).foldlM (innerRound expandedKey) start
  let shifted ← substituteAndShift state
  let key ← roundKey expandedKey rounds
  (← inStep (← inStep shifted key) ciphertext).forM fun ((s, k), o) => gateTo .xor s k o

end Build
end BitCircuit
