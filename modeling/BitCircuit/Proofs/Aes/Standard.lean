/-
# The cipher of the standard

AES as its standard defines it, on a state of four rows and four columns of bytes: the
substitution through the field (`sBox`), turned rows, columns multiplied by a matrix over the
field, and round keys taken from an expanded key. The key expansion makes a word of four bytes
after the other.

In a list of bits, byte `j` lies on bits `8 * j` to `8 * j + 7`, low bit first, and byte
`r + 4 * c` is row `r` of column `c`.

Key definitions: `State`, `State.ofBits`, `State.toBits`, `cipher`, `keyWord`, `aes128`.
Key theorems: `State.toBits_ofBits`, `State.block_toBits`, `State.byte_mixColumns`.
-/
import BitCircuit.Aes.Cipher
import BitCircuit.Proofs.Aes.Field

namespace BitCircuit
namespace Aes

open Bytes

/-- A byte for each row and column. -/
abbrev State := Fin 4 → Fin 4 → UInt8

namespace State

/-- The state that a list of bytes spells, column by column. -/
def ofBytes (bytes : List UInt8) : State := fun r c =>
  bytes.getD (r + 4 * c) 0

/-- The state that a list of bits spells. -/
def ofBits (bits : List Bool) : State := fun r c =>
  byteOfBits (block bits (r + 4 * c))

/-- Byte `j`, counted column by column. -/
def byte (s : State) (j : Nat) : UInt8 :=
  s (Fin.ofNat 4 j) (Fin.ofNat 4 (j / 4))

/-- The bytes, column by column. -/
def bytes (s : State) : List UInt8 :=
  (List.range 16).map s.byte

/-- The bits of the bytes. -/
def toBits (s : State) : List Bool :=
  Bytes.toBits s.bytes

/-! ### The cipher -/

/-- Substitutes every byte. -/
def subBytes (s : State) : State := fun r c =>
  sBox (s r c)

/-- Turns row `r` left by `r` bytes. -/
def shiftRows (s : State) : State := fun r c =>
  s r (c + r)

/-- Multiplies every column by the matrix whose first row is `2, 3, 1, 1` and whose rows are
turned right by one from each to the next. -/
def mixColumns (s : State) : State := fun r c =>
  Byte.mul 2 (s r c) ^^^ Byte.mul 3 (s (r + 1) c) ^^^ Byte.mul 1 (s (r + 2) c) ^^^
    Byte.mul 1 (s (r + 3) c)

/-- Adds a round key. -/
def addRoundKey (s key : State) : State := fun r c =>
  s r c ^^^ key r c

/-- A round before the last one. -/
def round (s key : State) : State :=
  s.subBytes.shiftRows.mixColumns.addRoundKey key

/-- The last round, which does not mix columns. -/
def lastRound (s key : State) : State :=
  s.subBytes.shiftRows.addRoundKey key

end State

/-- The cipher of so many rounds, with `key r` the key of round `r`. -/
def cipher (rounds : Nat) (key : Nat → State) (s : State) : State :=
  let start := s.addRoundKey (key 0)
  ((List.range' 1 (rounds - 1)).foldl (fun s r => s.round (key r)) start).lastRound (key rounds)

/-- Round key `r` of an expanded key. -/
def keyOfRound (expandedKey : List Bool) (r : Nat) : State :=
  State.ofBits ((expandedKey.drop (128 * r)).take 128)

/-! ### The key expansion -/

/-- The constant of round `r` of the key expansion: the power `r - 1` of `x`. -/
def roundConstant (r : Nat) : UInt8 :=
  Byte.double^[r - 1] 1

/-- What is added to the first word of round key `r`: the word before it, turned by one byte and
substituted, with the constant of the round on its first byte. -/
def turnedWord (r : Nat) (w : Fin 4 → UInt8) : Fin 4 → UInt8 := fun row =>
  sBox (w (row + 1)) ^^^ if row = 0 then roundConstant r else 0

/-- Word `i` of the expansion of a key of four words. Each is the word four places back plus the
word before it, which is turned first if `i` is a multiple of four. -/
def keyWord (key : State) : Nat → Fin 4 → UInt8
  | 0 => fun row => key row 0
  | 1 => fun row => key row 1
  | 2 => fun row => key row 2
  | 3 => fun row => key row 3
  | i + 4 => fun row =>
    keyWord key i row ^^^ if (i + 4) % 4 = 0 then turnedWord ((i + 4) / 4) (keyWord key (i + 3)) row
      else keyWord key (i + 3) row

/-- Round key `r`: four words, one for each column. -/
def roundKeyState (key : State) (r : Nat) : State := fun row c =>
  keyWord key (4 * r + c) row

/-- AES with a key of 128 bits. -/
def aes128 (key block : State) : State :=
  cipher 10 (roundKeyState key) block

/-- Only the keys of the rounds that are made count. -/
theorem cipher_congr {rounds : Nat} {key key' : Nat → State} {s : State}
    (h : ∀ r ≤ rounds, key r = key' r) : cipher rounds key s = cipher rounds key' s := by
  have hrounds : ∀ s : State, (List.range' 1 (rounds - 1)).foldl (fun s r => s.round (key r)) s =
      (List.range' 1 (rounds - 1)).foldl (fun s r => s.round (key' r)) s := fun s => by
    refine List.foldl_ext _ _ s fun s r hr => ?_
    have hr := List.mem_range'_1.mp hr
    rw [h r (by omega)]
  simp only [cipher, hrounds, h 0 (Nat.zero_le rounds), h rounds (Nat.le_refl rounds)]

theorem shiftedFrom_lt : ∀ j < 16, shiftedFrom j < 16 := by
  decide

/-! ### States as bytes and bits -/

namespace State

variable (s : State)

@[simp] theorem length_bytes : s.bytes.length = 16 := by
  simp [bytes]

@[simp] theorem length_toBits : s.toBits.length = 128 := by
  simp [toBits]

theorem toBits_eq : s.toBits = (List.range 16).flatMap fun j => byteBits (s.byte j) := by
  rw [toBits, Bytes.toBits, bytes, List.flatMap_map]

/-- Byte `j` lies on the bits of block `j`. -/
theorem block_toBits {j : Nat} (hj : j < 16) : block s.toBits j = byteBits (s.byte j) := by
  rw [toBits, Bytes.block_toBits (by simpa using hj)]
  simp [bytes]

/-- The row and the column of a byte give back its number. -/
theorem index_eq {j : Nat} (hj : j < 16) : (Fin.ofNat 4 j).val + 4 * (Fin.ofNat 4 (j / 4)).val = j := by
  simp only [Fin.ofNat]
  omega

/-- Every 128 bits are those of a state. -/
theorem toBits_ofBits {bits : List Bool} (h : bits.length = 128) : (ofBits bits).toBits = bits := by
  rw [toBits_eq]
  refine Eq.trans (List.flatMap_congr fun j hj => ?_) (flatMap_block (n := 16) h)
  have hj : j < 16 := List.mem_range.mp hj
  rw [byte, ofBits, index_eq hj, byteBits_byteOfBits (length_block (by omega))]

theorem ofBits_toBits {bytes : List UInt8} (h : bytes.length = 16) :
    ofBits (Bytes.toBits bytes) = ofBytes bytes := by
  funext r c
  have hj : r.val + 4 * c.val < bytes.length := by omega
  rw [ofBits, Bytes.block_toBits hj, byteOfBits_byteBits, ofBytes, List.getD_eq_getElem?_getD,
    List.getElem?_eq_getElem hj, Option.getD_some]

/-! ### Bytes of the results -/

theorem shiftedFrom_index : ∀ j < 16, Fin.ofNat 4 (shiftedFrom j) = Fin.ofNat 4 j ∧
    Fin.ofNat 4 (shiftedFrom j / 4) = Fin.ofNat 4 (j / 4) + Fin.ofNat 4 j := by
  decide

theorem byte_shiftRows {j : Nat} (hj : j < 16) : s.shiftRows.byte j = s.byte (shiftedFrom j) := by
  obtain ⟨hrow, hcolumn⟩ := shiftedFrom_index j hj
  rw [byte, shiftRows, byte, hrow, hcolumn]

theorem toBits_addRoundKey (key : State) :
    (s.addRoundKey key).toBits = List.zipWith xor s.toBits key.toBits := by
  rw [toBits, toBits, toBits, ← toBits_zipWith_xor, bytes, bytes, bytes, List.zipWith_map,
    List.zipWith_self]
  rfl

/-- A byte of a mixed column: the byte, the sum of its column and twice the sum of the byte and
the one below it. -/
theorem mixed_eq (a b c d : UInt8) :
    Byte.mul 2 a ^^^ Byte.mul 3 b ^^^ Byte.mul 1 c ^^^ Byte.mul 1 d =
      a ^^^ (a ^^^ b ^^^ (c ^^^ d)) ^^^ Byte.double (a ^^^ b) := by
  have hsum : a ^^^ (a ^^^ b ^^^ (c ^^^ d)) = b ^^^ (c ^^^ d) := by
    rw [UInt8.xor_assoc a b, ← UInt8.xor_assoc a a, UInt8.xor_self, UInt8.zero_xor]
  rw [Byte.one_mul, Byte.one_mul, Byte.two_mul, Byte.three_mul, Byte.double_xor, hsum]
  ac_rfl

/-- The sum of column `c`. -/
def columnSum (c : Nat) : UInt8 :=
  s.byte (4 * c) ^^^ s.byte (4 * c + 1) ^^^ (s.byte (4 * c + 2) ^^^ s.byte (4 * c + 3))

/-- The byte in row `r` of column `c`. -/
theorem byte_column (c : Nat) {r : Nat} (hr : r < 4) :
    s.byte (4 * c + r) = s (Fin.ofNat 4 r) (Fin.ofNat 4 c) := by
  have hrow : Fin.ofNat 4 (4 * c + r) = Fin.ofNat 4 r := by
    simp [Fin.ofNat]
  have hcolumn : (4 * c + r) / 4 = c := by omega
  rw [byte, hrow, hcolumn]

/-- The bytes of a mixed column. -/
theorem byte_mixColumns (c : Nat) :
    s.mixColumns.byte (4 * c) =
      s.byte (4 * c) ^^^ s.columnSum c ^^^ Byte.double (s.byte (4 * c) ^^^ s.byte (4 * c + 1)) ∧
    s.mixColumns.byte (4 * c + 1) =
      s.byte (4 * c + 1) ^^^ s.columnSum c ^^^ Byte.double (s.byte (4 * c + 1) ^^^ s.byte (4 * c + 2)) ∧
    s.mixColumns.byte (4 * c + 2) =
      s.byte (4 * c + 2) ^^^ s.columnSum c ^^^ Byte.double (s.byte (4 * c + 2) ^^^ s.byte (4 * c + 3)) ∧
    s.mixColumns.byte (4 * c + 3) =
      s.byte (4 * c + 3) ^^^ s.columnSum c ^^^ Byte.double (s.byte (4 * c + 3) ^^^ s.byte (4 * c)) := by
  have hzero : ∀ t : State, t.byte (4 * c) = t 0 (Fin.ofNat 4 c) := fun t =>
    t.byte_column c (Nat.zero_lt_succ 3)
  have hone : ∀ t : State, t.byte (4 * c + 1) = t 1 (Fin.ofNat 4 c) := fun t =>
    t.byte_column c (by decide)
  have htwo : ∀ t : State, t.byte (4 * c + 2) = t 2 (Fin.ofNat 4 c) := fun t =>
    t.byte_column c (by decide)
  have hthree : ∀ t : State, t.byte (4 * c + 3) = t 3 (Fin.ofNat 4 c) := fun t =>
    t.byte_column c (by decide)
  unfold columnSum
  rw [hzero, hone, htwo, hthree, hzero, hone, htwo, hthree]
  generalize Fin.ofNat 4 c = k
  refine ⟨mixed_eq _ _ _ _, ?_, ?_, ?_⟩
  -- in the other rows the column is turned, which does not change its sum
  · have hsum : s 0 k ^^^ s 1 k ^^^ (s 2 k ^^^ s 3 k) = s 1 k ^^^ s 2 k ^^^ (s 3 k ^^^ s 0 k) := by ac_rfl
    rw [hsum, ← mixed_eq]
    rfl
  · have hsum : s 0 k ^^^ s 1 k ^^^ (s 2 k ^^^ s 3 k) = s 2 k ^^^ s 3 k ^^^ (s 0 k ^^^ s 1 k) := by ac_rfl
    rw [hsum, ← mixed_eq]
    rfl
  · have hsum : s 0 k ^^^ s 1 k ^^^ (s 2 k ^^^ s 3 k) = s 3 k ^^^ s 0 k ^^^ (s 1 k ^^^ s 2 k) := by ac_rfl
    rw [hsum, ← mixed_eq]
    rfl

end State

end Aes
end BitCircuit
