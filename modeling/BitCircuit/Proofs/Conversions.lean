/-
# Reading back what was spelled

A word is spelled by its low bits, unsigned or in two's complement, and read back from such a list;
bytes are unpacked to bits and packed again. Which bit of a word is which is said once for each
conversion (`Word.getLsbD_lowBits`, `Word.getLsbD_signExtendFrom` and so on), and the round trips
are read off from that. The unsigned reading gives back the low bits, and the reading in two's
complement the residue around zero (`Word.toInt_signExtendFrom`). A spelling is refused only if no
list can be that long, and unpacking only if the list of bits has no room (`conversions_are_inverse`).

Extending the sign by shifts and reading the low bits in two's complement are one at every width but
zero. There the list of bits is empty and reads as zero, but the shifts, for want of a sign bit, leave
the word as it is (`sign_extensions_agree_iff`).

Key definitions: `signedRange`.
Key theorems: `Word.ofUnsignedBits_unsignedBits`, `Word.ofSignedBits_signedBits`,
`Word.toInt_signExtendFrom`, `conversions_are_inverse`, `sign_extensions_agree_iff`.
-/
import Mathlib.Data.Int.ModEq
import Mathlib.Data.List.GetD
import Mathlib.Data.Set.Operations
import BitCircuit.Word
import BitCircuit.Proofs.Bytes

namespace BitCircuit

/-! ### Numbers in two's complement -/

/-- The numbers that `m` bits spell in two's complement, where there is a sign bit. -/
def signedRange (m : Nat) : Set Int :=
  {z | -2 ^ (m - 1) ≤ z ∧ z < 2 ^ (m - 1)}

instance (m : Nat) (z : Int) : Decidable (z ∈ signedRange m) :=
  inferInstanceAs (Decidable (_ ≤ _ ∧ _ < _))

/-- The residue around zero is the one that `m` bits spell. -/
theorem eq_bmod_two_pow_iff {m : Nat} (hm : 0 < m) (a z : Int) :
    z = a.bmod (2 ^ m) ↔ z ≡ a [ZMOD 2 ^ m] ∧ z ∈ signedRange m := by
  obtain ⟨k, rfl⟩ : ∃ k, m = k + 1 := ⟨m - 1, by omega⟩
  have hdouble : (2 : Int) ^ (k + 1) = 2 * 2 ^ k := by rw [pow_succ, mul_comm]
  have hcast : ((2 ^ (k + 1) : Nat) : Int) = 2 ^ (k + 1) := Nat.cast_pow 2 (k + 1)
  rw [signedRange, Nat.add_sub_cancel, Set.mem_ofPred_eq]
  constructor
  · rintro rfl
    have hle := Int.le_bmod (x := a) (Nat.two_pow_pos (k + 1))
    have hlt := Int.bmod_lt (x := a) (Nat.two_pow_pos (k + 1))
    refine ⟨?_, by omega, by omega⟩
    rw [Int.ModEq, ← hcast, Int.bmod_emod]
  · rintro ⟨hmod, hle, hlt⟩
    rw [Int.ModEq, ← hcast] at hmod
    have hself : z.bmod (2 ^ (k + 1)) = z := Int.bmod_eq_of_le (by omega) (by omega)
    rw [← hself, ← Int.emod_bmod z, hmod, Int.emod_bmod]

namespace Word

variable {n i : Nat} (x : Word)

/-! ### Bit by bit -/

theorem length_unsignedBits (n : Nat) : (x.unsignedBits n).length = n := by
  simp [unsignedBits]

theorem length_signedBits (n : Nat) : (x.signedBits n).length = n := by
  simp [signedBits]

theorem getD_unsignedBits (n i : Nat) :
    (x.unsignedBits n).getD i false = (decide (i < n) && x.getLsbD i) := by
  by_cases hi : i < n <;> simp [unsignedBits, hi]

theorem getD_signedBits (n i : Nat) :
    (x.signedBits n).getD i false = (decide (i < n) && x.getLsbD (min i 127)) := by
  by_cases hi : i < n <;> simp [signedBits, hi]

theorem getLsbD_ofUnsignedBits (bs : List Bool) (hi : i < 128) :
    (ofUnsignedBits bs).getLsbD i = bs.getD i false := by
  rw [ofUnsignedBits, BitVec.getLsbD_setWidth, BitVec.getLsbD_ofBoolListLE, decide_eq_true hi,
    Bool.true_and]

/-- Keeping the low bits is taking the residue from zero up. -/
theorem toNat_lowBits (n : Nat) : (x.lowBits n).toNat = x.toNat % 2 ^ n := by
  unfold lowBits
  split
  · rename_i hn
    exact (Nat.mod_eq_of_lt (x.isLt.trans_le (Nat.pow_le_pow_right Nat.two_pos hn))).symm
  · rename_i hn
    have hlt : 2 ^ n < 2 ^ 128 := Nat.pow_lt_pow_right (by decide) (Nat.not_le.mp hn)
    have hpower : ((1 <<< n : Nat) : Word).toNat = 2 ^ n := by
      rw [Nat.one_shiftLeft, BitVec.natCast_eq_ofNat, BitVec.toNat_ofNat, Nat.mod_eq_of_lt hlt]
    have hone : (1 : Word) ≤ ((1 <<< n : Nat) : Word) := by
      rw [BitVec.le_def, hpower]
      exact Nat.one_le_two_pow
    rw [BitVec.toNat_and, BitVec.toNat_sub_of_le hone, hpower]
    exact Nat.and_two_pow_sub_one_eq_mod x.toNat n

theorem getLsbD_lowBits (n i : Nat) : (x.lowBits n).getLsbD i = (decide (i < n) && x.getLsbD i) := by
  rw [← BitVec.testBit_toNat, toNat_lowBits, Nat.testBit_mod_two_pow, BitVec.testBit_toNat]

/-- The shifts repeat the bit below the width. -/
theorem getLsbD_signExtendFrom (hn : 0 < n) (hi : i < 128) :
    (x.signExtendFrom n).getLsbD i = x.getLsbD (min i (n - 1)) := by
  unfold signExtendFrom
  split
  · rw [Nat.min_eq_left (by omega)]
  · rename_i hmid
    rw [BitVec.getLsbD_sshiftRight, BitVec.msb_eq_getLsbD_last, BitVec.getLsbD_shiftLeft,
      BitVec.getLsbD_shiftLeft]
    by_cases hlow : i < n
    · have hin : 128 - n + i < 128 := by omega
      rw [if_pos hin, Nat.add_sub_cancel_left, Nat.min_eq_left (by omega)]
      simp [hin, show ¬ 128 ≤ i by omega, show ¬ 128 - n + i < 128 - n by omega]
    · have hout : ¬ 128 - n + i < 128 := by omega
      have htop : 128 - 1 - (128 - n) = n - 1 := by omega
      rw [if_neg hout, htop, Nat.min_eq_right (by omega)]
      simp [show ¬ 128 ≤ i by omega, show ¬ 127 < 128 - n by omega]

/-! ### From words to bits and back -/

theorem ofUnsignedBits_unsignedBits (n : Nat) : ofUnsignedBits (x.unsignedBits n) = x.lowBits n := by
  refine BitVec.eq_of_getLsbD_eq fun i hi => ?_
  rw [getLsbD_ofUnsignedBits _ hi, getLsbD_lowBits, getD_unsignedBits]

theorem ofUnsignedBits_signedBits (n : Nat) : ofUnsignedBits (x.signedBits n) = x.lowBits n := by
  refine BitVec.eq_of_getLsbD_eq fun i hi => ?_
  rw [getLsbD_ofUnsignedBits _ hi, getLsbD_lowBits, getD_signedBits, Nat.min_eq_left (by omega)]

/-- The sign is among the low bits. -/
theorem signExtendFrom_lowBits (hn : 0 < n) :
    (x.lowBits n).signExtendFrom n = x.signExtendFrom n := by
  refine BitVec.eq_of_getLsbD_eq fun i hi => ?_
  rw [getLsbD_signExtendFrom _ hn hi, getLsbD_signExtendFrom _ hn hi, getLsbD_lowBits,
    decide_eq_true (by omega), Bool.true_and]

theorem ofSignedBits_signedBits (hn : 0 < n) : ofSignedBits (x.signedBits n) = x.signExtendFrom n := by
  rw [ofSignedBits, length_signedBits, ofUnsignedBits_signedBits, signExtendFrom_lowBits x hn]

theorem lowBits_zero : x.lowBits 0 = 0 := by
  apply BitVec.eq_of_toNat_eq
  rw [toNat_lowBits, Nat.pow_zero, Nat.mod_one]
  rfl

/-- Without a sign bit there is nothing to extend. -/
theorem signExtendFrom_zero : x.signExtendFrom 0 = x :=
  if_pos (.inl rfl)

/-- Past the width of a word there is nothing to extend either. -/
theorem signExtendFrom_min (n : Nat) : x.signExtendFrom (min n 128) = x.signExtendFrom n := by
  by_cases hn : n < 128
  · rw [Nat.min_eq_left (Nat.le_of_lt hn)]
  · rw [Nat.min_eq_right (by omega), signExtendFrom, signExtendFrom, if_pos (by omega),
      if_pos (by omega)]

theorem lowBits_min (n : Nat) : (x.lowBits n).lowBits (min n 128) = x.lowBits n := by
  refine BitVec.eq_of_getLsbD_eq fun i hi => ?_
  rw [getLsbD_lowBits, getLsbD_lowBits]
  by_cases hin : i < n <;> simp [hin, hi]

/-- Reading the low bits of a word in two's complement. -/
theorem ofSignedBits_lowBits (n : Nat) :
    ofSignedBits ((x.lowBits n).unsignedBits (min n 128)) = (x.lowBits n).signExtendFrom n := by
  rw [ofSignedBits, length_unsignedBits, ofUnsignedBits_unsignedBits, lowBits_min, signExtendFrom_min]

/-- **Extending the sign gives the residue around zero.** -/
theorem toInt_signExtendFrom (hn : 0 < n) :
    (x.signExtendFrom n).toInt = x.toInt.bmod (2 ^ min n 128) := by
  -- shifting up and down is cutting to the width and extending again
  have hext : x.signExtendFrom n = (x.setWidth (min n 128)).signExtend 128 := by
    refine BitVec.eq_of_getLsbD_eq fun i hi => ?_
    rw [getLsbD_signExtendFrom x hn hi, BitVec.getLsbD_signExtend, BitVec.getLsbD_setWidth,
      BitVec.msb_setWidth, decide_eq_true hi, Bool.true_and]
    by_cases hin : i < min n 128
    · rw [if_pos hin, Nat.min_eq_left (by omega), decide_eq_true hin, Bool.true_and]
    · have hlast : min i (n - 1) = min n 128 - 1 := by omega
      have hpos : 0 < min n 128 := by omega
      rw [if_neg hin, hlast, decide_eq_true hpos, Bool.true_and]
  rw [hext, BitVec.toInt_signExtend_of_le (Nat.min_le_right n 128), BitVec.toInt_setWidth,
    x.toInt_eq_toNat_bmod]
  exact (Int.bmod_bmod_of_dvd (Nat.pow_dvd_pow 2 (Nat.min_le_right n 128))).symm

/-! ### From bits to words and back -/

theorem unsignedBits_ofUnsignedBits {bs : List Bool} (h : bs.length ≤ 128) :
    (ofUnsignedBits bs).unsignedBits bs.length = bs := by
  refine List.ext_getElem (length_unsignedBits _ _) fun i hi hi' => ?_
  rw [← List.getD_eq_getElem _ false hi, ← List.getD_eq_getElem _ false hi', getD_unsignedBits,
    getLsbD_ofUnsignedBits bs (by omega), decide_eq_true hi', Bool.true_and]

theorem signedBits_ofSignedBits {bs : List Bool} (h : bs.length ≤ 128) :
    (ofSignedBits bs).signedBits bs.length = bs := by
  refine List.ext_getElem (length_signedBits _ _) fun i hi hi' => ?_
  have hbelow : min (min i 127) (bs.length - 1) = i := by omega
  rw [← List.getD_eq_getElem _ false hi, ← List.getD_eq_getElem _ false hi', getD_signedBits,
    ofSignedBits, getLsbD_signExtendFrom _ (by omega) (by omega), hbelow,
    getLsbD_ofUnsignedBits bs (by omega), decide_eq_true hi', Bool.true_and]

/-! ### Within the limit of a list -/

theorem writeUnsigned_eq (n : Nat) : x.writeUnsigned n =
    if n < byteLimit then .ok (x.unsignedBits n) else .error (.tooLarge n) := by
  unfold writeUnsigned requireBelow
  split <;> rfl

theorem writeSigned_eq (n : Nat) : x.writeSigned n =
    if n < byteLimit then .ok (x.signedBits n) else .error (.tooLarge n) := by
  unfold writeSigned requireBelow
  split <;> rfl

/-- **A number that is spelled in two's complement is read as its residue around zero.** -/
theorem eq_toInt_ofSignedBits_iff (hn : 0 < n) (z : Int) :
    z = (ofSignedBits (x.signedBits n)).toInt ↔
      z ≡ x.toInt [ZMOD 2 ^ min n 128] ∧ z ∈ signedRange (min n 128) := by
  rw [ofSignedBits_signedBits x hn, toInt_signExtendFrom x hn, eq_bmod_two_pow_iff (by omega)]

end Word

/-! ### The conversions -/

/-- **Conversions are inverse to each other at every width that a list can have.** A word is read back
from its unsigned spelling up to the bits that are cut off, and from the signed one as the only number
of its residue that the width can spell, so unchanged if it fits. Lists of up to 128 bits are spelled
as they were read. Bytes are read back from their bits, and bits from their bytes with zeros up to a
whole byte, as long as there is room for the bits. A width that no list can have is refused, and so are
bytes whose bits there is no room for. -/
theorem conversions_are_inverse :
    (∀ (x : Word) (n : Nat), n < byteLimit →
      ∃ bits, x.writeUnsigned n = .ok bits ∧ Word.ofUnsignedBits bits = x.lowBits n) ∧
    (∀ (x : Word) (n : Nat), 0 < n → n < byteLimit →
      ∃ bits, x.writeSigned n = .ok bits ∧
        (∀ z : Int, z = (Word.ofSignedBits bits).toInt ↔
          z ≡ x.toInt [ZMOD 2 ^ min n 128] ∧ z ∈ signedRange (min n 128)) ∧
        (x.toInt ∈ signedRange (min n 128) → Word.ofSignedBits bits = x)) ∧
    (∀ bs : List Bool, bs.length ≤ 128 →
      (Word.ofUnsignedBits bs).writeUnsigned bs.length = .ok bs ∧
      (Word.ofSignedBits bs).writeSigned bs.length = .ok bs) ∧
    (∀ bytes : List UInt8, 8 * bytes.length ≤ byteRoom →
      ∃ bits, Bytes.writeBits bytes = .ok bits ∧ Bytes.ofBits bits = bytes) ∧
    (∀ bs : List Bool, bs.length ≤ byteRoom → ∃ k < 8, 8 ∣ bs.length + k ∧
      Bytes.writeBits (Bytes.ofBits bs) = .ok (bs ++ List.replicate k false)) ∧
    (∀ (x : Word) (n : Nat), byteLimit ≤ n →
      x.writeUnsigned n = .error (.tooLarge n) ∧ x.writeSigned n = .error (.tooLarge n)) ∧
    ∀ bytes : List UInt8, byteRoom < 8 * bytes.length →
      Bytes.writeBits bytes = .error (.tooLarge (8 * bytes.length)) := by
  refine ⟨fun x n hn => ?_, fun x n hpos hn => ?_, fun bs hbs => ?_, fun bytes hroom => ?_,
    fun bs hbs => Bytes.writeBits_ofBits hbs, fun x n hn => ?_, fun bytes hroom => ?_⟩
  · exact ⟨_, by rw [Word.writeUnsigned_eq, if_pos hn], x.ofUnsignedBits_unsignedBits n⟩
  · have hread := x.eq_toInt_ofSignedBits_iff hpos
    refine ⟨_, by rw [Word.writeSigned_eq, if_pos hn], hread, fun hfits => ?_⟩
    -- a number that fits is the residue of itself
    exact BitVec.toInt_inj.mp ((hread x.toInt).mpr ⟨Int.ModEq.refl _, hfits⟩).symm
  · have hlimit : bs.length < byteLimit := Nat.lt_of_le_of_lt hbs (by decide)
    rw [Word.writeUnsigned_eq, if_pos hlimit, Word.unsignedBits_ofUnsignedBits hbs,
      Word.writeSigned_eq, if_pos hlimit, Word.signedBits_ofSignedBits hbs]
    exact ⟨rfl, rfl⟩
  · exact ⟨_, by rw [Bytes.writeBits_eq, if_pos hroom], Bytes.ofBits_toBits bytes⟩
  · rw [Word.writeUnsigned_eq, Word.writeSigned_eq, if_neg (Nat.not_lt.mpr hn),
      if_neg (Nat.not_lt.mpr hn)]
    exact ⟨rfl, rfl⟩
  · rw [Bytes.writeBits_eq, if_neg (Nat.not_le.mpr hroom)]

/-- Minus three is cut to one by two bits and kept by three and by 200, and five is kept by the widest
list that there can be. A byte is read back, and nine bits are filled up to sixteen. -/
theorem conversions_are_inverse_cut :
    (∃ bits, Word.writeSigned (-3) 2 = .ok bits ∧ 1 = (Word.ofSignedBits bits).toInt) ∧
    (∃ bits, Word.writeSigned (-3) 3 = .ok bits ∧ Word.ofSignedBits bits = -3) ∧
    (∃ bits, Word.writeSigned (-3) 200 = .ok bits ∧ Word.ofSignedBits bits = -3) ∧
    (∃ bits, Word.writeUnsigned 5 9223372036854775807 = .ok bits ∧ Word.ofUnsignedBits bits = 5) ∧
    Word.writeSigned (Word.ofSignedBits [true, false, true]) 3 = .ok [true, false, true] ∧
    (∃ bits, Bytes.writeBits [200] = .ok bits ∧ Bytes.ofBits bits = [200]) ∧
    ∃ k < 8, 8 ∣ 9 + k ∧ Bytes.writeBits (Bytes.ofBits (List.replicate 9 true)) =
      .ok (List.replicate 9 true ++ List.replicate k false) := by
  obtain ⟨hunsigned, hsigned, hbits, hbytes, hpacked, -⟩ := conversions_are_inverse
  obtain ⟨two, htwo, hread, -⟩ := hsigned (-3) 2 (by decide) (by decide)
  obtain ⟨three, hthree, -, hkept⟩ := hsigned (-3) 3 (by decide) (by decide)
  obtain ⟨wide, hwide, -, hkept'⟩ := hsigned (-3) 200 (by decide) (by decide)
  obtain ⟨widest, hwidest, hfive⟩ := hunsigned 5 9223372036854775807 (by decide)
  exact ⟨⟨two, htwo, (hread 1).mpr ⟨by decide, by decide⟩⟩, ⟨three, hthree, hkept (by decide)⟩,
    ⟨wide, hwide, hkept' (by decide)⟩, ⟨widest, hwidest, hfive⟩,
    (hbits [true, false, true] (by decide)).2, hbytes [200] (by decide),
    hpacked (List.replicate 9 true) (by decide)⟩

/-- A width of 2^63 is a size, but a word cannot be spelled with that many bits. -/
theorem longest_spelling_refused :
    9223372036854775808 < sizeLimit ∧
      ¬ ∃ bits, Word.writeUnsigned 1 9223372036854775808 = .ok bits ∧
        Word.ofUnsignedBits bits = Word.lowBits 9223372036854775808 1 := by
  refine ⟨by decide, ?_⟩
  rintro ⟨bits, hbits, -⟩
  rw [Word.writeUnsigned_eq, if_neg (by decide)] at hbits
  cases hbits

/-- **The two ways to extend a sign agree exactly at the widths that have a sign bit**, and there the
result depends on nothing but the low bits. Without a sign bit they agree on zero only: the bits spell
zero, and the shifts keep the word. -/
theorem sign_extensions_agree_iff (x : Word) (n : Nat) :
    (∃ bits, (x.lowBits n).writeUnsigned (min n 128) = .ok bits ∧
      (x.signExtendFrom n = Word.ofSignedBits bits ↔ n ≠ 0 ∨ x = 0)) ∧
    ((x.lowBits n).signExtendFrom n = x.signExtendFrom n ↔ n ≠ 0 ∨ x = 0) ∧
    ((∀ y : Word, y.lowBits n = x.lowBits n → y.signExtendFrom n = x.signExtendFrom n) ↔ n ≠ 0) := by
  have hlow : (x.lowBits n).signExtendFrom n = x.signExtendFrom n ↔ n ≠ 0 ∨ x = 0 := by
    rcases Nat.eq_zero_or_pos n with rfl | hn
    · rw [x.lowBits_zero, Word.signExtendFrom_zero, Word.signExtendFrom_zero]
      exact ⟨fun h => .inr h.symm, fun h => (h.resolve_left (not_not.mpr rfl)).symm⟩
    · simp [x.signExtendFrom_lowBits hn, Nat.ne_of_gt hn]
  have hlimit : min n 128 < byteLimit := Nat.lt_of_le_of_lt (Nat.min_le_right n 128) (by decide)
  refine ⟨⟨_, by rw [Word.writeUnsigned_eq, if_pos hlimit], ?_⟩, hlow, fun hsame hn => ?_,
    fun hn y hy => ?_⟩
  · rw [x.ofSignedBits_lowBits, eq_comm, hlow]
  · -- the next word has the same low bits, for there are none
    subst hn
    have hnext := hsame (x + 1) (by rw [Word.lowBits_zero, Word.lowBits_zero])
    rw [Word.signExtendFrom_zero, Word.signExtendFrom_zero] at hnext
    bv_omega
  · have hpos : 0 < n := Nat.pos_of_ne_zero hn
    rw [← y.signExtendFrom_lowBits hpos, hy, x.signExtendFrom_lowBits hpos]

/-- Of the word one no bit is kept, and no bits spell zero, but its sign extension is one. -/
theorem no_bits_extended_to_one :
    Word.writeUnsigned (Word.lowBits 0 1) (min 0 128) = .ok [] ∧ Word.ofSignedBits [] = 0 ∧
      Word.signExtendFrom 0 (Word.lowBits 0 1) = 0 ∧ Word.signExtendFrom 0 1 = 1 ∧
      (1 : Word) ≠ 0 := by
  refine ⟨?_, by decide⟩
  rw [Word.writeUnsigned_eq, if_pos (by decide)]
  rfl

end BitCircuit
