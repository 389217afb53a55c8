/-
# Bytes in lists of bits

A list whose length is a multiple of eight is made of blocks of eight, one for each byte
(`flatMap_block`). The block of a byte among others is its eight bits (`Bytes.block_toBits`). Bytes
can be read back from their bits, and bits from the bytes that they spell, up to the zeros that
fill the last one (`Bytes.ofBits_toBits`, `Bytes.toBits_ofBits`), as far as a list has room for them
(`Bytes.writeBits_ofBits`).

Key definitions: `block`.
Key theorems: `flatMap_block`, `Bytes.byteBits_byteOfBits`, `Bytes.block_toBits`,
`Bytes.ofBits_toBits`, `Bytes.toBits_ofBits`, `Bytes.writeBits_ofBits`.
-/
import Mathlib.Tactic.Common
import BitCircuit.Bytes

namespace BitCircuit

variable {α β : Type}

/-! ### Blocks of eight -/

/-- The entries `8 * j` to `8 * j + 7`. -/
def block (l : List α) (j : Nat) : List α :=
  (l.take (8 * j + 8)).drop (8 * j)

theorem length_block {l : List α} {j : Nat} (h : 8 * j + 8 ≤ l.length) : (block l j).length = 8 := by
  rw [block, List.length_drop, List.length_take, Nat.min_eq_left h]
  omega

theorem mem_of_mem_block {l : List α} {j : Nat} {a : α} (h : a ∈ block l j) : a ∈ l :=
  List.mem_of_mem_take (List.mem_of_mem_drop h)

/-- A list made of pieces of one length, cut at one of them. -/
theorem take_drop_flatMap {f : α → List β} {m : Nat} (hf : ∀ a, (f a).length = m) :
    ∀ {l : List α} {j : Nat} (h : j < l.length), ((l.flatMap f).drop (m * j)).take m = f l[j]
  | a :: l, 0, _ => by
    rw [List.flatMap_cons, Nat.mul_zero, List.drop_zero, ← hf a, List.take_left]
    rfl
  | a :: l, j + 1, h => by
    have hpiece : m * (j + 1) = (f a).length + m * j := by rw [hf a, Nat.mul_succ, Nat.add_comm]
    rw [List.flatMap_cons, hpiece, List.drop_length_add_append,
      take_drop_flatMap hf (Nat.lt_of_succ_lt_succ h)]
    rfl

/-- The first blocks make up the first entries. -/
theorem flatMap_block_take (l : List α) (n : Nat) : (List.range n).flatMap (block l) = l.take (8 * n) := by
  induction n with
  | zero => rfl
  | succ n ih =>
    have htake : l.take (8 * n) = (l.take (8 * n + 8)).take (8 * n) := by
      rw [List.take_take, Nat.min_eq_left (by omega)]
    rw [List.range_succ, List.flatMap_append, ih, List.flatMap_singleton, htake, block,
      List.take_append_drop, Nat.mul_succ]

/-- A list is made of its blocks. -/
theorem flatMap_block {l : List α} {n : Nat} (h : l.length = 8 * n) :
    (List.range n).flatMap (block l) = l := by
  rw [flatMap_block_take, ← h, List.take_length]

/-- Different blocks of distinct entries have none in common. -/
theorem disjoint_block {l : List α} (hl : l.Nodup) {i j : Nat} (hij : i < j) {a : α}
    (ha : a ∈ block l i) : a ∉ block l j := by
  intro ha'
  have hi : a ∈ l.take (8 * j) := by
    have hle : 8 * i + 8 ≤ 8 * j := by omega
    exact (List.take_subset_take_left l hle) (List.mem_of_mem_drop ha)
  have hj : a ∈ l.drop (8 * j) := by
    rw [block, List.drop_take] at ha'
    exact List.mem_of_mem_take ha'
  rw [← List.take_append_drop (8 * j) l, List.nodup_append] at hl
  exact hl.2.2 a hi a hj rfl

/-! ### Bits of bytes -/

namespace Bytes

/-- All bytes, in order. -/
def allBytes : List UInt8 :=
  (List.range 256).map UInt8.ofNat

theorem getElem?_allBytes (b : UInt8) : allBytes[b.toNat]? = some b := by
  have hlt : b.toNat < 256 := b.toNat_lt
  simp [allBytes, hlt]

theorem mem_allBytes (b : UInt8) : b ∈ allBytes :=
  List.mem_of_getElem? (getElem?_allBytes b)

/-- A property that is checked byte by byte. -/
theorem forall_byte {P : UInt8 → Prop} [DecidablePred P] (h : (allBytes.all fun b => P b) = true)
    (b : UInt8) : P b := by
  simpa using List.all_eq_true.mp h b (mem_allBytes b)

@[simp] theorem length_byteBits (b : UInt8) : (byteBits b).length = 8 := by
  simp [byteBits]

theorem byteBits_xor (a b : UInt8) :
    byteBits (a ^^^ b) = List.zipWith xor (byteBits a) (byteBits b) := by
  simp [byteBits, List.zipWith_map, List.zipWith_self]

theorem byteBits_injective {a b : UInt8} (h : byteBits a = byteBits b) : a = b := by
  apply UInt8.toBitVec_inj.mp
  apply BitVec.eq_of_getLsbD_eq
  intro i hi
  exact List.map_inj_left.mp h i (List.mem_range.mpr hi)

/-- A byte that is spelled by fewer than eight bits has zeros above them. -/
theorem byteBits_byteOfBits_of_le {bs : List Bool} (h : bs.length ≤ 8) :
    byteBits (byteOfBits bs) = bs ++ List.replicate (8 - bs.length) false := by
  refine List.ext_getElem (by simp; omega) fun i hi hi' => ?_
  have hi8 : i < 8 := by simpa using hi
  have hbit : (byteOfBits bs).toBitVec.getLsbD i = bs.getD i false := by
    simp only [byteOfBits, UInt8.toBitVec_ofBitVec, BitVec.getLsbD_setWidth,
      BitVec.getLsbD_ofBoolListLE, hi8, decide_true, Bool.true_and]
  rw [List.getElem_append]
  simp only [byteBits, List.getElem_map, List.getElem_range, hbit, List.getElem_replicate,
    List.getD_eq_getElem?_getD]
  split
  · rename_i hin
    rw [List.getElem?_eq_getElem hin, Option.getD_some]
  · rename_i hout
    rw [List.getElem?_eq_none (Nat.not_lt.mp hout), Option.getD_none]

theorem byteBits_byteOfBits {bs : List Bool} (h : bs.length = 8) : byteBits (byteOfBits bs) = bs := by
  rw [byteBits_byteOfBits_of_le (Nat.le_of_eq h), h, Nat.sub_self, List.replicate_zero, List.append_nil]

theorem byteOfBits_byteBits (b : UInt8) : byteOfBits (byteBits b) = b :=
  byteBits_injective (byteBits_byteOfBits (length_byteBits b))

theorem toBits_cons (b : UInt8) (bytes : List UInt8) :
    toBits (b :: bytes) = byteBits b ++ toBits bytes :=
  List.flatMap_cons

@[simp] theorem length_toBits (bytes : List UInt8) : (toBits bytes).length = 8 * bytes.length := by
  induction bytes with
  | nil => rfl
  | cons b bytes ih =>
    rw [toBits_cons, List.length_append, length_byteBits, ih, List.length_cons]
    omega

/-- Byte `j` lies on the bits of block `j`. -/
theorem block_toBits {bytes : List UInt8} {j : Nat} (h : j < bytes.length) :
    block (toBits bytes) j = byteBits bytes[j] := by
  rw [block, List.drop_take, Nat.add_sub_cancel_left]
  exact take_drop_flatMap length_byteBits h

/-! ### Packing and unpacking -/

theorem ofBits_eq_cons {bs : List Bool} (h : bs ≠ []) :
    ofBits bs = byteOfBits (bs.take 8) :: ofBits (bs.drop 8) := by
  cases bs with
  | nil => exact (h rfl).elim
  | cons b rest => rw [ofBits, List.drop_succ_cons]

/-- **Bytes are read back from their bits.** -/
theorem ofBits_toBits (bytes : List UInt8) : ofBits (toBits bytes) = bytes := by
  induction bytes with
  | nil => rw [toBits, List.flatMap_nil, ofBits]
  | cons b bytes ih =>
    have hne : byteBits b ++ toBits bytes ≠ [] :=
      List.append_ne_nil_of_left_ne_nil (List.ne_nil_of_length_pos (by simp)) _
    have htake : (byteBits b ++ toBits bytes).take 8 = byteBits b :=
      List.take_left' (length_byteBits b)
    have hdrop : (byteBits b ++ toBits bytes).drop 8 = toBits bytes :=
      List.drop_left' (length_byteBits b)
    rw [toBits_cons, ofBits_eq_cons hne, htake, hdrop, byteOfBits_byteBits, ih]

/-- **Bits are read back from the bytes that they spell**, with zeros up to a whole byte. -/
theorem toBits_ofBits (bs : List Bool) : ∃ k < 8, 8 ∣ bs.length + k ∧
    toBits (ofBits bs) = bs ++ List.replicate k false := by
  fun_induction ofBits bs with
  | case1 => exact ⟨0, by decide, by simp, rfl⟩
  | case2 b rest ih =>
    rw [toBits_cons]
    by_cases hwhole : 8 ≤ (b :: rest).length
    · obtain ⟨k, hk, hdvd, hrest⟩ := ih
      rw [List.length_drop] at hdvd
      refine ⟨k, hk, ?_, ?_⟩
      · rw [List.length_cons] at hwhole ⊢
        omega
      · rw [hrest, byteBits_byteOfBits (List.length_take_of_le hwhole), ← List.append_assoc,
          ← List.drop_succ_cons (a := b), List.take_append_drop]
    · -- the last byte is the only one that is filled up
      have hshort : (b :: rest).length ≤ 8 := by omega
      have hnil : rest.drop 7 = [] :=
        (List.drop_succ_cons (a := b)).symm.trans (List.drop_eq_nil_of_le hshort)
      refine ⟨8 - (b :: rest).length, ?_, by omega, ?_⟩
      · rw [List.length_cons]
        omega
      · rw [hnil, ofBits, List.take_of_length_le hshort, byteBits_byteOfBits_of_le hshort]
        exact List.append_nil _

theorem writeBits_eq (bytes : List UInt8) : writeBits bytes =
    if 8 * bytes.length ≤ byteRoom then .ok (toBits bytes) else .error (.tooLarge (8 * bytes.length)) := by
  unfold writeBits requireBelow
  simp only [Nat.lt_succ_iff]
  split <;> rfl

/-- As long as there is room for the bits, there is room for those of the bytes that they spell. -/
theorem writeBits_ofBits {bs : List Bool} (h : bs.length ≤ byteRoom) : ∃ k < 8, 8 ∣ bs.length + k ∧
    writeBits (ofBits bs) = .ok (bs ++ List.replicate k false) := by
  obtain ⟨k, hk, hdvd, hbits⟩ := toBits_ofBits bs
  have hlen : 8 * (ofBits bs).length = bs.length + k := by
    rw [← length_toBits, hbits, List.length_append, List.length_replicate]
  have hroom : 8 * (ofBits bs).length ≤ byteRoom := by
    unfold byteRoom at h ⊢
    omega
  exact ⟨k, hk, hdvd, by rw [writeBits_eq, if_pos hroom, hbits]⟩

/-! ### Sums of bytes -/

/-- Sums of bytes, bit by bit. -/
theorem toBits_zipWith_xor : ∀ as bs : List UInt8,
    toBits (List.zipWith (· ^^^ ·) as bs) = List.zipWith xor (toBits as) (toBits bs)
  | [], _ => rfl
  | a :: as, [] => by simp [toBits]
  | a :: as, b :: bs => by
    rw [List.zipWith_cons_cons, toBits_cons, toBits_cons, toBits_cons,
      List.zipWith_append (by simp), byteBits_xor, toBits_zipWith_xor as bs]

end Bytes
end BitCircuit
