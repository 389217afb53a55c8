/-
# The key schedule of the standard

The schedule makes four columns at a time, the standard one word after the other. Each round key
of the schedule holds the four words of its round (`RoundKey.state_next`, `RoundKey.map_schedule`),
so the bits of the expanded key hold them one round after the other.

Key definitions: `RoundKey.state`.
Key theorems: `RoundKey.state_next`, `RoundKey.map_schedule`, `keyOfRound_expand`.
-/
import BitCircuit.Proofs.Aes.Standard

namespace BitCircuit
namespace Aes

open Bytes

variable (key : State)

/-! ### Words of the standard -/

theorem keyWord_first (r : Nat) (row : Fin 4) :
    keyWord key (4 * (r + 1)) row =
      keyWord key (4 * r) row ^^^ turnedWord (r + 1) (keyWord key (4 * r + 3)) row := by
  have hmod : (4 * r + 4) % 4 = 0 := by omega
  have hdiv : (4 * r + 4) / 4 = r + 1 := by omega
  simp only [Nat.mul_succ, keyWord, if_pos hmod, hdiv]

theorem keyWord_later {i : Nat} (h : i % 4 ≠ 0) (row : Fin 4) :
    keyWord key (i + 4) row = keyWord key i row ^^^ keyWord key (i + 3) row := by
  have hmod : (i + 4) % 4 ≠ 0 := by omega
  simp only [keyWord, if_neg hmod]

/-! ### Round keys as states -/

namespace RoundKey

/-- The round key as a state. -/
def state (k : RoundKey) : State :=
  State.ofBytes k.bytes

/-- The columns of the next round key. -/
theorem state_next_apply (k : RoundKey) (r : Nat) (row : Fin 4) :
    (k.next (roundConstant r)).state row 0 = k.state row 0 ^^^ turnedWord r (fun row => k.state row 3) row ∧
    (k.next (roundConstant r)).state row 1 = k.state row 1 ^^^ (k.next (roundConstant r)).state row 0 ∧
    (k.next (roundConstant r)).state row 2 = k.state row 2 ^^^ (k.next (roundConstant r)).state row 1 ∧
    (k.next (roundConstant r)).state row 3 = k.state row 3 ^^^ (k.next (roundConstant r)).state row 2 := by
  refine ⟨?_, ?_, ?_, ?_⟩
  · unfold turnedWord next Column.scramble
    simp only [← substitute_eq_sBox]
    generalize substitute = f
    match row with
    | 0 => rfl
    | 1 => exact congrArg (k.c0.b1 ^^^ ·) (UInt8.xor_zero (a := f k.c3.b2)).symm
    | 2 => exact congrArg (k.c0.b2 ^^^ ·) (UInt8.xor_zero (a := f k.c3.b3)).symm
    | 3 => exact congrArg (k.c0.b3 ^^^ ·) (UInt8.xor_zero (a := f k.c3.b0)).symm
  · match row with
    | 0 | 1 | 2 | 3 => rfl
  · match row with
    | 0 | 1 | 2 | 3 => rfl
  · match row with
    | 0 | 1 | 2 | 3 => rfl

/-- If a round key holds the words of round `r`, the next one holds those of the round after. -/
theorem state_next {k : RoundKey} {r : Nat} (h : k.state = roundKeyState key r) :
    (k.next (roundConstant (r + 1))).state = roundKeyState key (r + 1) := by
  have hword : ∀ row c, k.state row c = keyWord key (4 * r + c.val) row := fun row c =>
    congrFun (congrFun h row) c
  funext row c
  obtain ⟨h0, h1, h2, h3⟩ := state_next_apply k (r + 1) row
  have hzero : (k.next (roundConstant (r + 1))).state row 0 = keyWord key (4 * (r + 1)) row := by
    rw [h0, keyWord_first, hword]
    congr 2
    funext row
    exact hword row 3
  have hone : (k.next (roundConstant (r + 1))).state row 1 = keyWord key (4 * (r + 1) + 1) row := by
    rw [h1, hzero, hword]
    exact (keyWord_later key (i := 4 * r + 1) (by omega) row).symm
  have htwo : (k.next (roundConstant (r + 1))).state row 2 = keyWord key (4 * (r + 1) + 2) row := by
    rw [h2, hone, hword]
    exact (keyWord_later key (i := 4 * r + 2) (by omega) row).symm
  have hthree : (k.next (roundConstant (r + 1))).state row 3 = keyWord key (4 * (r + 1) + 3) row := by
    rw [h3, htwo, hword]
    exact (keyWord_later key (i := 4 * r + 3) (by omega) row).symm
  match c with
  | 0 => exact hzero
  | 1 => exact hone
  | 2 => exact htwo
  | 3 => exact hthree

/-- The schedule holds the words round by round. -/
theorem map_schedule : ∀ {n r : Nat} {k : RoundKey}, k.state = roundKeyState key r →
    (k.schedule ((List.range' (r + 1) n).map roundConstant)).map state =
      (List.range' r (n + 1)).map (roundKeyState key)
  | 0, r, k, h => by
    rw [List.range'_zero, List.map_nil, schedule, List.map_singleton, h]
    rfl
  | n + 1, r, k, h => by
    rw [List.range'_succ, List.map_cons, schedule, List.map_cons, map_schedule (state_next key h), h]
    rfl

end RoundKey

theorem roundConstants_eq : roundConstants = (List.range' 1 10).map roundConstant := by
  decide

theorem RoundKey.length_bytes (k : RoundKey) : k.bytes.length = 16 :=
  rfl

theorem RoundKey.length_toBits (k : RoundKey) : (toBits k.bytes).length = 128 := by
  rw [Bytes.length_toBits, length_bytes]

theorem RoundKey.length_schedule : ∀ (k : RoundKey) (constants : List UInt8),
    (k.schedule constants).length = constants.length + 1
  | _, [] => rfl
  | k, constant :: rest => congrArg (· + 1) (length_schedule (k.next constant) rest)

theorem RoundKey.length_expand (k : RoundKey) : k.expand.length = 176 := by
  have hbytes : (k.schedule roundConstants).map (fun k => k.bytes.length) = List.replicate 11 16 :=
    rfl
  rw [expand, List.length_flatMap, hbytes]
  rfl

/-- **The expanded key holds the words of the standard.** -/
theorem keyOfRound_expand (k : RoundKey) {r : Nat} (hr : r < 11) :
    keyOfRound (toBits k.expand) r = roundKeyState k.state r := by
  have hzero : k.state = roundKeyState k.state 0 := by
    funext row c
    match c with
    | 0 | 1 | 2 | 3 => rfl
  have hmap := RoundKey.map_schedule k.state (n := 10) hzero
  rw [← roundConstants_eq] at hmap
  have hlen : (k.schedule roundConstants).length = 11 := k.length_schedule roundConstants
  have hget : (k.schedule roundConstants)[r].state = roundKeyState k.state r := by
    have hentry := List.getElem_of_eq hmap (i := r) (by rwa [List.length_map, hlen])
    rwa [List.getElem_map, List.getElem_map, List.getElem_range', Nat.zero_add, Nat.one_mul] at hentry
  have hbits : toBits k.expand = (k.schedule roundConstants).flatMap fun k => toBits k.bytes := by
    rw [toBits, RoundKey.expand, List.flatMap_assoc]
    rfl
  rw [← hget, keyOfRound, hbits, take_drop_flatMap RoundKey.length_toBits (by omega)]
  exact State.ofBits_toBits (RoundKey.length_bytes _)

end Aes
end BitCircuit
