/-
# AES circuits permute the messages

Each step of the cipher can be undone: the substitution by inversion after the inverse affine map,
turned rows by turning them back, mixed columns by mixing them three times more
(`State.mixColumns_four`), and an added round key by adding it again. So the cipher of any number of
rounds under any keys is a bijection of the states (`cipher_bijective`), and as a state is the same as
128 bits (`State.bitsEquiv`), each circuit under a fixed expanded key is one of the messages
(`aes_circuits_permute`).

Key definitions: `State.unshiftRows`, `State.bitsEquiv`, `Message`.
Key theorems: `sBox_bijective`, `State.mixColumns_four`, `cipher_bijective`,
`aes_circuits_permute`.
-/
import Mathlib.Tactic.LinearCombination
import BitCircuit.Proofs.Aes.Cipher

namespace BitCircuit
namespace Aes

open Bytes

/-! ### The substitution -/

namespace Byte

theorem mul_comm (a b : UInt8) : mul a b = mul b a := by
  apply toRing_injective
  rw [toRing_mul, toRing_mul]
  ring

theorem inverse_inverse (b : UInt8) : inverse (inverse b) = b := by
  by_cases hb : b = 0
  · rw [hb, inverse_zero, inverse_zero]
  · apply inverse_eq
    rw [mul_comm, mul_inverse hb]

theorem unaffine_affine (b : UInt8) : unaffine (affine b) = b := by
  revert b
  apply forall_byte
  decide +kernel

/-- The entries of the matrix of mixed columns, as polynomials in the root of the modulus. -/
theorem toRing_two : toRing 2 = AdjoinRoot.root modulus := by
  have h : (2 : UInt8) = double 1 := by decide
  rw [h, toRing_double, toRing_one, mul_one]

theorem toRing_three : toRing 3 = AdjoinRoot.root modulus + 1 := by
  have h : (3 : UInt8) = 2 ^^^ 1 := by decide
  rw [h, toRing_xor, toRing_two, toRing_one]

/-- Twice an element of the ring is zero. -/
theorem two_eq_zero : (2 : AdjoinRoot modulus) = 0 := by
  have h : (2 : ZMod 2) = 0 := by decide
  rw [← map_ofNat (AdjoinRoot.of modulus), h, map_zero]

end Byte

theorem sBox_bijective : Function.Bijective sBox := by
  have hinverse : Function.Bijective Byte.inverse :=
    Function.Involutive.bijective Byte.inverse_inverse
  have haffine : Function.Bijective Byte.affine :=
    Function.bijective_iff_has_inverse.mpr
      ⟨Byte.unaffine, Byte.unaffine_affine, Byte.affine_unaffine⟩
  exact haffine.comp hinverse

/-! ### The steps of a round -/

namespace State

theorem subBytes_bijective : Function.Bijective subBytes :=
  sBox_bijective.comp_left.comp_left

/-- Turns row `r` right by `r` bytes. -/
def unshiftRows (s : State) : State := fun r c =>
  s r (c - r)

theorem shiftRows_bijective : Function.Bijective shiftRows := by
  refine Function.bijective_iff_has_inverse.mpr ⟨unshiftRows, fun s => ?_, fun s => ?_⟩
  · funext r c
    simp only [unshiftRows, shiftRows, sub_add_cancel]
  · funext r c
    simp only [unshiftRows, shiftRows, add_sub_cancel_right]

/-- Rows that are taken one after the other, counted from a row on. -/
theorem row_add (r : Fin 4) : r + 1 + 1 = r + 2 ∧ r + 1 + 2 = r + 3 ∧ r + 1 + 3 = r ∧
    r + 2 + 1 = r + 3 ∧ r + 2 + 2 = r ∧ r + 2 + 3 = r + 1 ∧ r + 3 + 1 = r ∧ r + 3 + 2 = r + 1 ∧
    r + 3 + 3 = r + 2 := by
  revert r
  decide

/-- Mixed twice, a byte depends on itself and on the one two rows below: the other products come up
twice and cancel. -/
theorem toRing_mixColumns_mixColumns (s : State) (r c : Fin 4) :
    let x := AdjoinRoot.root Byte.modulus
    Byte.toRing (s.mixColumns.mixColumns r c) =
      (x ^ 2 + 1) * Byte.toRing (s r c) + x ^ 2 * Byte.toRing (s (r + 2) c) := by
  intro x
  obtain ⟨h₁₁, h₁₂, h₁₃, h₂₁, h₂₂, h₂₃, h₃₁, h₃₂, h₃₃⟩ := row_add r
  simp only [mixColumns, Byte.toRing_xor, Byte.toRing_mul, Byte.toRing_one, Byte.toRing_two,
    Byte.toRing_three, h₁₁, h₁₂, h₁₃, h₂₁, h₂₂, h₂₃, h₃₁, h₃₂, h₃₃]
  linear_combination ((x + 1) * Byte.toRing (s r c) + (x ^ 2 + x + 1) * Byte.toRing (s (r + 1) c) +
    (2 * x + 1) * Byte.toRing (s (r + 2) c) + (2 * x + 1) * Byte.toRing (s (r + 3) c)) *
    Byte.two_eq_zero

/-- Mixed four times, the columns are what they were. -/
theorem mixColumns_four (s : State) : s.mixColumns.mixColumns.mixColumns.mixColumns = s := by
  funext r c
  apply Byte.toRing_injective
  have htwice := s.mixColumns.mixColumns.toRing_mixColumns_mixColumns r c
  have hrow := s.toRing_mixColumns_mixColumns r c
  have hbelow := s.toRing_mixColumns_mixColumns (r + 2) c
  obtain ⟨-, -, -, -, hback, -⟩ := row_add r
  rw [hback] at hbelow
  rw [htwice, hrow, hbelow]
  generalize AdjoinRoot.root Byte.modulus = x
  linear_combination ((x ^ 4 + x ^ 2) * Byte.toRing (s r c) +
    (x ^ 4 + x ^ 2) * Byte.toRing (s (r + 2) c)) * Byte.two_eq_zero

theorem mixColumns_bijective : Function.Bijective mixColumns :=
  Function.bijective_iff_has_inverse.mpr
    ⟨fun s => s.mixColumns.mixColumns.mixColumns, mixColumns_four, mixColumns_four⟩

theorem addRoundKey_bijective (key : State) :
    Function.Bijective fun s : State => s.addRoundKey key := by
  apply Function.Involutive.bijective
  intro s
  funext r c
  show s r c ^^^ key r c ^^^ key r c = s r c
  rw [UInt8.xor_assoc, UInt8.xor_self, UInt8.xor_zero]

theorem round_bijective (key : State) : Function.Bijective fun s : State => s.round key :=
  (addRoundKey_bijective key).comp
    (mixColumns_bijective.comp (shiftRows_bijective.comp subBytes_bijective))

theorem lastRound_bijective (key : State) : Function.Bijective fun s : State => s.lastRound key :=
  (addRoundKey_bijective key).comp (shiftRows_bijective.comp subBytes_bijective)

end State

/-! ### The cipher -/

theorem rounds_bijective (key : Nat → State) : ∀ rs : List Nat,
    Function.Bijective fun s : State => rs.foldl (fun s r => s.round (key r)) s
  | [] => Function.bijective_id
  | r :: rs => (rounds_bijective key rs).comp (State.round_bijective (key r))

/-- **The cipher is a bijection of the states,** whatever the number of rounds and the round keys. -/
theorem cipher_bijective (rounds : Nat) (key : Nat → State) :
    Function.Bijective (cipher rounds key) :=
  (State.lastRound_bijective (key rounds)).comp
    ((rounds_bijective key _).comp (State.addRoundKey_bijective (key 0)))

/-! ### Messages -/

/-- A block of the cipher. -/
abbrev Message := {bits : List Bool // bits.length = 128}

namespace State

theorem ofBytes_bytes (s : State) : ofBytes s.bytes = s := by
  funext r c
  have hj : r.val + 4 * c.val < 16 := by omega
  have hrow : Fin.ofNat 4 (r.val + 4 * c.val) = r := by
    apply Fin.ext
    simp only [Fin.ofNat]
    omega
  have hcolumn : Fin.ofNat 4 ((r.val + 4 * c.val) / 4) = c := by
    apply Fin.ext
    simp only [Fin.ofNat]
    omega
  have hbyte : s.byte (r.val + 4 * c.val) = s r c := by rw [byte, hrow, hcolumn]
  rw [ofBytes, bytes, List.getD_eq_getElem?_getD, List.getElem?_map, List.getElem?_range hj]
  exact hbyte

/-- A message is the same as a state. -/
def bitsEquiv : Message ≃ State where
  toFun m := ofBits m.1
  invFun s := ⟨s.toBits, s.length_toBits⟩
  left_inv m := Subtype.ext (toBits_ofBits m.2)
  right_inv s := by
    show ofBits (Bytes.toBits s.bytes) = s
    rw [ofBits_toBits s.length_bytes, ofBytes_bytes]

end State

/-- The message that the cipher makes of a message under an expanded key. -/
def encryption (rounds : Nat) (key : List Bool) (m : Message) : Message :=
  State.bitsEquiv.symm (cipher rounds (keyOfRound key) (State.bitsEquiv m))

theorem encryption_bijective (rounds : Nat) (key : List Bool) :
    Function.Bijective (encryption rounds key) :=
  State.bitsEquiv.symm.bijective.comp
    ((cipher_bijective rounds (keyOfRound key)).comp State.bitsEquiv.bijective)

end Aes

open Aes

/-! ### The circuits -/

/-- A key that is too long for a bundle, or for any list at all, has no circuit. -/
theorem Request.circuit_aes_ne_ok {rounds : Nat} (hlarge : wireLimit ≤ 128 * (rounds + 1))
    (c : Circuit) : (Request.aes rounds).circuit ≠ .ok c :=
  fun h => Nat.not_lt.mpr hlarge (aes_lays h).2.1

/-- **The circuits of the cipher permute the messages.** There is room for a circuit of every number of
rounds up to the one whose gates fill their list. Whichever circuit there is, under every fixed expanded
key no two messages are encrypted alike, and every message is the encryption of one. With an expanded
key that is too long for a bundle there is no circuit. -/
theorem aes_circuits_permute :
    (∀ rounds, (∃ c, (Request.aes rounds).circuit = .ok c ∧ c.HasRoom) ↔
      1 ≤ rounds ∧ 2640 * rounds - 336 ≤ gateRoom) ∧
    (∀ rounds c, (Request.aes rounds).circuit = .ok c →
      ∀ key : List Bool, key.length = 128 * (rounds + 1) →
        ∃ f : Message → Message, Function.Bijective f ∧
          ∀ m : Message, c.evalBits [m.1, key] = .ok [(f m).1]) ∧
    ∀ rounds, wireLimit ≤ 128 * (rounds + 1) → ∀ c, (Request.aes rounds).circuit ≠ .ok c := by
  refine ⟨fun rounds => Request.aes_hasRoom_iff, fun rounds c hc key hkey => ?_,
    fun rounds hlarge => Request.circuit_aes_ne_ok hlarge⟩
  refine ⟨encryption rounds key, encryption_bijective rounds key, fun m => ?_⟩
  exact Request.encrypts_of_circuit hc m.1 key m.2 hkey

/-- The circuit of one round under a key of zeros. -/
theorem aes_circuits_permute_one_round :
    ∃ c, (Request.aes 1).circuit = .ok c ∧ c.HasRoom ∧
      ∃ f : Message → Message, Function.Bijective f ∧
        ∀ m : Message, c.evalBits [m.1, List.replicate 256 false] = .ok [(f m).1] := by
  obtain ⟨hroom, hperm, -⟩ := aes_circuits_permute
  obtain ⟨c, hc, hc'⟩ := (hroom 1).mpr ⟨by decide, by decide⟩
  exact ⟨c, hc, hc', hperm 1 c hc _ List.length_replicate⟩

/-- With an expanded key of `2 ^ 60` bits, which a list of bits can have, there is no circuit and so
no map of the messages. -/
theorem no_aes_permutation_at_limit :
    1 ≤ 9007199254740991 ∧ 128 * (9007199254740991 + 1) < byteLimit ∧
      ¬ ∃ c, (Request.aes 9007199254740991).circuit = .ok c := by
  refine ⟨by decide, by decide, fun ⟨c, hc⟩ => ?_⟩
  exact Request.circuit_aes_ne_ok (by decide) c hc

end BitCircuit
