/-
# AES circuits encrypt

The circuit of so many rounds evaluates to the cipher of the standard, for every message and every
expanded key. There is room for it exactly as long as there is room for its gates, 2640 a round but for
336 (`Request.aes_hasRoom_iff`); much later the expanded key does not even fit into a bundle and is
refused. With the key schedule, the circuit of ten rounds is AES-128.

Key theorems: `Request.aes_hasRoom_iff`, `aes_circuits_encrypt`.
-/
import BitCircuit.Proofs.Aes.KeySchedule
import BitCircuit.Proofs.Aes.Rounds
import BitCircuit.Proofs.Aes.Size
import BitCircuit.Proofs.Request

namespace BitCircuit

open Aes

/-- The circuit takes a message and an expanded key of so many rounds to the encrypted message. -/
def Circuit.Encrypts (c : Circuit) (rounds : Nat) : Prop :=
  ∀ message key : List Bool, message.length = 128 → key.length = 128 * (rounds + 1) →
    c.evalBits [message, key] = .ok [(cipher rounds (keyOfRound key) (.ofBits message)).toBits]

namespace Request

theorem exec_aes {rounds : Nat} (h : 128 * (rounds + 1) < sizeLimit) (c : Circuit) :
    (Request.aes rounds).build.exec c =
      (buildBinary 128 (128 * (rounds + 1)) 128 Build.encrypt).exec c := by
  have hwidth : keyWidth rounds = .ok (128 * (rounds + 1)) := if_pos h
  rw [build, Build.exec_bind, Build.exec_liftM, hwidth]

/-- An expanded key that fits into a bundle. -/
theorem circuit_aes {rounds : Nat} (hrounds : 1 ≤ rounds) (hfit : 128 * (rounds + 1) < wireLimit) :
    ∃ c, (Request.aes rounds).circuit = .ok c ∧ c.Encrypts rounds := by
  have hyields : ∀ (c : Circuit) (input : Valuation) (D : Set Wire) (x y out : Bundle)
      (as bs : List Bool), c.WellFormed → (∀ w ∈ D, c.Allocated w) → as.length = 128 →
      bs.length = 128 * (rounds + 1) → out.length = 128 → c.Live input D x as →
      c.Live input D y bs → c.Vacant D out → (Build.encrypt x y out).Yields c fun _ c' =>
        c.Drives input out (cipher rounds (keyOfRound bs) (.ofBits as)).toBits c' := by
    intro c input D x y out as bs hc hD has hbs hout hx hy hvacant
    rw [← State.toBits_ofBits has] at hx
    exact Build.encrypt_yields hrounds hbs hc hx hy hvacant hD hout
  obtain ⟨c, hexec, heval⟩ := buildBinary_computes (by decide) hfit (by decide) hyields
  refine ⟨c, ?_, heval⟩
  rw [circuit, exec_aes (Nat.lt_trans hfit (by decide)), hexec]

/-- An expanded key that is too long for a bundle. -/
theorem circuit_aes_too_large {rounds : Nat} (hlarge : wireLimit ≤ 128 * (rounds + 1))
    (hsize : 128 * (rounds + 1) < sizeLimit) :
    (Request.aes rounds).circuit = .error (.tooLarge (128 * (rounds + 1))) := by
  have hrefused := buildBinary_too_large 128 Build.encrypt (a := 128) (by decide)
    (Nat.not_lt.mpr hlarge)
  rw [circuit, exec_aes hsize]
  rcases hexec : (buildBinary 128 (128 * (rounds + 1)) 128 Build.encrypt).exec .empty with ⟨r, c⟩
  rw [hexec] at hrefused
  cases hrefused
  rfl

/-- Whatever its number of rounds, a circuit of the cipher encrypts. -/
theorem encrypts_of_circuit {rounds : Nat} {c : Circuit} (h : (Request.aes rounds).circuit = .ok c) :
    c.Encrypts rounds := by
  obtain ⟨hrounds, hfit, -⟩ := aes_lays h
  obtain ⟨c', hc', hencrypts⟩ := circuit_aes hrounds hfit
  obtain rfl : c = c' := Except.ok.inj (h.symm.trans hc')
  exact hencrypts

/-- **There is room for the cipher as long as there is room for its gates.** -/
theorem aes_hasRoom_iff {rounds : Nat} : (∃ c, (Request.aes rounds).circuit = .ok c ∧ c.HasRoom) ↔
    1 ≤ rounds ∧ 2640 * rounds - 336 ≤ gateRoom := by
  constructor
  · rintro ⟨c, hc, hroom⟩
    obtain ⟨hrounds, -, hgates, -⟩ := aes_lays hc
    exact ⟨hrounds, hgates ▸ hroom.gates⟩
  · rintro ⟨hrounds, hgates⟩
    have hfit : 128 * (rounds + 1) < wireLimit := by
      unfold gateRoom at hgates
      unfold wireLimit
      omega
    obtain ⟨c, hc, -⟩ := circuit_aes hrounds hfit
    obtain ⟨-, -, hsize, hwires⟩ := aes_lays hc
    refine ⟨c, hc, hsize ▸ hgates, ?_⟩
    unfold gateRoom at hgates
    unfold byteRoom
    omega

end Request

/-- **The circuits of the cipher compute it.** There is room for a circuit of every number of rounds up
to the one whose gates fill their list, and whichever circuit there is encrypts. An expanded key that is
too long for a bundle is refused. With the key schedule, ten rounds are AES-128. -/
theorem aes_circuits_encrypt :
    (∀ rounds, (∃ c, (Request.aes rounds).circuit = .ok c ∧ c.HasRoom) ↔
      1 ≤ rounds ∧ 2640 * rounds - 336 ≤ gateRoom) ∧
    (∀ rounds c, (Request.aes rounds).circuit = .ok c → c.Encrypts rounds) ∧
    (∀ rounds, wireLimit ≤ 128 * (rounds + 1) → 128 * (rounds + 1) < sizeLimit →
      (Request.aes rounds).circuit = .error (.tooLarge (128 * (rounds + 1)))) ∧
    ∃ c, (Request.aes 10).circuit = .ok c ∧ c.HasRoom ∧
      ∀ (key : RoundKey) (block : List UInt8), block.length = 16 →
        c.evalBits [Bytes.toBits block, Bytes.toBits key.expand] =
          .ok [Bytes.toBits (aes128 (.ofBytes key.bytes) (.ofBytes block)).bytes] := by
  refine ⟨fun rounds => Request.aes_hasRoom_iff, fun rounds c => Request.encrypts_of_circuit,
    fun rounds => Request.circuit_aes_too_large, ?_⟩
  have hten : ∃ c, (Request.aes 10).circuit = .ok c ∧ c.HasRoom :=
    Request.aes_hasRoom_iff.mpr ⟨by decide, by decide⟩
  obtain ⟨c, hc, hroom⟩ := hten
  refine ⟨c, hc, hroom, fun key block hblock => ?_⟩
  rw [Request.encrypts_of_circuit hc _ _ (by simp [hblock]) (by simp [RoundKey.length_expand]),
    State.ofBits_toBits hblock, cipher_congr fun r hr => keyOfRound_expand key (Nat.lt_succ_of_le hr)]
  rfl

/-- One round on a message and a key of zeros. -/
theorem aes_circuits_encrypt_one_round :
    ∃ c, (Request.aes 1).circuit = .ok c ∧ c.HasRoom ∧
      c.evalBits [List.replicate 128 false, List.replicate 256 false] =
        .ok [(cipher 1 (keyOfRound (List.replicate 256 false))
          (.ofBits (List.replicate 128 false))).toBits] := by
  obtain ⟨hroom, hencrypts, -⟩ := aes_circuits_encrypt
  obtain ⟨c, hc, hc'⟩ := (hroom 1).mpr ⟨by decide, by decide⟩
  exact ⟨c, hc, hc', hencrypts 1 c hc _ _ List.length_replicate List.length_replicate⟩

/-- The least number of rounds whose expanded key is too long for a bundle. -/
theorem aes_circuit_refused_at_limit :
    1 ≤ 9007199254740991 ∧ 128 * (9007199254740991 + 1) < sizeLimit ∧
      (Request.aes 9007199254740991).circuit = .error (.tooLarge (2 ^ 60)) :=
  ⟨by decide, by decide, Request.circuit_aes_too_large (by decide) (by decide)⟩

end BitCircuit
