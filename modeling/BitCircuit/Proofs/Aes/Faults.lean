/-
# The operations of AES do not fault

Neither the byte substitution nor the mixing of columns nor the whole cipher looks for a position that
is not there, whatever bundles they are given. The gates of the substitution network read signals that
are there (`Aes.readsBelow_networkGates`), a state stays 128 wires wide from round to round, and the
expanded key has a round key for each round.

Key definitions: `Aes.readsBelow`.
Key theorems: `Build.averts_substituteByte`, `Build.averts_mixColumns`, `Build.averts_encrypt`.
-/
import BitCircuit.Proofs.Faults
import BitCircuit.Proofs.Aes.Rounds

namespace BitCircuit

namespace Aes

/-- Each gate reads signals that are there before it, if `m` are there before the first one. -/
def readsBelow : Nat → List NetworkGate → Bool
  | _, [] => true
  | m, g :: gs => g.x < m && g.y < m && readsBelow (m + 1) gs

theorem readsBelow_networkGates : readsBelow 8 networkGates = true := by
  decide +kernel

theorem outputGates_lt : ∀ p ∈ outputGates,
    p.1.x < 8 + networkGates.length ∧ p.1.y < 8 + networkGates.length ∧ p.2 < 8 := by
  decide +kernel

end Aes

open Aes

variable {n : Nat} {a b out state : Bundle}

theorem answers_byteAt {j : Nat} (h : 8 * j + 8 ≤ state.length) :
    Answers n (byteAt state j) fun byte => byte.length = 8 := by
  apply (answers_slice (by omega) h).mono
  intro byte hbyte
  omega

/-- A state keeps its width when its rows are turned. -/
theorem answers_shiftRows (state : Bundle) :
    Answers n (shiftRows state) fun shifted => shifted.length = 128 := by
  by_cases hstate : state.length = 128
  · rw [Build.shiftRows_eq_ok hstate]
    apply Answers.ok
    have hblock : ∀ j ∈ List.range 16, (block state (shiftedFrom j)).length = 8 := by
      intro j hj
      have hj := shiftedFrom_lt j (List.mem_range.mp hj)
      exact length_block (by omega)
    rw [List.length_flatMap, List.map_congr_left hblock]
    rfl
  · have hwidth : requireWidth state 128 = .error (.widthMismatch state.length 128) := if_neg hstate
    unfold shiftRows
    rw [hwidth]
    exact .error (.inl rfl)

namespace Build

/-! ### The substitution network -/

theorem averts_addSignal {signals : Array Wire} {g : NetworkGate} (hx : g.x < signals.size)
    (hy : g.y < signals.size) :
    Averts n (addSignal signals g) fun signals' => signals'.size = signals.size + 1 := by
  apply Averts.bind (.check (answers_entry hx))
  intro x _
  apply Averts.bind (.check (answers_entry hy))
  intro y _
  apply (averts_gate g.kind x y).after
  intro w
  exact .pure (Array.size_push w)

theorem averts_foldlM_addSignal : ∀ {gs : List NetworkGate} {signals : Array Wire},
    readsBelow signals.size gs = true → Averts n (gs.foldlM addSignal signals) fun signals' =>
      signals'.size = signals.size + gs.length
  | [], _, _ => .pure rfl
  | g :: gs, signals, h => by
    simp only [readsBelow, Bool.and_eq_true, decide_eq_true_eq] at h
    obtain ⟨⟨hx, hy⟩, hgs⟩ := h
    rw [List.foldlM_cons]
    apply (averts_addSignal hx hy).bind
    intro signals' hsize
    apply (averts_foldlM_addSignal (hsize ▸ hgs)).mono
    intro signals'' hsize'
    rw [hsize', hsize, List.length_cons]
    omega

theorem averts_substituteByte : Averts n (substituteByte a out) fun _ => True := by
  apply Averts.bind (.check (answers_requireWidth a 8))
  intro _ ha
  apply Averts.bind (.check (answers_requireWidth out 8))
  intro _ hout
  apply Averts.bind (.check (answers_requireDistinct _ _))
  intro _ _
  have hsize : a.reverse.toArray.size = 8 := by rw [List.size_toArray, List.length_reverse, ha]
  apply (averts_foldlM_addSignal (hsize ▸ readsBelow_networkGates)).bind
  intro signals hsignals
  rw [hsize] at hsignals
  apply Averts.forM
  intro p hp
  obtain ⟨hx, hy, hbit⟩ := outputGates_lt p hp
  apply Averts.bind (.check (answers_entry (hsignals ▸ hx)))
  intro x _
  apply Averts.bind (.check (answers_entry (hsignals ▸ hy)))
  intro y _
  apply Averts.bind (.check (answers_wireAt (hout ▸ hbit)))
  intro o _
  exact averts_gateTo _ _ _ _

/-! ### Mixed columns -/

theorem averts_xorBundles {m : Nat} (ha : a.length = m) (hb : b.length = m) :
    Averts n (xorBundles a b) fun ws => ws.length = m := by
  apply Averts.bind (.check (answers_inStep ha hb))
  intro l hl
  apply (Averts.mapM fun p _ => averts_gate .xor p.1 p.2).mono
  intro ws hws
  exact hws.length_eq.symm.trans hl

theorem averts_doubleByte (ha : a.length = 8) :
    Averts n (doubleByte a) fun doubled => doubled.length = 8 := by
  match a, ha with
  | [_, _, _, _, _, _, _, _], _ =>
    apply (averts_gate _ _ _).after
    intro d1
    apply (averts_gate _ _ _).after
    intro d3
    apply (averts_gate _ _ _).after
    intro d4
    exact .pure rfl

theorem averts_mixByte {pair parity : Bundle} (ha : a.length = 8) (hpair : pair.length = 8)
    (hparity : parity.length = 8) (hout : out.length = 8) :
    Averts n (mixByte a pair parity out) fun _ => True := by
  apply (averts_doubleByte hpair).bind
  intro doubled hdoubled
  apply Averts.bind (.check (answers_inStep ha hparity))
  intro ap hap
  apply Averts.bind (.check (answers_inStep hap hdoubled))
  intro apd hapd
  apply Averts.bind (.check (answers_inStep hapd hout))
  intro l _
  exact .forM fun _ _ => (averts_gate _ _ _).after fun _ => averts_gateTo _ _ _ _

theorem averts_mixColumn {column : Nat} (hstate : state.length = 128) (hout : out.length = 128)
    (hcolumn : column < 4) : Averts n (mixColumn state out column) fun _ => True := by
  apply Averts.bind (.check (answers_byteAt (by omega)))
  intro a0 h0
  apply Averts.bind (.check (answers_byteAt (by omega)))
  intro a1 h1
  apply Averts.bind (.check (answers_byteAt (by omega)))
  intro a2 h2
  apply Averts.bind (.check (answers_byteAt (by omega)))
  intro a3 h3
  apply (averts_xorBundles h0 h1).bind
  intro u0 hu0
  apply (averts_xorBundles h1 h2).bind
  intro u1 hu1
  apply (averts_xorBundles h2 h3).bind
  intro u2 hu2
  apply (averts_xorBundles h3 h0).bind
  intro u3 hu3
  apply (averts_xorBundles hu0 hu2).bind
  intro parity hparity
  apply Averts.bind (.check (answers_byteAt (by omega)))
  intro o0 ho0
  apply (averts_mixByte h0 hu0 hparity ho0).after
  intro _
  apply Averts.bind (.check (answers_byteAt (by omega)))
  intro o1 ho1
  apply (averts_mixByte h1 hu1 hparity ho1).after
  intro _
  apply Averts.bind (.check (answers_byteAt (by omega)))
  intro o2 ho2
  apply (averts_mixByte h2 hu2 hparity ho2).after
  intro _
  apply Averts.bind (.check (answers_byteAt (by omega)))
  intro o3 ho3
  exact averts_mixByte h3 hu3 hparity ho3

theorem averts_mixColumns : Averts n (mixColumns state out) fun _ => True := by
  apply Averts.bind (.check (answers_requireWidth state 128))
  intro _ hstate
  apply Averts.bind (.check (answers_requireWidth out 128))
  intro _ hout
  apply Averts.bind (.check (answers_requireDistinct _ _))
  intro _ _
  exact .forM fun column hcolumn => averts_mixColumn hstate hout (List.mem_range.mp hcolumn)

/-! ### Rounds -/

theorem averts_newState : Averts n (newBundle 128) fun state => state.length = 128 :=
  averts_newBundle (.inl (by decide))

theorem averts_substituteAndShift (hstate : state.length = 128) :
    Averts n (substituteAndShift state) fun shifted => shifted.length = 128 := by
  apply averts_newState.bind
  intro substituted hsubstituted
  have hbytes : Averts n ((List.range 16).forM fun j => do
      substituteByte (← byteAt state j) (← byteAt substituted j)) fun _ => True := by
    apply Averts.forM
    intro j hj
    have hj : j < 16 := List.mem_range.mp hj
    apply Averts.bind (.check (answers_byteAt (by omega)))
    intro byte _
    apply Averts.bind (.check (answers_byteAt (by omega)))
    intro o _
    exact averts_substituteByte
  apply hbytes.after
  intro _
  exact .check (answers_shiftRows substituted)

theorem answers_roundKey {expandedKey : Bundle} {r : Nat}
    (h : 128 * (r + 1) ≤ expandedKey.length) :
    Answers n (roundKey expandedKey r) fun key => key.length = 128 := by
  apply (answers_slice (by omega) h).mono
  intro key hkey
  omega

theorem averts_innerRound {expandedKey : Bundle} {r : Nat} (hstate : state.length = 128)
    (hkey : 128 * (r + 1) ≤ expandedKey.length) :
    Averts n (innerRound expandedKey state r) fun next => next.length = 128 := by
  apply (averts_substituteAndShift hstate).after
  intro shifted
  apply averts_newState.bind
  intro mixed hmixed
  apply averts_mixColumns.after
  intro _
  apply Averts.bind (.check (answers_roundKey hkey))
  intro key hkey
  exact averts_xorBundles hmixed hkey

/-- An expanded key that passes the check is made of round keys, two at least. -/
theorem answers_requireRoundKeys (expandedKey : Bundle) :
    Answers n (requireRoundKeys expandedKey) fun _ =>
      256 ≤ expandedKey.length ∧ expandedKey.length % 128 = 0 := by
  unfold requireRoundKeys
  split
  · exact .error (.inl rfl)
  · rename_i h
    exact .ok (by omega)

theorem averts_encrypt {message expandedKey ciphertext : Bundle} :
    Averts n (encrypt message expandedKey ciphertext) fun _ => True := by
  apply Averts.bind (.check (answers_requireWidth message 128))
  intro _ hmessage
  apply Averts.bind (.check (answers_requireWidth ciphertext 128))
  intro _ hciphertext
  apply Averts.bind (.check (answers_requireRoundKeys expandedKey))
  intro _ hkeys
  apply Averts.bind (.check (answers_requireDistinct _ _))
  intro _ _
  apply Averts.bind (.check (answers_roundKey (by omega)))
  intro first hfirst
  apply (averts_xorBundles hmessage hfirst).bind
  intro start hstart
  have hrounds : Averts n ((List.range' 1 (expandedKey.length / 128 - 1 - 1)).foldlM
      (innerRound expandedKey) start) fun state => state.length = 128 := by
    apply Averts.foldlM (R := fun state : Bundle => state.length = 128) hstart
    intro r hr state hstate
    have hr := List.mem_range'_1.mp hr
    exact averts_innerRound hstate (by omega)
  apply hrounds.bind
  intro state hstate
  apply (averts_substituteAndShift hstate).bind
  intro shifted hshifted
  apply Averts.bind (.check (answers_roundKey (by omega)))
  intro key hkey
  apply Averts.bind (.check (answers_inStep hshifted hkey))
  intro sk hsk
  apply Averts.bind (.check (answers_inStep hsk hciphertext))
  intro l _
  exact .forM fun _ _ => averts_gateTo _ _ _ _

end Build
end BitCircuit
