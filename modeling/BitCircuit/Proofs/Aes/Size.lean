/-
# The size of AES

A circuit of the cipher has no constants, so nothing in it is folded and its size is known exactly. The
substitution of a byte has 128 gates, mixing the columns 464, and adding a round key 128. So a round
has `16 * 128 + 464 + 128 = 2640`. The last one does not mix, and a key is added once more than there
are rounds, so in all there are 336 gates fewer than that (`Request.aes_lays`).

Key theorems: `Build.lays_substituteByte`, `Build.lays_mixColumns`, `Build.lays_innerRound`,
`Build.lays_encrypt`, `Request.aes_lays`.
-/
import BitCircuit.Proofs.Request
import BitCircuit.Proofs.Room

namespace BitCircuit

open Aes

namespace Build

variable {a b out state pair parity message expandedKey ciphertext : Bundle} {n r column : Nat}

/-! ### Substituted bytes -/

theorem lays_addSignal {signals : Array Wire} {g : NetworkGate} :
    Lays (addSignal signals g) 1 1 fun _ => True :=
  .checked fun _ _ => .checked fun _ _ => .returning lays_gate fun _ _ => trivial

/-- **The substitution of a byte has 128 gates**, eight of which drive its result. -/
theorem lays_substituteByte : Lays (substituteByte a out) 128 120 fun _ => True := by
  refine .checked fun _ _ => .checked fun _ _ => .checked fun _ _ => ?_
  have hnetwork : Lays (networkGates.foldlM addSignal a.reverse.toArray) 120 120 fun _ => True :=
    .foldlM (fun _ _ _ => lays_addSignal) trivial
  have houtput (signals : Array Wire) (q : NetworkGate × Nat) : Lays (do
      let x ← entry signals q.1.x
      let y ← entry signals q.1.y
      gateTo q.1.kind x y (← out.wireAt q.2)) 1 0 fun _ => True :=
    .checked fun _ _ => .checked fun _ _ => .checked fun _ _ => lays_gateTo
  exact hnetwork.bind fun signals _ => .forM (houtput signals) (l := outputGates)

/-! ### Mixed columns -/

theorem lays_xorBundles (ha : a.length = n) :
    Lays (xorBundles a b) n n fun ws => ws.length = n := by
  refine .checked fun l hl => ?_
  have hlen : l.length = n := (length_of_inStep hl).1.trans ha
  have hall := Lays.mapM (f := fun (q : Wire × Wire) => gate .xor q.1 q.2) (fun _ => lays_gate) (l := l)
  rwa [hlen, Nat.mul_one] at hall

theorem lays_doubleByte : Lays (doubleByte a) 3 3 fun _ => True := by
  unfold doubleByte
  split
  · exact lays_gate.bind fun _ _ => lays_gate.bind fun _ _ => lays_gate.returning fun _ _ => trivial
  · exact .throw

theorem length_of_byteAt {j : Nat} {byte : Bundle} (h : byteAt state j = .ok byte) : byte.length = 8 := by
  obtain ⟨⟨-, hhi⟩, rfl⟩ := slice_eq_ok.mp h
  rw [List.length_drop, List.length_take, Nat.min_eq_left hhi, Nat.add_sub_cancel_left]

/-- A gate on a new wire and one that drives a wire of the result, for each bit of a byte. -/
theorem lays_mixByte (ha : a.length = 8) : Lays (mixByte a pair parity out) 19 11 fun _ => True := by
  have hbit (q : ((Wire × Wire) × Wire) × Wire) :
      Lays (do gateTo .xor (← gate .xor q.1.1.1 q.1.1.2) q.1.2 q.2) 2 1 fun _ => True :=
    lays_gate.bind fun _ _ => lays_gateTo
  refine .total (by decide : 3 + 8 * 2 = 19) (by decide : 3 + 8 * 1 = 11) ?_
  refine lays_doubleByte.bind fun doubled _ => .checked fun ap hap => .checked fun apd hapd =>
    .checked fun l hl => ?_
  have hlen : l.length = 8 := by
    rw [(length_of_inStep hl).1, (length_of_inStep hapd).1, (length_of_inStep hap).1, ha]
  exact hlen ▸ Lays.forM hbit (l := l)

/-- The sums of four pairs of neighbours and of the column, and then its bytes. -/
theorem lays_mixColumn : Lays (mixColumn state out column) 116 84 fun _ => True := by
  refine .checked fun a0 h0 => .checked fun a1 h1 => .checked fun a2 h2 => .checked fun a3 h3 => ?_
  have h0 := length_of_byteAt h0
  have h1 := length_of_byteAt h1
  have h2 := length_of_byteAt h2
  have h3 := length_of_byteAt h3
  refine .total (by decide : 8 + (8 + (8 + (8 + (8 + (19 + (19 + (19 + 19))))))) = 116)
    (by decide : 8 + (8 + (8 + (8 + (8 + (11 + (11 + (11 + 11))))))) = 84) ?_
  refine (lays_xorBundles h0).bind fun u0 hu0 => (lays_xorBundles h1).bind fun u1 _ =>
    (lays_xorBundles h2).bind fun u2 _ => (lays_xorBundles h3).bind fun u3 _ =>
    (lays_xorBundles hu0).bind fun parity _ => ?_
  exact .checked fun _ _ => (lays_mixByte h0).bind fun _ _ => .checked fun _ _ =>
    (lays_mixByte h1).bind fun _ _ => .checked fun _ _ => (lays_mixByte h2).bind fun _ _ =>
    .checked fun _ _ => lays_mixByte h3

/-- **Mixing the columns has 464 gates.** -/
theorem lays_mixColumns : Lays (mixColumns state out) 464 336 fun _ => True := by
  refine .checked fun _ _ => .checked fun _ _ => .checked fun _ _ => ?_
  exact .forM (fun _ => lays_mixColumn) (l := List.range 4)

/-! ### Rounds -/

theorem lays_substituteAndShift : Lays (substituteAndShift state) 2048 2048 fun _ => True := by
  have hbytes (substituted : Bundle) : Lays ((List.range 16).forM fun j => do
      substituteByte (← byteAt state j) (← byteAt substituted j) : Build Unit) 2048 1920 fun _ => True :=
    .forM (fun _ => .checked fun _ _ => .checked fun _ _ => lays_substituteByte) (l := List.range 16)
  refine .total (by decide : 0 + (2048 + 0) = 2048) (by decide : 128 + (1920 + 0) = 2048) ?_
  exact lays_newBundle.bind fun substituted _ => (hbytes substituted).bind fun _ _ =>
    .check fun _ _ => trivial

/-- **A round has 2640 gates.** -/
theorem lays_innerRound : Lays (innerRound expandedKey state r) 2640 2640 fun _ => True := by
  refine .total (by decide : 2048 + (0 + (464 + 128)) = 2640)
    (by decide : 2048 + (128 + (336 + 128)) = 2640) ?_
  refine lays_substituteAndShift.bind fun shifted _ => lays_newBundle.bind fun mixed hmixed =>
    lays_mixColumns.bind fun _ _ => .checked fun key _ => ?_
  exact (lays_xorBundles hmixed.1).mono fun _ _ => trivial

/-- A key of one round key only is refused. -/
theorem le_length_of_requireRoundKeys {u : Unit} (h : requireRoundKeys expandedKey = .ok u) :
    256 ≤ expandedKey.length := by
  unfold requireRoundKeys at h
  split at h
  · cases h
  · rename_i hkey
    exact Nat.not_lt.mp fun hlt => hkey (.inl hlt)

/-- **The cipher has 2640 gates for each round, but for 336.** -/
theorem lays_encrypt {rounds : Nat} (hlen : expandedKey.length = 128 * (rounds + 1)) :
    Lays (encrypt message expandedKey ciphertext) (2640 * rounds - 336) (2640 * rounds - 464)
      fun _ => 1 ≤ rounds := by
  have hnumber : expandedKey.length / 128 - 1 = rounds := by omega
  refine .checked fun _ hmessage => .checked fun _ hciphertext => .checked fun _ hkey =>
    .checked fun _ _ => ?_
  have hmessage : message.length = 128 := requireWidth_eq_ok.mp hmessage
  have hciphertext : ciphertext.length = 128 := requireWidth_eq_ok.mp hciphertext
  have hrounds : 1 ≤ rounds := by
    have hle := le_length_of_requireRoundKeys hkey
    omega
  have hinner (start : Bundle) : Lays ((List.range' 1 (rounds - 1)).foldlM (innerRound expandedKey) start)
      ((rounds - 1) * 2640) ((rounds - 1) * 2640) fun _ => True := by
    have hround (b : Bundle) (r : Nat) : Lays (innerRound expandedKey b r) 2640 2640 fun _ => True :=
      lays_innerRound
    have hall := Lays.foldlM (fun b r _ => hround b r) (l := List.range' 1 (rounds - 1)) (b := start)
      trivial
    rwa [List.length_range'] at hall
  have hbit (q : (Wire × Wire) × Wire) : Lays (gateTo .xor q.1.1 q.1.2 q.2) 1 0 fun _ => True :=
    lays_gateTo
  refine .total (by omega : 128 + ((rounds - 1) * 2640 + (2048 + 128 * 1)) = 2640 * rounds - 336)
    (by omega : 128 + ((rounds - 1) * 2640 + (2048 + 128 * 0)) = 2640 * rounds - 464) ?_
  rw [hnumber]
  refine .checked fun first _ => (lays_xorBundles hmessage).bind fun start _ =>
    (hinner start).bind fun state _ => ?_
  refine lays_substituteAndShift.bind fun shifted _ => .checked fun key _ => .checked fun sk hsk =>
    .checked fun l hl => ?_
  have hlen : l.length = 128 := (length_of_inStep hl).2.trans hciphertext
  exact hlen ▸ (Lays.forM hbit (l := l)).mono fun _ _ => hrounds

end Build

namespace Request

open Build

variable {rounds : Nat} {c : Circuit}

/-- Two operands and a result, and what the operation lays. -/
theorem lays_buildBinary {op : Bundle → Bundle → Bundle → Build Unit} {Q : Prop} {a b n k m : Nat}
    (hop : ∀ x y out : Bundle, y.length = b → Lays (op x y out) k m fun _ => Q) :
    Lays (buildBinary a b n op) k (a + (b + (n + m))) fun _ => Q ∧ b < wireLimit := by
  refine .total (by omega : 0 + (0 + (0 + k)) = k) rfl ?_
  refine lays_addInput.bind fun x _ => lays_addInput.bind fun y hy => lays_addOutput.bind fun out _ => ?_
  exact (hop x y out hy.1).mono fun _ hQ => ⟨hQ, hy.2⟩

/-- **A circuit of the cipher is as large as its number of rounds says**, and there is none of no rounds
or with an expanded key that is too long for a bundle. -/
theorem aes_lays (h : (Request.aes rounds).circuit = .ok c) :
    1 ≤ rounds ∧ 128 * (rounds + 1) < wireLimit ∧ c.gates.size = 2640 * rounds - 336 ∧
      c.wires.size = 2768 * rounds - 80 := by
  have hlays : Lays (Request.aes rounds).build (2640 * rounds - 336)
      (128 + (128 * (rounds + 1) + (128 + (2640 * rounds - 464)))) fun _ =>
        1 ≤ rounds ∧ 128 * (rounds + 1) < wireLimit := by
    refine .checked fun width hwidth => ?_
    unfold keyWidth at hwidth
    split at hwidth
    · cases hwidth
      exact lays_buildBinary fun x y out hy => lays_encrypt hy
    · cases hwidth
  obtain ⟨⟨hrounds, hfit⟩, hgains⟩ := hlays Circuit.constantFree_empty (exec_of_circuit h)
  have hgates : c.gates.size = 0 + (2640 * rounds - 336) := hgains.gates
  have hwires : c.wires.size = 0 + (128 + (128 * (rounds + 1) + (128 + (2640 * rounds - 464)))) :=
    hgains.wires
  exact ⟨hrounds, hfit, by omega, by omega⟩

end Request
end BitCircuit
