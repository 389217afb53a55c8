/-
# Circuits with two operands

A request for an operation on two operands registers their bundles and that of the result, and
appends the gates of the operation. If the operation drives the result with some function of the
operands, for all their values, then the finished circuit evaluates to that function
(`Request.buildBinary_computes`).

Key theorems: `Request.buildBinary_computes`, `Request.buildBinary_too_large`.
-/
import BitCircuit.Catalogue.Request
import BitCircuit.Proofs.Evaluation
import BitCircuit.Proofs.Live

namespace BitCircuit
namespace Circuit

variable {c : Circuit} {D : Set Wire} {b : Bundle}

/-- The wires of an input bundle carry what they are given. -/
theorem live_input (input : Valuation) (hc : c.WellFormed) (hb : b ∈ c.inputs) :
    c.Live input D b (b.map input) := by
  have hstate : ∀ w ∈ b, c.state? w = some .input := fun w hw =>
    (hc.input_iff w).mpr (List.mem_flatten.mpr ⟨b, hb, hw⟩)
  have hgiven : ∀ w ∈ b, c.Given w := fun w hw => .inl (hstate w hw)
  refine ⟨⟨fun w hw => ⟨(hgiven w hw).readable.allocated, .inr (hgiven w hw)⟩, ?_⟩,
    fun w hw => (hgiven w hw).readable⟩
  exact List.map_congr_left fun w hw => value_input hc (hstate w hw)

/-- The wires of an output bundle may be driven. -/
theorem vacant_output (hc : c.WellFormed) (hb : b ∈ c.outputs) : c.Vacant {w | w ∈ b} b := by
  have hmem : ∀ w ∈ b, w ∈ c.outputs.flatten := fun w hw => List.mem_flatten.mpr ⟨b, hb, hw⟩
  refine ⟨?_, fun w hw => hw, fun w hw => hc.writable w (List.mem_append_left _ (hmem w hw))⟩
  have hnodup := hc.nodup
  unfold registered at hnodup
  rw [List.nodup_append, List.nodup_append] at hnodup
  exact (List.nodup_flatten.mp hnodup.1.2.1).1 b hb

end Circuit

namespace Request

open Build

variable {a b n : Nat} {op : Bundle → Bundle → Bundle → Build Unit}

/-- A circuit of a request is what its recipe makes of an empty one. -/
theorem exec_of_circuit {r : Request} {c : Circuit} (h : r.circuit = .ok c) :
    r.build.exec .empty = (.ok (), c) := by
  rw [circuit] at h
  rcases hexec : r.build.exec .empty with ⟨result, c'⟩
  rw [hexec] at h
  cases result with
  | ok u => exact congrArg (Prod.mk _) (Except.ok.inj h)
  | error e => cases h

/-- The circuit before the gates of an operation are appended. -/
def operands (a b n : Nat) : Circuit :=
  ((Circuit.empty.withInput a).withInput b).withOutput n

theorem wellFormed_operands (a b n : Nat) : (operands a b n).WellFormed :=
  ((Circuit.wellFormed_empty.withInput a).withInput b).withOutput n

variable (op) in
theorem exec_buildBinary (ha : a < wireLimit) (hb : b < wireLimit) (hn : n < wireLimit) :
    ∃ x y out, x.length = a ∧ y.length = b ∧ out.length = n ∧
      (operands a b n).inputs = [x, y] ∧ (operands a b n).outputs = [out] ∧
      (buildBinary a b n op).exec .empty = (op x y out).exec (operands a b n) := by
  refine ⟨_, _, _, Circuit.length_nextBundle, Circuit.length_nextBundle, Circuit.length_nextBundle,
    rfl, rfl, ?_⟩
  unfold buildBinary
  rw [exec_bind, Circuit.exec_addInput, if_pos ha]
  dsimp only
  rw [exec_bind, Circuit.exec_addInput, if_pos hb]
  dsimp only
  rw [exec_bind, Circuit.exec_addOutput, if_pos hn]
  rfl

variable (n op) in
/-- An operand that is too wide for a bundle is refused. -/
theorem buildBinary_too_large (ha : a < wireLimit) (hb : ¬ b < wireLimit) :
    ((buildBinary a b n op).exec .empty).1 = .error (.tooLarge b) := by
  unfold buildBinary
  rw [exec_bind, Circuit.exec_addInput, if_pos ha]
  dsimp only
  rw [exec_bind, Circuit.exec_addInput, if_neg hb]

/-- **A circuit with two operands computes what its operation drives the result with.** -/
theorem buildBinary_computes {f : List Bool → List Bool → List Bool} (ha : a < wireLimit)
    (hb : b < wireLimit) (hn : n < wireLimit)
    (hop : ∀ (c : Circuit) (input : Valuation) (D : Set Wire) (x y out : Bundle) (as bs : List Bool),
      c.WellFormed → (∀ w ∈ D, c.Allocated w) → as.length = a → bs.length = b → out.length = n →
      c.Live input D x as → c.Live input D y bs → c.Vacant D out →
      (op x y out).Yields c fun _ c' => c.Drives input out (f as bs) c') :
    ∃ c, (buildBinary a b n op).exec .empty = (.ok (), c) ∧ ∀ as bs : List Bool,
      as.length = a → bs.length = b → c.evalBits [as, bs] = .ok [f as bs] := by
  obtain ⟨x, y, out, hx, hy, hout, hinputs, houtputs, hexec⟩ := exec_buildBinary op ha hb hn
  have hwf := wellFormed_operands a b n
  have hvacant := Circuit.vacant_output hwf (b := out) (by simp [houtputs])
  have hyields : ∀ input : Valuation, (op x y out).Yields (operands a b n) fun _ c' =>
      (operands a b n).Drives input out (f (x.map input) (y.map input)) c' := fun input =>
    hop _ input _ x y out _ _ hwf (fun w hw => (hvacant.writable w hw).allocated) (by simpa using hx)
      (by simpa using hy) hout (Circuit.live_input input hwf (by simp [hinputs]))
      (Circuit.live_input input hwf (by simp [hinputs])) hvacant
  -- the circuit is the same for all values of the operands
  obtain ⟨u, c, hop, -⟩ := hyields fun _ => false
  refine ⟨c, hexec.trans hop, fun as bs has hbs => ?_⟩
  have hlens : [as, bs].map List.length = (operands a b n).inputs.map List.length := by
    simp [hinputs, has, hbs, hx, hy]
  obtain ⟨input, hinput⟩ := Circuit.exists_input hwf hlens
  obtain ⟨u', c', hop', hdrive⟩ := hyields input
  obtain rfl : c = c' := congrArg Prod.snd (hop.symm.trans hop')
  have hread : ∀ w ∈ c.outputs.flatten, c.Readable w := by
    rw [hdrive.outputs, houtputs]
    simpa using hdrive.readable
  have heval := Circuit.evalBits_eq_value hdrive.wellFormed hread input
  obtain ⟨rfl, rfl⟩ : x.map input = as ∧ y.map input = bs := by
    simpa [hinputs] using hinput
  rw [hdrive.inputs, hinput, hdrive.outputs, houtputs, List.map_singleton, hdrive.values] at heval
  exact heval

end Request
end BitCircuit
