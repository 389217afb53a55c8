/-
# What appending a gate does to the values of wires

In every circuit that can be built, a gate that is appended gives its result the value of its kind
on the values that were there before, whatever constants are folded on the way: the result may be a
new wire, a wire that was read or a constant, and a wire that is driven may be one of those that
are read. All other wires keep their values, also if the call is refused
(`appended_gates_compute`).

Key definitions: `Circuit.KeepsValues`.
Key theorems: `Build.Keeps.keepsValues`, `appended_gates_compute`.
-/
import BitCircuit.Proofs.Folding
import BitCircuit.Proofs.Frame

namespace BitCircuit

variable {c c' : Circuit}

/-- For all inputs the wires of `c`, except those in `D`, have the same values in `c'`. -/
def Circuit.KeepsValues (c : Circuit) (D : Set Wire) (c' : Circuit) : Prop :=
  ∀ (input : Valuation) (w : Wire), c.Allocated w → w ∉ D → c'.value input w = c.value input w

/-- A step that drives only wires in `D` and new ones leaves the other values alone, refused or
not. -/
theorem Build.Keeps.keepsValues {α : Type} {x : Build α} {Q : α → Prop} {D : Set Wire}
    (hc : c.WellFormed) (h : Build.Keeps (c.Extends D) x Q) : c.KeepsValues D (x.exec c).2 := by
  intro input w ha hw
  have hext : c.Extends D (x.exec c).2 := (h c (.refl c D)).1
  exact hext.value_eq hc ha hw

open Build in
/-- **A gate that is appended computes its kind and changes nothing else**, with constants folded
and also in place. -/
theorem appended_gates_compute (hc : Reachable c) (kind : GateKind) (x y out : Wire) :
    ((∀ w c', (gate kind x y).exec c = (.ok w, c') → ∀ input : Valuation,
        c'.value input w = kind.eval (c.value input x) (c.value input y)) ∧
      c.KeepsValues ∅ ((gate kind x y).exec c).2) ∧
    ((∀ w c', (inv x).exec c = (.ok w, c') → ∀ input : Valuation,
        c'.value input w = !c.value input x) ∧
      c.KeepsValues ∅ ((inv x).exec c).2) ∧
    ((∀ c', (gateTo kind x y out).exec c = (.ok (), c') → ∀ input : Valuation,
        c'.value input out = kind.eval (c.value input x) (c.value input y)) ∧
      c.KeepsValues {out} ((gateTo kind x y out).exec c).2) ∧
    ((∀ c', (invTo x out).exec c = (.ok (), c') → ∀ input : Valuation,
        c'.value input out = !c.value input x) ∧
      c.KeepsValues {out} ((invTo x out).exec c).2) ∧
    ((∀ c', (copyTo x out).exec c = (.ok (), c') → ∀ input : Valuation,
        c'.value input out = c.value input x) ∧
      c.KeepsValues {out} ((copyTo x out).exec c).2) := by
  have hwf := hc.wellFormed
  have hnew := c.upheld_extends ∅
  have hto := c.upheld_extends {out}
  have hout : out ∈ {w | w ∈ ({out} : Set Wire) ∨ ¬ c.Allocated w} := .inl rfl
  refine ⟨⟨fun w c' h => ?_, ?_⟩, ⟨fun w c' h => ?_, ?_⟩, ⟨fun c' h => ?_, ?_⟩, ⟨fun c' h => ?_, ?_⟩,
    fun c' h => ?_, ?_⟩
  · exact (gate_spec hwf h).value
  · exact (keeps_gate hnew).keepsValues hwf
  · exact (inv_spec hwf h).value
  · exact (keeps_inv hnew).keepsValues hwf
  · exact (gateTo_spec hwf h).value
  · exact (keeps_gateTo hto hout).keepsValues hwf
  · exact (invTo_spec hwf h).value
  · exact (keeps_invTo hto hout).keepsValues hwf
  · exact (copyTo_spec hwf h).value
  · exact (keeps_copyTo hto hout).keepsValues hwf

/-- A register that is updated in place with a constant: the difference from one folds to an
inverter, the conjunction with one is the register itself, and the inputs keep their values. -/
theorem appended_gates_compute_register :
    ∃ c c' : Circuit, Reachable c ∧ c.state? ⟨3⟩ = some (.constant true) ∧
      (Build.gateTo .xor ⟨2⟩ ⟨3⟩ ⟨2⟩).exec c = (.ok (), c') ∧
      c'.gates = c.gates.push ⟨.inv, ⟨2⟩, ⟨2⟩, ⟨2⟩⟩ ∧
      (∀ input : Valuation, c'.value input ⟨2⟩ = (c.value input ⟨2⟩ ^^ c.value input ⟨3⟩)) ∧
      (∀ input : Valuation, c'.value input ⟨0⟩ = c.value input ⟨0⟩) ∧
      (Build.gate .and ⟨2⟩ ⟨3⟩).exec c = (.ok ⟨2⟩, c) ∧
      ∀ input : Valuation, c.value input ⟨2⟩ = (c.value input ⟨2⟩ && c.value input ⟨3⟩) := by
  have hc : Reachable (Call.afterAll
      [.addInput 2, .addTemps 1, .constant true, .gateTo .or ⟨0⟩ ⟨1⟩ ⟨2⟩]) :=
    reachable_afterAll (by simp [Call.template?])
  have hxor : (Build.gateTo .xor ⟨2⟩ ⟨3⟩ ⟨2⟩).exec (Call.afterAll
      [.addInput 2, .addTemps 1, .constant true, .gateTo .or ⟨0⟩ ⟨1⟩ ⟨2⟩]) = (.ok (), _) := rfl
  have hand : (Build.gate .and ⟨2⟩ ⟨3⟩).exec (Call.afterAll
      [.addInput 2, .addTemps 1, .constant true, .gateTo .or ⟨0⟩ ⟨1⟩ ⟨2⟩]) = (.ok ⟨2⟩, _) := rfl
  obtain ⟨-, -, ⟨hvalue, hkept⟩, -⟩ := appended_gates_compute hc .xor ⟨2⟩ ⟨3⟩ ⟨2⟩
  obtain ⟨⟨hsame, -⟩, -⟩ := appended_gates_compute hc .and ⟨2⟩ ⟨3⟩ ⟨2⟩
  exact ⟨_, _, hc, by decide +kernel, hxor, by decide +kernel, hvalue _ hxor,
    fun input => hkept input ⟨0⟩ (by decide +kernel) (by simp), hand, hsame _ _ hand⟩

end BitCircuit
