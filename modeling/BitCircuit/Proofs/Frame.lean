/-
# What an operation leaves alone

An operation on bundles is given the bundles of its results and a bundle of temporaries. Whether
it is refused on its way or not, the gates it appends drive only wires of these bundles and wires
that it allocated itself, so every other wire of the circuit keeps its value (`operation_frame`).
No operation registers an input or an output.

Key theorems: `Call.extends`, `operation_frame`.
-/
import BitCircuit.Proofs.Reachable
import BitCircuit.Proofs.Value

namespace BitCircuit

variable {c : Circuit}

/-- Growing by the work of an operation is kept by the steps that drive the wires of `D` and
wires that the circuit does not have. -/
theorem Circuit.upheld_extends (c : Circuit) (D : Set Wire) :
    Upheld (c.Extends D) {w | w ∈ D ∨ ¬ c.Allocated w} where
  step hs hc := hc.trans hs.extends fun _ hw => hw
  fresh hc hw := .inr fun ha => hw (hc.allocated ha)

/-- An operation drives, of the wires that are there, only those it is given to write to. -/
theorem Call.extends {call : Call} {written : List Bundle} (h : call.written? = some written)
    (c : Circuit) : c.Extends {w | ∃ b ∈ written, w ∈ b} (call.after c) := by
  have hkeeps := keeps_operation (c.upheld_extends {w | ∃ b ∈ written, w ∈ b}) h
    fun b hb w hw => .inl ⟨b, hb, hw⟩
  exact (hkeeps c (.refl c _)).1

/-- **An operation changes only what it is given to write to.** Each gate that it appends, also
if it is refused later on, drives a wire of its results or temporaries or one allocated during the
call; all other wires keep their values, and the registered inputs and outputs stay. -/
theorem operation_frame (h : Reachable c) {call : Call} {written : List Bundle}
    (hw : call.written? = some written) :
    (∃ new, (call.after c).gates.toList = c.gates.toList ++ new ∧
      ∀ g ∈ new, (∃ b ∈ written, g.out ∈ b) ∨
        ¬ c.Allocated g.out ∧ (call.after c).Allocated g.out) ∧
    (∀ (input : Valuation) (w : Wire), c.Allocated w → (∀ b ∈ written, w ∉ b) →
      (call.after c).value input w = c.value input w) ∧
    (call.after c).inputs = c.inputs ∧ (call.after c).outputs = c.outputs := by
  have hext := Call.extends hw c
  have hafter := call.wellFormed h.wellFormed
  refine ⟨?_, fun input w ha hout => ?_, hext.inputs, hext.outputs⟩
  · obtain ⟨new, hnew, hout⟩ := hext.gates
    refine ⟨new, hnew, fun g hg => (hout g hg).imp_right fun hfresh => ⟨hfresh, ?_⟩⟩
    exact (hafter.gate_allocated (hnew ▸ List.mem_append_right _ hg)).2.2
  · refine hext.value_eq h.wellFormed ha ?_
    rintro ⟨b, hb, hwb⟩
    exact hout b hb hwb

/-- A conjunction that is refused at its second bit, after a gate for the first one: the wire
next to it keeps its value. -/
theorem operation_frame_refused :
    ∃ (c : Circuit) (call : Call), Reachable c ∧
      (call.run.exec c).1 = .error (.unallocated ⟨9⟩) ∧
      (call.after c).gates = c.gates.push ⟨.and, ⟨0⟩, ⟨1⟩, ⟨3⟩⟩ ∧
      ∀ input : Valuation, (call.after c).value input ⟨2⟩ = c.value input ⟨2⟩ := by
  have h : Reachable (Call.afterAll
      [.addInput 2, .addOutput 1, .newWire, .gateTo .or ⟨0⟩ ⟨1⟩ ⟨2⟩]) :=
    reachable_afterAll (by simp [Call.template?])
  have hw : (Call.bitwise .and [⟨0⟩, ⟨1⟩] [⟨1⟩, ⟨0⟩] [⟨3⟩, ⟨9⟩] .unsigned).written? =
      some [[⟨3⟩, ⟨9⟩]] := rfl
  obtain ⟨-, hvalue, -⟩ := operation_frame h hw
  exact ⟨_, _, h, by decide +kernel, by decide +kernel,
    fun input => hvalue input ⟨2⟩ (by decide +kernel) (by simp)⟩

end BitCircuit
