/-
# The values of wires

For given values of the inputs every wire of a circuit has a value: that of the last gate that
drives it (`Circuit.value`). An operation that grows a circuit does not change the values of
the wires it does not drive (`Circuit.Extends.value_eq`), and appending a gate changes the value of
one wire (`Circuit.value_pushGate`).

Key definitions: `Valuation`, `Gate.apply`, `runGates`, `Circuit.value`.
Key theorems: `Circuit.value_pushGate`, `Circuit.Extends.value_eq`, `Circuit.value_constant`,
`Circuit.value_input`.
-/
import Mathlib.Logic.Function.Basic
import BitCircuit.Proofs.WellFormed

namespace BitCircuit

/-- A value for each wire. -/
abbrev Valuation := Wire → Bool

/-- The values after a gate. -/
def Gate.apply (g : Gate) (v : Valuation) : Valuation :=
  Function.update v g.out (g.kind.eval (v g.x) (v g.y))

/-- The values after some gates, one after the other. -/
def runGates (gs : List Gate) (v : Valuation) : Valuation :=
  gs.foldl (fun v g => g.apply v) v

theorem Gate.apply_out (g : Gate) (v : Valuation) : g.apply v g.out = g.kind.eval (v g.x) (v g.y) := by
  simp [Gate.apply]

theorem Gate.apply_of_ne (g : Gate) (v : Valuation) {w : Wire} (h : w ≠ g.out) :
    g.apply v w = v w := by
  simp [Gate.apply, h]

theorem runGates_append (gs hs : List Gate) (v : Valuation) :
    runGates (gs ++ hs) v = runGates hs (runGates gs v) := by
  simp [runGates]

/-- A wire that no gate drives keeps its value. -/
theorem runGates_of_not_driven {w : Wire} : ∀ (gs : List Gate) (v : Valuation),
    (∀ g ∈ gs, g.out ≠ w) → runGates gs v w = v w
  | [], _, _ => rfl
  | g :: gs, v, h => by
    have ih := runGates_of_not_driven gs (g.apply v) fun g' hg' => h g' (List.mem_cons_of_mem g hg')
    rw [show runGates (g :: gs) v = runGates gs (g.apply v) from rfl, ih]
    exact g.apply_of_ne v (h g List.mem_cons_self).symm

/-- Gates on wires with `P` compute the same from values that agree on these wires. -/
theorem runGates_congr {P : Wire → Prop} : ∀ (gs : List Gate) (v v' : Valuation),
    (∀ g ∈ gs, P g.x ∧ P g.y) → (∀ w, P w → v w = v' w) →
    ∀ w, P w → runGates gs v w = runGates gs v' w
  | [], _, _, _, h => h
  | g :: gs, v, v', hP, h => by
    obtain ⟨hx, hy⟩ := hP g List.mem_cons_self
    refine runGates_congr gs (g.apply v) (g.apply v')
      (fun g' hg' => hP g' (List.mem_cons_of_mem g hg')) fun w hw => ?_
    by_cases he : w = g.out
    · rw [he, g.apply_out, g.apply_out, h g.x hx, h g.y hy]
    · rw [g.apply_of_ne v he, g.apply_of_ne v' he, h w hw]

/-- The value of a wire before the gates run: an input has the value `given`. -/
def WireState.start (given : Bool) : WireState → Bool
  | .input => given
  | .constant v => v
  | .undriven => false
  | .driven => false

namespace Circuit

variable {c c' : Circuit} {w : Wire} {input : Valuation}

/-- The values before the gates run. -/
def start (c : Circuit) (input : Valuation) : Valuation := fun w =>
  match c.state? w with
  | some s => s.start (input w)
  | none => false

/-- The values of the wires if the inputs have the values `input`. -/
def value (c : Circuit) (input : Valuation) : Valuation :=
  runGates c.gates.toList (c.start input)

theorem start_of_state {s : WireState} (h : c.state? w = some s) :
    c.start input w = s.start (input w) := by
  unfold start
  rw [h]

theorem value_given (hc : c.WellFormed) (h : c.Given w) : c.value input w = c.start input w := by
  refine runGates_of_not_driven _ _ fun g hg he => ?_
  exact hc.not_given_out hg (he ▸ h)

/-- An input has the value that is given for it. -/
theorem value_input (hc : c.WellFormed) (h : c.state? w = some .input) :
    c.value input w = input w := by
  rw [value_given hc (.inl h), start_of_state h]
  rfl

/-- A constant has its own value. -/
theorem value_constant {v : Bool} (hc : c.WellFormed) (h : c.state? w = some (.constant v)) :
    c.value input w = v := by
  rw [value_given hc (.inr ⟨v, h⟩), start_of_state h]
  rfl

/-- Driving a wire does not change what it starts with. -/
theorem start_eq_of_state (h : ∀ s, c.state? w = some s →
    c'.state? w = some s ∨ s = .undriven ∧ c'.state? w = some .driven) (hw : c.Allocated w) :
    c'.start input w = c.start input w := by
  obtain ⟨s, hs⟩ := allocated_iff.mp hw
  rcases h s hs with hs' | ⟨rfl, hs'⟩
  · rw [start_of_state hs, start_of_state hs']
  · rw [start_of_state hs, start_of_state hs']
    rfl

/-- **A wire keeps its value while other wires are driven.** -/
theorem Extends.value_eq {D : Set Wire} (h : c.Extends D c') (hc : c.WellFormed)
    (ha : c.Allocated w) (hw : w ∉ D) : c'.value input w = c.value input w := by
  obtain ⟨new, hnew, hout⟩ := h.gates
  unfold value
  rw [hnew, runGates_append, runGates_of_not_driven new]
  · refine runGates_congr (P := c.Allocated) _ _ _ (fun g hg => ?_) (fun w' hw' => ?_) w ha
    · obtain ⟨hx, hy, -⟩ := hc.gate_allocated hg
      exact ⟨hx, hy⟩
    · exact start_eq_of_state (h.state w') hw'
  · rintro g hg rfl
    rcases hout g hg with hd | hd
    · exact hw hd
    · exact hd ha

/-- A gate changes the value of the wire it drives. -/
theorem value_pushGate {g : Gate} (hg : c.requireGate g = .ok ()) :
    (c.pushGate g).value input = g.apply (c.value input) := by
  obtain ⟨-, -, hw⟩ := requireGate_eq_ok.mp hg
  have hstart : (c.pushGate g).start input = c.start input := by
    funext w
    by_cases ha : c.Allocated w
    · exact start_eq_of_state ((extends_pushGate (D := Set.univ) hg (Set.mem_univ _)).state w) ha
    · have hne : w ≠ g.out := fun he => ha (he ▸ hw.allocated)
      unfold start
      rw [state?_pushGate hw.allocated, if_neg hne]
  unfold value
  rw [hstart, show (c.pushGate g).gates.toList = c.gates.toList ++ [g] by simp [pushGate],
    runGates_append]
  rfl

end Circuit
end BitCircuit
