/-
# The evaluator is well defined

The evaluator fills its table with `false` where a wire is neither an input nor a constant. No
gate ever sees this: whatever it reads is given, or a gate before it has driven it, so two tables
that agree on the given wires agree on every readable wire once the gates have run
(`Circuit.runGates_eq_value`). On a circuit that can be built the evaluator therefore returns a
result that does not depend on how the table was filled, it returns one exactly if the bits fit the
inputs and all outputs are driven, and what it refuses it refuses with an error for the caller
(`evaluator_well_defined`).

Key definitions: `Circuit.evalBitsFrom`, `Circuit.Initial`, `Circuit.Accepts`.
Key theorems: `Circuit.runGates_eq_value`, `Circuit.evalBitsFrom_eq_value`,
`Circuit.evalBits_cases`, `evaluator_well_defined`.
-/
import Mathlib.Data.List.Induction
import BitCircuit.Proofs.Evaluation
import BitCircuit.Proofs.Replay

namespace BitCircuit
namespace Circuit

variable {c : Circuit} {w : Wire} {initial : Array Bool} {inputs : List (List Bool)}

/-- The evaluator, started from any table instead of the one with `false` for all wires that have
no value yet. -/
def evalBitsFrom (c : Circuit) (initial : Array Bool) (inputs : List (List Bool)) :
    Except Error (List (List Bool)) := do
  if inputs.length ≠ c.inputs.length then
    throw (.bundleCount inputs.length c.inputs.length)
  c.outputs.flatten.forM c.requireReadable
  let values ← (c.inputs.zip inputs).foldlM bindInput initial
  let values ← c.gates.foldlM Gate.run values
  c.outputs.mapM fun b => b.mapM fun w => entry values w.index

theorem evalBitsFrom_initialValues (c : Circuit) (inputs : List (List Bool)) :
    c.evalBitsFrom c.initialValues inputs = c.evalBits inputs := rfl

/-- A table to start from: an entry for each wire, that of a constant being its value. -/
structure Initial (c : Circuit) (initial : Array Bool) : Prop where
  size : initial.size = c.wires.size
  constant : ∀ w b, c.state? w = some (.constant b) → initial[w.index]? = some b

theorem initial_initialValues (c : Circuit) : c.Initial c.initialValues := by
  refine ⟨by simp [initialValues], fun w b hw => ?_⟩
  unfold state? at hw
  cases b <;> simp [initialValues, hw]

/-! ### The gates see no filling -/

/-- A wire that has a value once the gates `gs` have run. -/
def HasValue (c : Circuit) (gs : List Gate) (w : Wire) : Prop :=
  c.Given w ∨ ∃ g ∈ gs, g.out = w

/-- **The gates compute the same from any two fillings.** Values that agree on the inputs and
constants agree, after any number of gates, on all wires that have a value by then. -/
theorem runGates_agree {v v' : Valuation} (hc : c.WellFormed)
    (h : ∀ w, c.Given w → v w = v' w) :
    ∀ gs : List Gate, gs <+: c.gates.toList →
      ∀ w, c.HasValue gs w → runGates gs v w = runGates gs v' w := by
  intro gs
  -- the induction adds the last gate: what it reads has a value before it
  induction gs using List.reverseRecOn with
  | nil =>
    intro _ w hw
    rcases hw with hgiven | ⟨g, hg, -⟩
    · exact h w hgiven
    · cases hg
  | append_singleton gs g ih =>
    intro hpre w hw
    have hbefore : gs <+: c.gates.toList := (List.prefix_append gs [g]).trans hpre
    have hreads : ∀ r ∈ [g.x, g.y], runGates gs v r = runGates gs v' r := by
      obtain ⟨after, hsplit⟩ := hpre
      intro r hr
      apply ih hbefore r
      apply hc.reads gs g after _ r hr
      rw [← hsplit, List.append_assoc, List.singleton_append]
    have hlast : ∀ u : Valuation, runGates (gs ++ [g]) u = g.apply (runGates gs u) := fun u =>
      runGates_append gs [g] u
    rw [hlast, hlast]
    by_cases he : w = g.out
    · rw [he, g.apply_out, g.apply_out, hreads g.x (by simp), hreads g.y (by simp)]
    · rw [g.apply_of_ne _ he, g.apply_of_ne _ he]
      apply ih hbefore w
      rcases hw with hgiven | ⟨g', hg', hout⟩
      · exact .inl hgiven
      · rcases List.mem_append.mp hg' with hg' | hg'
        · exact .inr ⟨g', hg', hout⟩
        · rw [List.mem_singleton.mp hg'] at hout
          exact absurd hout.symm he

/-- Values that agree with the circuit's own on the inputs and constants give every readable wire
its value. -/
theorem runGates_eq_value {v input : Valuation} (hc : c.WellFormed)
    (h : ∀ w, c.Given w → v w = c.start input w) (hw : c.Readable w) :
    runGates c.gates.toList v w = c.value input w := by
  apply runGates_agree hc h _ (List.prefix_refl _)
  rcases hw.given_or_driven with hgiven | hdriven
  · exact .inl hgiven
  · exact .inr ((hc.driven_iff w).mp hdriven)

/-! ### Bits that fit -/

/-- A table is that of its own entries. -/
theorem exists_eq_valueTable {α : Type} [Inhabited α] (table : Array α) :
    ∃ v : Wire → α, table = valueTable table.size v := by
  refine ⟨fun w => table.getD w.index default, ?_⟩
  apply Array.ext
  · simp [valueTable]
  · intro i h₁ h₂
    simp [valueTable, Array.getD]

/-- Once the inputs are bound, the inputs and constants have the values they start with. -/
theorem overwrite_of_given {v input : Valuation} (hc : c.WellFormed)
    (hinit : c.Initial (valueTable c.wires.size v)) (hw : c.Given w) :
    overwrite c.inputs.flatten input v w = c.start input w := by
  rcases hw with hin | ⟨b, hb⟩
  · have hmem : w ∈ c.inputs.flatten := (hc.input_iff w).mp hin
    rw [start_of_state hin]
    simp [overwrite, hmem, WireState.start]
  · have hmem : w ∉ c.inputs.flatten := fun hmem => by
      rw [(hc.input_iff w).mpr hmem] at hb
      cases hb
    have hlt : w.index < c.wires.size := allocated_iff.mpr ⟨_, hb⟩
    have hv : v w = b := by simpa [valueTable, hlt] using hinit.constant w b hb
    rw [start_of_state hb]
    simp [overwrite, hmem, hv, WireState.start]

/-- **From every table the evaluator returns the values of the output wires.** -/
theorem evalBitsFrom_eq_value (hc : c.WellFormed) (hinit : c.Initial initial)
    (hr : ∀ w ∈ c.outputs.flatten, c.Readable w) (input : Valuation) :
    c.evalBitsFrom initial (c.inputs.map fun b => b.map input) =
      .ok (c.outputs.map fun b => b.map (c.value input)) := by
  obtain ⟨v, hv⟩ := exists_eq_valueTable initial
  rw [hinit.size] at hv
  subst hv
  have hin : ∀ w ∈ c.inputs.flatten, w.index < c.wires.size := fun w hw =>
    allocated_iff.mpr ⟨_, (hc.input_iff w).mpr hw⟩
  let bound := overwrite c.inputs.flatten input v
  have hrun : c.gates.foldlM (fun values g => g.run values) (valueTable c.wires.size bound) =
      .ok (valueTable c.wires.size (runGates c.gates.toList bound)) := by
    rw [← Array.foldlM_toList]
    exact foldlM_run_valueTable _ _ fun g hg => hc.gate_allocated hg
  have hread : (c.outputs.mapM fun b => b.mapM fun w =>
      entry (valueTable c.wires.size (runGates c.gates.toList bound)) w.index) =
      .ok (c.outputs.map fun b => b.map (c.value input)) := by
    apply mapM_eq_ok
    intro b hb
    apply mapM_eq_ok
    intro w hw
    have hw' : c.Readable w := hr w (List.mem_flatten.mpr ⟨b, hb, hw⟩)
    rw [entry_valueTable hw'.allocated, runGates_eq_value hc (fun _ => overwrite_of_given hc hinit) hw']
  unfold evalBitsFrom
  rw [if_neg (by simp), forM_eq_ok.mpr hr, foldlM_bindInput_valueTable c.inputs v hin]
  simp only [bind, Except.bind]
  rw [hrun]
  exact hread

/-! ### What is refused -/

/-- The circuit can be evaluated on these bits: they have the number and the widths of its inputs,
and a gate drives each wire of its outputs. -/
def Accepts (c : Circuit) (inputs : List (List Bool)) : Prop :=
  inputs.map List.length = c.inputs.map List.length ∧
    ∀ b ∈ c.outputs, ∀ w ∈ b, ∃ g ∈ c.gates, g.out = w

/-- An output wire has a value exactly if a gate drives it. -/
theorem readable_output_iff (hc : c.WellFormed) (hw : w ∈ c.outputs.flatten) :
    c.Readable w ↔ ∃ g ∈ c.gates, g.out = w := by
  have hwritable : c.Writable w := hc.writable w (List.mem_append_left _ hw)
  have hdriven : (∃ g ∈ c.gates, g.out = w) ↔ c.state? w = some .driven := by
    rw [hc.driven_iff]
    simp only [Array.mem_toList_iff]
  rw [hdriven]
  constructor
  · intro hr
    rcases hr.given_or_driven with hgiven | hd
    · exact absurd hwritable hgiven.not_writable
    · exact hd
  · intro hd
    exact readable_iff.mpr ⟨_, hd, by simp⟩

theorem accepts_iff (hc : c.WellFormed) : c.Accepts inputs ↔
    inputs.map List.length = c.inputs.map List.length ∧ ∀ w ∈ c.outputs.flatten, c.Readable w := by
  refine and_congr_right fun _ => ?_
  constructor
  · intro h w hw
    obtain ⟨b, hb, hwb⟩ := List.mem_flatten.mp hw
    exact (readable_output_iff hc hw).mpr (h b hb w hwb)
  · intro h b hb w hwb
    have hw : w ∈ c.outputs.flatten := List.mem_flatten.mpr ⟨b, hb, hwb⟩
    exact (readable_output_iff hc hw).mp (h w hw)

theorem not_isFault_of_requireReadable {e : Error} (h : c.requireReadable w = .error e) :
    e.isFault = false := by
  unfold requireReadable at h
  split at h <;> cases h <;> rfl

/-- Bits of another width than the bundle's are refused, with the same report from every table, and no
position is missed before that. -/
theorem foldlM_bindInput_of_width_ne : ∀ (bs : List Bundle) (inputs : List (List Bool)),
    inputs.length = bs.length → bs.flatten.Nodup → inputs.map List.length ≠ bs.map List.length →
    ∃ got needed, ∀ (n : Nat) (v : Valuation), (∀ w ∈ bs.flatten, w.index < n) →
      (bs.zip inputs).foldlM bindInput (valueTable n v) = .error (.widthMismatch got needed)
  | [], [], _, _, hne => absurd rfl hne
  | b :: bs, bits :: inputs, hcount, hnodup, hne => by
    rw [List.flatten_cons] at hnodup ⊢
    by_cases hwidth : bits.length = b.length
    · obtain ⟨input, rfl⟩ := exists_valuation b bits hnodup.of_append_left hwidth
      have hrest : inputs.map List.length ≠ bs.map List.length := fun he =>
        hne (by rw [List.map_cons, List.map_cons, he, hwidth])
      obtain ⟨got, needed, hbind⟩ :=
        foldlM_bindInput_of_width_ne bs inputs (Nat.succ.inj hcount) hnodup.of_append_right hrest
      refine ⟨got, needed, fun n v hlt => ?_⟩
      rw [List.zip_cons_cons, List.foldlM_cons,
        bindInput_valueTable fun w hw => hlt w (List.mem_append_left _ hw)]
      exact hbind n _ fun w hw => hlt w (List.mem_append_right _ hw)
    · refine ⟨bits.length, b.length, fun n v _ => ?_⟩
      rw [List.zip_cons_cons, List.foldlM_cons]
      unfold bindInput
      simp [hwidth, bind, Except.bind, throw, throwThe, MonadExceptOf.throw]

/-- **Every evaluation has a result or is refused with an error for the caller.** It has one exactly
if the circuit accepts the bits. -/
theorem evalBits_cases (hc : c.WellFormed) (inputs : List (List Bool)) :
    (c.Accepts inputs ∧ ∃ out, c.evalBits inputs = .ok out) ∨
      (¬ c.Accepts inputs ∧ ∃ e, c.evalBits inputs = .error e ∧ e.isFault = false) := by
  rw [accepts_iff hc]
  by_cases hcount : inputs.length = c.inputs.length
  case neg =>
    refine .inr ⟨fun h => hcount (by simpa using congrArg List.length h.1), ?_⟩
    refine ⟨.bundleCount inputs.length c.inputs.length, ?_, rfl⟩
    unfold evalBits
    rw [if_pos hcount]
    rfl
  by_cases hread : ∀ w ∈ c.outputs.flatten, c.Readable w
  case neg =>
    refine .inr ⟨fun h => hread h.2, ?_⟩
    cases hforM : c.outputs.flatten.forM c.requireReadable with
    | ok u => exact absurd (forM_eq_ok.mp hforM) hread
    | error e =>
      obtain ⟨w, -, hw⟩ := exists_of_forM_eq_error hforM
      refine ⟨e, ?_, not_isFault_of_requireReadable hw⟩
      unfold evalBits
      rw [if_neg (not_not.mpr hcount), hforM]
      rfl
  by_cases hwidths : inputs.map List.length = c.inputs.map List.length
  · obtain ⟨input, rfl⟩ := exists_input hc hwidths
    exact .inl ⟨⟨hwidths, hread⟩, _, evalBits_eq_value hc hread input⟩
  · refine .inr ⟨fun h => hwidths h.1, ?_⟩
    obtain ⟨v, hv⟩ := exists_eq_valueTable c.initialValues
    have hsize : c.initialValues.size = c.wires.size := (initial_initialValues c).size
    have hnodup : c.inputs.flatten.Nodup := hc.nodup.of_append_left.of_append_left
    have hlt : ∀ w ∈ c.inputs.flatten, w.index < c.initialValues.size := fun w hw =>
      hsize ▸ allocated_iff.mpr ⟨_, (hc.input_iff w).mpr hw⟩
    obtain ⟨got, needed, hbind⟩ := foldlM_bindInput_of_width_ne c.inputs inputs hcount hnodup hwidths
    refine ⟨.widthMismatch got needed, ?_, rfl⟩
    unfold evalBits
    rw [if_neg (not_not.mpr hcount), forM_eq_ok.mpr hread, hv, hbind _ v hlt]
    rfl

end Circuit

/-- **The evaluator is well defined.** On every circuit that can be built and for all bits, no
position is missed; there is a result exactly if the bits have the number and the widths of the
inputs and all outputs are driven; and this result is the same from every table that the wires which
are neither inputs nor constants may be filled with at the start. -/
theorem evaluator_well_defined {c : Circuit} (hc : Reachable c) (inputs : List (List Bool)) :
    (∀ e, c.evalBits inputs = .error e → e.isFault = false) ∧
      ((∃ out, c.evalBits inputs = .ok out) ↔ c.Accepts inputs) ∧
      ∀ out, c.evalBits inputs = .ok out →
        ∀ initial, c.Initial initial → c.evalBitsFrom initial inputs = .ok out := by
  have hwf : c.WellFormed := hc.wellFormed
  have hcases := c.evalBits_cases hwf inputs
  have hiff : (∃ out, c.evalBits inputs = .ok out) ↔ c.Accepts inputs := by
    rcases hcases with ⟨haccepts, hout⟩ | ⟨hrefused, e, he, -⟩
    · exact ⟨fun _ => haccepts, fun _ => hout⟩
    · refine ⟨fun ⟨out, hout⟩ => ?_, fun h => absurd h hrefused⟩
      rw [he] at hout
      cases hout
  refine ⟨fun e he => ?_, hiff, fun out hout initial hinit => ?_⟩
  · rcases hcases with ⟨-, out, hout⟩ | ⟨-, e', he', hfault⟩
    · rw [hout] at he
      cases he
    · rw [he'] at he
      cases he
      exact hfault
  · obtain ⟨hwidths, hread⟩ := (Circuit.accepts_iff hwf).mp (hiff.mp ⟨out, hout⟩)
    obtain ⟨input, rfl⟩ := Circuit.exists_input hwf hwidths
    rw [← hout, Circuit.evalBitsFrom_eq_value hwf hinit hread, Circuit.evalBits_eq_value hwf hread]

/-- A temporary is driven twice and read in between, after a call that would read it too early and
is refused: the output is the input, whatever the temporary holds at the start. -/
theorem evaluator_well_defined_temporary :
    ∃ c : Circuit, Reachable c ∧ c.temps = [[⟨1⟩]] ∧ c.evalBits [[true]] = .ok [[true]] ∧
      ∀ initial, c.Initial initial → c.evalBitsFrom initial [[true]] = .ok [[true]] := by
  have h : Reachable (Call.afterAll [.addInput 1, .addTemps 1, .addOutput 1, .copyTo ⟨1⟩ ⟨2⟩,
      .copyTo ⟨0⟩ ⟨1⟩, .copyTo ⟨1⟩ ⟨2⟩, .invTo ⟨0⟩ ⟨1⟩]) :=
    reachable_afterAll (by simp [Call.template?])
  have hout : (Call.afterAll [.addInput 1, .addTemps 1, .addOutput 1, .copyTo ⟨1⟩ ⟨2⟩,
      .copyTo ⟨0⟩ ⟨1⟩, .copyTo ⟨1⟩ ⟨2⟩, .invTo ⟨0⟩ ⟨1⟩]).evalBits [[true]] = .ok [[true]] := by
    decide +kernel
  exact ⟨_, h, by decide +kernel, hout, (evaluator_well_defined h [[true]]).2.2 _ hout⟩

end BitCircuit
