/-
# Well-formed circuits

What holds of every circuit that can be built (`Circuit.WellFormed`): each gate reads inputs,
constants and wires that a gate before it drives; a wire counts as driven exactly if a gate
drives it; there is one constant wire for each value that was asked for; the input wires are
those of the registered input bundles; and no wire is registered twice.

Building changes a circuit in few ways. `Circuit.Step free` lists what the steps of an
operation do, with `free` the wires they may drive; besides, inputs and outputs are registered
(`Circuit.withInput`, `Circuit.withOutput`). Each of these changes keeps a circuit
well formed and only adds to it: `Circuit.Grows` says what stays, `Circuit.Extends` also which
wires of the old circuit are driven anew.

Key definitions: `Circuit.WellFormed`, `Circuit.Grows`, `Circuit.Extends`, `Circuit.Step`.
Key theorems: `Circuit.Step.wellFormed`, `Circuit.Step.extends`, `Circuit.Extends.trans`.
-/
import Mathlib.Data.Set.Insert
import Mathlib.Data.List.Nodup
import Mathlib.Tactic.Common
import BitCircuit.Proofs.Execution

namespace BitCircuit

/-- A gate with one input has it in both places. -/
def Gate.RepeatsInput (g : Gate) : Prop := g.kind.isUnary = true → g.x = g.y

namespace Circuit

variable {c c' : Circuit} {w : Wire}

/-! ### What a wire is good for -/

/-- The wire belongs to the circuit. -/
def Allocated (c : Circuit) (w : Wire) : Prop := w.index < c.wires.size

instance (c : Circuit) (w : Wire) : Decidable (c.Allocated w) :=
  inferInstanceAs (Decidable (_ < _))

/-- A gate may read the wire. -/
def Readable (c : Circuit) (w : Wire) : Prop := c.requireReadable w = .ok ()

/-- A gate may drive the wire. -/
def Writable (c : Circuit) (w : Wire) : Prop := c.requireWritable w = .ok ()

instance (c : Circuit) (w : Wire) : Decidable (c.Readable w) :=
  inferInstanceAs (Decidable (_ = _))

instance (c : Circuit) (w : Wire) : Decidable (c.Writable w) :=
  inferInstanceAs (Decidable (_ = _))

/-- The wire has its value from outside or for good, not from a gate. -/
def Given (c : Circuit) (w : Wire) : Prop :=
  c.state? w = some .input ∨ ∃ v, c.state? w = some (.constant v)

theorem allocated_iff : c.Allocated w ↔ ∃ s, c.state? w = some s := by
  unfold Allocated state?
  constructor
  · intro h
    exact ⟨_, Array.getElem?_eq_getElem h⟩
  · rintro ⟨s, hs⟩
    exact (Array.getElem?_eq_some_iff.mp hs).1

theorem readable_iff : c.Readable w ↔ ∃ s, c.state? w = some s ∧ s ≠ .undriven := by
  unfold Readable requireReadable
  cases hs : c.state? w with
  | none => simp
  | some s => cases s <;> simp

theorem writable_iff :
    c.Writable w ↔ c.state? w = some .undriven ∨ c.state? w = some .driven := by
  unfold Writable requireWritable
  cases hs : c.state? w with
  | none => simp
  | some s => cases s <;> simp

theorem Readable.allocated (h : c.Readable w) : c.Allocated w := by
  obtain ⟨s, hs, -⟩ := readable_iff.mp h
  exact allocated_iff.mpr ⟨s, hs⟩

theorem Writable.allocated (h : c.Writable w) : c.Allocated w := by
  rcases writable_iff.mp h with hs | hs
  · exact allocated_iff.mpr ⟨_, hs⟩
  · exact allocated_iff.mpr ⟨_, hs⟩

theorem Given.readable (h : c.Given w) : c.Readable w := by
  rcases h with hs | ⟨v, hs⟩
  · exact readable_iff.mpr ⟨_, hs, by simp⟩
  · exact readable_iff.mpr ⟨_, hs, by simp⟩

theorem Given.not_writable (h : c.Given w) : ¬ c.Writable w := by
  rw [writable_iff]
  rcases h with hs | ⟨v, hs⟩
  · simp [hs]
  · simp [hs]

/-- A readable wire is given or driven. -/
theorem Readable.given_or_driven (h : c.Readable w) : c.Given w ∨ c.state? w = some .driven := by
  obtain ⟨s, hs, hne⟩ := readable_iff.mp h
  cases s with
  | input => exact .inl (.inl hs)
  | constant v => exact .inl (.inr ⟨v, hs⟩)
  | undriven => exact absurd rfl hne
  | driven => exact .inr hs

theorem requireGate_eq_ok {g : Gate} :
    c.requireGate g = .ok () ↔ c.Readable g.x ∧ c.Readable g.y ∧ c.Writable g.out := by
  unfold requireGate Readable Writable
  cases c.requireReadable g.x with
  | error e => simp [bind, Except.bind]
  | ok u => cases c.requireReadable g.y <;> simp [bind, Except.bind]

theorem constantValue?_eq_some {v : Bool} :
    c.constantValue? w = some v ↔ c.state? w = some (.constant v) := by
  unfold constantValue?
  cases hs : c.state? w with
  | none => simp
  | some s => cases s <;> simp

/-! ### The states after a change -/

/-- The circuit with an input bundle of `n` wires more. -/
def withInput (c : Circuit) (n : Nat) : Circuit :=
  { c.addWires .input n with inputs := c.inputs ++ [c.nextBundle n] }

/-- The circuit with an output bundle of `n` wires more. -/
def withOutput (c : Circuit) (n : Nat) : Circuit :=
  { c.addWires .undriven n with outputs := c.outputs ++ [c.nextBundle n] }

/-- The circuit with a bundle of `n` temporaries more. -/
def withTemps (c : Circuit) (n : Nat) : Circuit :=
  { c.addWires .undriven n with temps := c.temps ++ [c.nextBundle n] }

/-- Wires that are allocated and registered at once. -/
theorem exec_register (s : WireState) (n : Nat) (f : Bundle → Circuit → Circuit) (c : Circuit) :
    (Build.allocate s n >>= fun b => modify (f b) >>= fun _ => pure b).exec c =
      if n < wireLimit then (.ok (c.nextBundle n), f (c.nextBundle n) (c.addWires s n))
      else (.error (.tooLarge n), c) := by
  rw [Build.exec_bind, Build.exec_allocate]
  by_cases h : n < wireLimit
  · rw [if_pos h, if_pos h]
    rfl
  · rw [if_neg h, if_neg h]

theorem exec_addInput (n : Nat) (c : Circuit) :
    (Build.addInput n).exec c =
      if n < wireLimit then (.ok (c.nextBundle n), c.withInput n) else (.error (.tooLarge n), c) :=
  exec_register .input n _ c

theorem exec_addOutput (n : Nat) (c : Circuit) :
    (Build.addOutput n).exec c =
      if n < wireLimit then (.ok (c.nextBundle n), c.withOutput n) else (.error (.tooLarge n), c) :=
  exec_register .undriven n _ c

theorem exec_addTemps (n : Nat) (c : Circuit) :
    (Build.addTemps n).exec c =
      if n < wireLimit then (.ok (c.nextBundle n), c.withTemps n) else (.error (.tooLarge n), c) :=
  exec_register .undriven n _ c

/-- A bundle that was made is of the next wires, and its width is one that a bundle can have. -/
theorem eq_nextBundle_of_eq_ok {c₁ : Circuit} {n : Nat} {b : Bundle} {step : Build Bundle}
    (hstep : step.exec c =
      if n < wireLimit then (.ok (c.nextBundle n), c₁) else (.error (.tooLarge n), c))
    (h : step.exec c = (.ok b, c')) : n < wireLimit ∧ b = c.nextBundle n ∧ c' = c₁ := by
  rw [hstep] at h
  split at h
  · rename_i hn
    cases h
    exact ⟨hn, rfl, rfl⟩
  · cases h

section
variable {n : Nat} {b : Bundle}

theorem newBundle_eq_ok (h : (Build.newBundle n).exec c = (.ok b, c')) :
    n < wireLimit ∧ b = c.nextBundle n ∧ c' = c.addWires .undriven n :=
  eq_nextBundle_of_eq_ok (Build.exec_allocate .undriven n c) h

theorem addInput_eq_ok (h : (Build.addInput n).exec c = (.ok b, c')) :
    n < wireLimit ∧ b = c.nextBundle n ∧ c' = c.withInput n :=
  eq_nextBundle_of_eq_ok (exec_addInput n c) h

theorem addOutput_eq_ok (h : (Build.addOutput n).exec c = (.ok b, c')) :
    n < wireLimit ∧ b = c.nextBundle n ∧ c' = c.withOutput n :=
  eq_nextBundle_of_eq_ok (exec_addOutput n c) h

theorem addTemps_eq_ok (h : (Build.addTemps n).exec c = (.ok b, c')) :
    n < wireLimit ∧ b = c.nextBundle n ∧ c' = c.withTemps n :=
  eq_nextBundle_of_eq_ok (exec_addTemps n c) h

end

theorem mem_nextBundle {n : Nat} :
    w ∈ c.nextBundle n ↔ ¬ c.Allocated w ∧ w.index < c.wires.size + n := by
  unfold nextBundle Allocated
  simp only [List.mem_map, List.mem_range'_1]
  constructor
  · rintro ⟨i, hi, rfl⟩
    exact ⟨Nat.not_lt.mpr hi.1, hi.2⟩
  · intro h
    exact ⟨w.index, ⟨Nat.not_lt.mp h.1, h.2⟩, rfl⟩

theorem nodup_nextBundle {n : Nat} : (c.nextBundle n).Nodup := by
  unfold nextBundle
  refine List.Nodup.map ?_ List.nodup_range'
  intro i j h
  exact Wire.mk.inj h

@[simp] theorem length_nextBundle {n : Nat} : (c.nextBundle n).length = n := by
  simp [nextBundle]

theorem state?_addWires {s : WireState} {n : Nat} :
    (c.addWires s n).state? w =
      if w ∈ c.nextBundle n then some s else c.state? w := by
  have hm := mem_nextBundle (c := c) (w := w) (n := n)
  unfold Allocated at hm
  unfold addWires state?
  simp only [hm]
  rw [Array.getElem?_append]
  by_cases h : w.index < c.wires.size
  · simp [h]
  · by_cases h' : w.index < c.wires.size + n
    · have : w.index - c.wires.size < n := by omega
      simp [h, h', this]
    · have : ¬ w.index - c.wires.size < n := by omega
      simp [h, h', this]

theorem addWire_eq {s : WireState} : c.addWire s = c.addWires s 1 := by
  unfold addWire addWires
  rw [Array.push_eq_append]
  rfl

theorem nextBundle_one : c.nextBundle 1 = [c.nextWire] := rfl

theorem state?_addWire {s : WireState} :
    (c.addWire s).state? w = if w = c.nextWire then some s else c.state? w := by
  rw [addWire_eq, state?_addWires, nextBundle_one]
  simp

theorem state?_addConstant {v : Bool} :
    (c.addConstant v).state? w =
      if w = c.nextWire then some (.constant v) else c.state? w := by
  rw [← state?_addWire]
  cases v <;> rfl

theorem not_allocated_nextWire : ¬ c.Allocated c.nextWire := by
  simp [Allocated, nextWire]

theorem state?_eq_none : c.state? w = none ↔ ¬ c.Allocated w := by
  rw [allocated_iff]
  cases c.state? w <;> simp

theorem constantWire?_addConstant {v b : Bool} :
    (c.addConstant v).constantWire? b = if b = v then some c.nextWire else c.constantWire? b := by
  cases v <;> cases b <;> rfl

theorem state?_pushGate {g : Gate} (h : c.Allocated g.out) :
    (c.pushGate g).state? w = if w = g.out then some .driven else c.state? w := by
  unfold pushGate state?
  simp only
  by_cases hw : w = g.out
  · subst hw
    rw [if_pos rfl, Array.getElem?_setIfInBounds_self_of_lt h]
  · have hne : g.out.index ≠ w.index := by
      intro he
      apply hw
      cases w
      cases hg : g.out
      simp_all
    rw [if_neg hw, Array.getElem?_setIfInBounds_ne hne]

/-! ### What stays when a circuit grows -/

/-- Nothing is taken away: gates and registered bundles are only appended, and a wire changes
its state at most from undriven to driven. -/
structure Grows (c c' : Circuit) : Prop where
  state : ∀ w s, c.state? w = some s →
    c'.state? w = some s ∨ s = .undriven ∧ c'.state? w = some .driven
  gates : c.gates.toList <+: c'.gates.toList
  inputs : c.inputs <+: c'.inputs
  outputs : c.outputs <+: c'.outputs
  temps : c.temps <+: c'.temps

theorem Grows.refl (c : Circuit) : c.Grows c :=
  ⟨fun _ _ h => .inl h, List.prefix_refl _, List.prefix_refl _, List.prefix_refl _,
    List.prefix_refl _⟩

theorem Grows.trans {c₁ : Circuit} (h : c.Grows c₁) (h' : c₁.Grows c') : c.Grows c' := by
  refine ⟨fun w s hs => ?_, h.gates.trans h'.gates, h.inputs.trans h'.inputs,
    h.outputs.trans h'.outputs, h.temps.trans h'.temps⟩
  rcases h.state w s hs with hs₁ | ⟨rfl, hs₁⟩
  · exact h'.state w s hs₁
  · rcases h'.state w _ hs₁ with hs₂ | ⟨hd, -⟩
    · exact .inr ⟨rfl, hs₂⟩
    · cases hd

/-- A wire that is no constant does not become one. -/
theorem Grows.constantValue? (h : c.Grows c') (ha : c.Allocated w) (hw : c.constantValue? w = none) :
    c'.constantValue? w = none := by
  obtain ⟨s, hs⟩ := allocated_iff.mp ha
  have hne : ∀ v, s ≠ .constant v := by
    rintro v rfl
    rw [constantValue?_eq_some.mpr hs] at hw
    cases hw
  cases hv : c'.constantValue? w with
  | none => rfl
  | some v =>
    have hs' := constantValue?_eq_some.mp hv
    rcases h.state w s hs with h' | ⟨-, h'⟩
    · exact absurd (Option.some.inj (h'.symm.trans hs')) (hne v)
    · cases h'.symm.trans hs'

/-- The circuit grows by the work of an operation: inputs and outputs stay as they are, and of
the wires that were there only those in `D` are driven. -/
structure Extends (c : Circuit) (D : Set Wire) (c' : Circuit) : Prop where
  state : ∀ w s, c.state? w = some s →
    c'.state? w = some s ∨ s = .undriven ∧ c'.state? w = some .driven
  gates : ∃ new, c'.gates.toList = c.gates.toList ++ new ∧
    ∀ g ∈ new, g.out ∈ D ∨ ¬ c.Allocated g.out
  inputs : c'.inputs = c.inputs
  outputs : c'.outputs = c.outputs
  temps : c.temps <+: c'.temps

namespace Extends

variable {D D' : Set Wire} {c₁ : Circuit}

theorem refl (c : Circuit) (D : Set Wire) : c.Extends D c :=
  ⟨fun _ _ h => .inl h, ⟨[], by simp⟩, rfl, rfl, List.prefix_refl _⟩

theorem grows (h : c.Extends D c') : c.Grows c' := by
  obtain ⟨new, hnew, -⟩ := h.gates
  exact ⟨h.state, ⟨new, hnew.symm⟩, h.inputs ▸ List.prefix_refl _, h.outputs ▸ List.prefix_refl _,
    h.temps⟩

theorem allocated (h : c.Extends D c') (hw : c.Allocated w) : c'.Allocated w := by
  obtain ⟨s, hs⟩ := allocated_iff.mp hw
  rcases h.state w s hs with hs' | ⟨-, hs'⟩
  · exact allocated_iff.mpr ⟨_, hs'⟩
  · exact allocated_iff.mpr ⟨_, hs'⟩

theorem readable (h : c.Extends D c') (hw : c.Readable w) : c'.Readable w := by
  obtain ⟨s, hs, hne⟩ := readable_iff.mp hw
  rcases h.state w s hs with hs' | ⟨rfl, -⟩
  · exact readable_iff.mpr ⟨s, hs', hne⟩
  · exact absurd rfl hne

theorem writable (h : c.Extends D c') (hw : c.Writable w) : c'.Writable w := by
  rcases writable_iff.mp hw with hs | hs
  · rcases h.state w _ hs with hs' | ⟨-, hs'⟩
    · exact writable_iff.mpr (.inl hs')
    · exact writable_iff.mpr (.inr hs')
  · rcases h.state w _ hs with hs' | ⟨hd, -⟩
    · exact writable_iff.mpr (.inr hs')
    · cases hd

/-- A second operation may drive what the first one allowed and what it allocated. -/
theorem trans (h : c.Extends D c₁) (h' : c₁.Extends D' c')
    (hD : ∀ w ∈ D', w ∈ D ∨ ¬ c.Allocated w) : c.Extends D c' := by
  refine ⟨(h.grows.trans h'.grows).state, ?_, h'.inputs.trans h.inputs, h'.outputs.trans h.outputs,
    h.temps.trans h'.temps⟩
  obtain ⟨new, hnew, hout⟩ := h.gates
  obtain ⟨new', hnew', hout'⟩ := h'.gates
  refine ⟨new ++ new', by rw [hnew', hnew, List.append_assoc], fun g hg => ?_⟩
  rcases List.mem_append.mp hg with hg | hg
  · exact hout g hg
  · rcases hout' g hg with hg | hg
    · exact hD g.out hg
    · exact .inr fun ha => hg (h.allocated ha)

theorem mono (h : c.Extends D c') (hD : D ⊆ D') : c.Extends D' c' := by
  obtain ⟨new, hnew, hout⟩ := h.gates
  exact ⟨h.state, ⟨new, hnew, fun g hg => (hout g hg).imp_left fun hd => hD hd⟩, h.inputs, h.outputs,
    h.temps⟩

end Extends

/-! ### The changes -/

/-- The gate does not read a constant, or only copies it. -/
def Simplified (c : Circuit) (g : Gate) : Prop :=
  g.kind = .copy ∨ c.constantValue? g.x = none ∧ c.constantValue? g.y = none

/-- What the steps of an operation do to a circuit, driving only wires in `free`. -/
inductive Step (free : Set Wire) : Circuit → Circuit → Prop
  /-- Wires are allocated. -/
  | wires {c : Circuit} (n : Nat) : Step free c (c.addWires .undriven n)
  /-- Temporaries are allocated and registered. -/
  | temps {c : Circuit} (n : Nat) : Step free c (c.withTemps n)
  /-- A constant is allocated that was not there. -/
  | constant {c : Circuit} (v : Bool) : c.constantWire? v = none → Step free c (c.addConstant v)
  /-- A gate is appended that passes the check, with no constant left to fold. -/
  | gate {c : Circuit} (g : Gate) :
    c.requireGate g = .ok () → c.Simplified g → g.RepeatsInput → g.out ∈ free →
      Step free c (c.pushGate g)

theorem state?_addWires_of_allocated {s : WireState} {n : Nat} (h : c.Allocated w) :
    (c.addWires s n).state? w = c.state? w := by
  rw [state?_addWires, if_neg fun hm => (mem_nextBundle.mp hm).1 h]

theorem state?_addConstant_of_allocated {v : Bool} (h : c.Allocated w) :
    (c.addConstant v).state? w = c.state? w := by
  rw [state?_addConstant, if_neg fun he => not_allocated_nextWire (he ▸ h)]

theorem addConstant_eq (v : Bool) : (c.addConstant v).gates = c.gates ∧
    (c.addConstant v).inputs = c.inputs ∧ (c.addConstant v).outputs = c.outputs ∧
    (c.addConstant v).temps = c.temps := by
  cases v <;> exact ⟨rfl, rfl, rfl, rfl⟩

/-- Old wires keep their state when wires are allocated. -/
theorem state_addWires {s t : WireState} {n : Nat} (h : c.state? w = some t) :
    (c.addWires s n).state? w = some t :=
  (state?_addWires_of_allocated (allocated_iff.mpr ⟨t, h⟩)).trans h

theorem extends_addWires (D : Set Wire) (n : Nat) : c.Extends D (c.addWires .undriven n) :=
  ⟨fun _ _ hs => .inl (state_addWires hs), ⟨[], by simp [addWires]⟩, rfl, rfl, List.prefix_refl _⟩

theorem extends_withTemps (D : Set Wire) (n : Nat) : c.Extends D (c.withTemps n) :=
  ⟨fun _ _ hs => .inl (state_addWires hs), ⟨[], by simp [withTemps, addWires]⟩, rfl, rfl,
    List.prefix_append _ _⟩

theorem extends_addConstant (D : Set Wire) (v : Bool) : c.Extends D (c.addConstant v) := by
  obtain ⟨hg, hi, ho, ht⟩ := addConstant_eq (c := c) v
  refine ⟨fun w s hs => .inl ?_, ⟨[], by simp [hg]⟩, hi, ho, ht ▸ List.prefix_refl _⟩
  rw [state?_addConstant_of_allocated (allocated_iff.mpr ⟨s, hs⟩), hs]

theorem extends_pushGate {D : Set Wire} {g : Gate} (hg : c.requireGate g = .ok ())
    (hD : g.out ∈ D) : c.Extends D (c.pushGate g) := by
  obtain ⟨-, -, hw⟩ := requireGate_eq_ok.mp hg
  refine ⟨fun w s hs => ?_, ⟨[g], by simp [pushGate], by simp [hD]⟩, rfl, rfl, List.prefix_refl _⟩
  rw [state?_pushGate hw.allocated]
  by_cases he : w = g.out
  · subst he
    rw [if_pos rfl]
    rcases writable_iff.mp hw with h | h
    · exact .inr ⟨by simpa [h] using hs.symm, rfl⟩
    · exact .inl (by rw [← hs, h])
  · rw [if_neg he]
    exact .inl hs

theorem Step.extends {free : Set Wire} (h : Step free c c') : c.Extends free c' := by
  cases h with
  | wires n => exact extends_addWires free n
  | temps n => exact extends_withTemps free n
  | constant v _ => exact extends_addConstant free v
  | gate g hg _ _ hf => exact extends_pushGate hg hf

theorem grows_withInput (n : Nat) : c.Grows (c.withInput n) :=
  ⟨fun _ _ hs => .inl (state_addWires hs), List.prefix_refl _, List.prefix_append _ _,
    List.prefix_refl _, List.prefix_refl _⟩

theorem grows_withOutput (n : Nat) : c.Grows (c.withOutput n) :=
  ⟨fun _ _ hs => .inl (state_addWires hs), List.prefix_refl _, List.prefix_refl _,
    List.prefix_append _ _, List.prefix_refl _⟩

/-! ### The invariant -/

/-- The wires of all registered bundles. -/
def registered (c : Circuit) : Bundle :=
  c.inputs.flatten ++ c.outputs.flatten ++ c.temps.flatten

/-- What holds of every circuit that can be built. -/
structure WellFormed (c : Circuit) : Prop where
  /-- A gate reads given wires and wires that a gate before it drives. -/
  reads : ∀ before g after, c.gates.toList = before ++ g :: after →
    ∀ w ∈ [g.x, g.y], c.Given w ∨ ∃ g' ∈ before, g'.out = w
  /-- A wire counts as driven exactly if a gate drives it. -/
  driven_iff : ∀ w, c.state? w = some .driven ↔ ∃ g ∈ c.gates.toList, g.out = w
  /-- A constant wire is the one that is remembered for its value. -/
  constant_iff : ∀ w v, c.state? w = some (.constant v) ↔ c.constantWire? v = some w
  /-- The input wires are those of the input bundles. -/
  input_iff : ∀ w, c.state? w = some .input ↔ w ∈ c.inputs.flatten
  /-- Registered outputs and temporaries may be driven. -/
  writable : ∀ w ∈ c.outputs.flatten ++ c.temps.flatten, c.Writable w
  /-- No wire is registered twice. -/
  nodup : c.registered.Nodup

theorem wellFormed_empty : empty.WellFormed := by
  refine ⟨?_, ?_, ?_, ?_, ?_, ?_⟩
  · simp [empty]
  · simp [empty, state?]
  · intro w v
    cases v <;> simp [empty, state?, constantWire?]
  · simp [empty, state?]
  · simp [empty]
  · simp [empty, registered]

namespace WellFormed

theorem gate_allocated (h : c.WellFormed) {g : Gate} (hg : g ∈ c.gates.toList) :
    c.Allocated g.x ∧ c.Allocated g.y ∧ c.Allocated g.out := by
  obtain ⟨before, after, hsplit⟩ := List.append_of_mem hg
  have hdriven : ∀ g' ∈ c.gates.toList, c.Allocated g'.out := fun g' hg' =>
    allocated_iff.mpr ⟨_, (h.driven_iff g'.out).mpr ⟨g', hg', rfl⟩⟩
  have hread : ∀ w ∈ [g.x, g.y], c.Allocated w := by
    intro w hw
    rcases h.reads before g after hsplit w hw with hgiven | ⟨g', hg', rfl⟩
    · exact hgiven.readable.allocated
    · exact hdriven g' (hsplit ▸ List.mem_append_left _ hg')
  exact ⟨hread g.x (by simp), hread g.y (by simp), hdriven g hg⟩

/-- No gate drives an input or a constant. -/
theorem not_given_out (h : c.WellFormed) {g : Gate} (hg : g ∈ c.gates.toList) :
    ¬ c.Given g.out := by
  have hd := (h.driven_iff g.out).mpr ⟨g, hg, rfl⟩
  exact fun hgiven => hgiven.not_writable (writable_iff.mpr (.inr hd))

theorem registered_allocated (h : c.WellFormed) (hw : w ∈ c.registered) : c.Allocated w := by
  unfold registered at hw
  rw [List.append_assoc, List.mem_append] at hw
  rcases hw with hw | hw
  · exact allocated_iff.mpr ⟨_, (h.input_iff w).mpr hw⟩
  · exact (h.writable w hw).allocated

/-- Wires allocated in state `s` keep a circuit well formed if they are registered as inputs
exactly in the input state, and otherwise only in the undriven one. -/
theorem allocate {s : WireState} {n : Nat} (h : c.WellFormed) (hs : s = .input ∨ s = .undriven)
    (hstate : ∀ w, c'.state? w = (c.addWires s n).state? w) (hgates : c'.gates = c.gates)
    (hconst : ∀ v, c'.constantWire? v = c.constantWire? v)
    (hin : ∀ w, w ∈ c'.inputs.flatten ↔
      w ∈ c.inputs.flatten ∨ s = .input ∧ w ∈ c.nextBundle n)
    (hout : ∀ w ∈ c'.outputs.flatten ++ c'.temps.flatten,
      w ∈ c.outputs.flatten ++ c.temps.flatten ∨ s = .undriven ∧ w ∈ c.nextBundle n)
    (hnodup : c'.registered.Nodup) : c'.WellFormed := by
  have hold : ∀ w t, c.state? w = some t → c'.state? w = some t := fun w t ht =>
    (hstate w).trans (state_addWires ht)
  have hnew : ∀ w ∈ c.nextBundle n, c'.state? w = some s := fun w hw => by
    rw [hstate, state?_addWires, if_pos hw]
  have hinv : ∀ w t, c'.state? w = some t → c.state? w = some t ∨ w ∈ c.nextBundle n ∧ t = s := by
    intro w t ht
    rw [hstate, state?_addWires] at ht
    by_cases hw : w ∈ c.nextBundle n
    · rw [if_pos hw] at ht
      exact .inr ⟨hw, (Option.some.inj ht).symm⟩
    · rw [if_neg hw] at ht
      exact .inl ht
  refine ⟨fun before g after hsplit w hw => ?_, fun w => ?_, fun w v => ?_, fun w => ?_,
    fun w hw => ?_, hnodup⟩
  · refine (h.reads before g after (hgates ▸ hsplit) w hw).imp_left fun hg => ?_
    rcases hg with hi | ⟨v, hv⟩
    · exact .inl (hold w _ hi)
    · exact .inr ⟨v, hold w _ hv⟩
  · rw [hgates, ← h.driven_iff w]
    refine ⟨fun hd => ?_, fun hd => hold w _ hd⟩
    rcases hinv w _ hd with hd | ⟨-, he⟩
    · exact hd
    · rcases hs with rfl | rfl <;> cases he
  · rw [hconst, ← h.constant_iff w v]
    refine ⟨fun hd => ?_, fun hd => hold w _ hd⟩
    rcases hinv w _ hd with hd | ⟨-, he⟩
    · exact hd
    · rcases hs with rfl | rfl <;> cases he
  · rw [hin, ← h.input_iff w]
    constructor
    · intro hi
      rcases hinv w _ hi with hi | ⟨hw, he⟩
      · exact .inl hi
      · exact .inr ⟨he.symm, hw⟩
    · rintro (hi | ⟨rfl, hw⟩)
      · exact hold w _ hi
      · exact hnew w hw
  · rcases hout w hw with hw | ⟨rfl, hw⟩
    · rcases writable_iff.mp (h.writable w hw) with hu | hd
      · exact writable_iff.mpr (.inl (hold w _ hu))
      · exact writable_iff.mpr (.inr (hold w _ hd))
    · exact writable_iff.mpr (.inl (hnew w hw))

/-- Fresh wires may be registered. -/
theorem nodup_append_nextBundle (h : c.WellFormed) (n : Nat) :
    (c.registered ++ c.nextBundle n).Nodup := by
  rw [List.nodup_append]
  refine ⟨h.nodup, nodup_nextBundle, ?_⟩
  rintro w hw w' hw' rfl
  exact (mem_nextBundle.mp hw').1 (h.registered_allocated hw)

theorem addWires (h : c.WellFormed) (n : Nat) : (c.addWires .undriven n).WellFormed :=
  h.allocate (n := n) (.inr rfl) (fun _ => rfl) rfl (fun _ => rfl) (by simp [Circuit.addWires])
    (fun _ hw => .inl hw) h.nodup

theorem withInput (h : c.WellFormed) (n : Nat) : (c.withInput n).WellFormed := by
  refine h.allocate (n := n) (.inl rfl) (fun _ => rfl) rfl (fun _ => rfl) ?_ (fun _ hw => .inl hw) ?_
  · simp [Circuit.withInput]
  · refine (List.Perm.nodup_iff ?_).mp (h.nodup_append_nextBundle n)
    simp only [registered, Circuit.withInput, Circuit.addWires, List.flatten_append,
      List.flatten_singleton, List.append_assoc]
    refine List.Perm.append_left _ ?_
    rw [← List.append_assoc]
    exact List.perm_append_comm

theorem withOutput (h : c.WellFormed) (n : Nat) : (c.withOutput n).WellFormed := by
  refine h.allocate (n := n) (.inr rfl) (fun _ => rfl) rfl (fun _ => rfl) ?_ ?_ ?_
  · simp [Circuit.withOutput, Circuit.addWires]
  · intro w hw
    simp only [Circuit.withOutput, Circuit.addWires, List.flatten_append, List.flatten_singleton,
      List.mem_append] at hw ⊢
    tauto
  · refine (List.Perm.nodup_iff ?_).mp (h.nodup_append_nextBundle n)
    simp only [registered, Circuit.withOutput, Circuit.addWires, List.flatten_append,
      List.flatten_singleton, List.append_assoc]
    exact (List.perm_append_comm.append_left _).append_left _

theorem withTemps (h : c.WellFormed) (n : Nat) : (c.withTemps n).WellFormed := by
  refine h.allocate (n := n) (.inr rfl) (fun _ => rfl) rfl (fun _ => rfl) ?_ ?_ ?_
  · simp [Circuit.withTemps, Circuit.addWires]
  · intro w hw
    simp only [Circuit.withTemps, Circuit.addWires, List.flatten_append, List.flatten_singleton,
      List.mem_append] at hw ⊢
    tauto
  · have := h.nodup_append_nextBundle n
    simpa [registered, Circuit.withTemps, Circuit.addWires] using this

theorem addConstant (h : c.WellFormed) {v : Bool} (hv : c.constantWire? v = none) :
    (c.addConstant v).WellFormed := by
  obtain ⟨hgates, hin, hout, htemps⟩ := addConstant_eq (c := c) v
  have hold : ∀ w t, c.state? w = some t → (c.addConstant v).state? w = some t := fun w t ht =>
    (state?_addConstant_of_allocated (allocated_iff.mpr ⟨t, ht⟩)).trans ht
  have hinv : ∀ w t, (c.addConstant v).state? w = some t →
      c.state? w = some t ∨ w = c.nextWire ∧ t = .constant v := by
    intro w t ht
    rw [state?_addConstant] at ht
    by_cases hw : w = c.nextWire
    · rw [if_pos hw] at ht
      exact .inr ⟨hw, (Option.some.inj ht).symm⟩
    · rw [if_neg hw] at ht
      exact .inl ht
  refine ⟨fun before g after hsplit w hw => ?_, fun w => ?_, fun w b => ?_, fun w => ?_,
    fun w hw => ?_, ?_⟩
  · refine (h.reads before g after (hgates ▸ hsplit) w hw).imp_left fun hg => ?_
    rcases hg with hi | ⟨b, hb⟩
    · exact .inl (hold w _ hi)
    · exact .inr ⟨b, hold w _ hb⟩
  · rw [hgates, ← h.driven_iff w]
    refine ⟨fun hd => ?_, fun hd => hold w _ hd⟩
    rcases hinv w _ hd with hd | ⟨-, he⟩
    · exact hd
    · cases he
  · rw [constantWire?_addConstant]
    by_cases hb : b = v
    · subst hb
      rw [if_pos rfl]
      constructor
      · intro hd
        rcases hinv w _ hd with hd | ⟨rfl, -⟩
        · rw [h.constant_iff, hv] at hd
          cases hd
        · rfl
      · intro he
        rw [state?_addConstant, if_pos (Option.some.inj he).symm]
    · rw [if_neg hb, ← h.constant_iff]
      refine ⟨fun hd => ?_, fun hd => hold w _ hd⟩
      rcases hinv w _ hd with hd | ⟨-, he⟩
      · exact hd
      · exact absurd (WireState.constant.inj he) hb
  · rw [hin, ← h.input_iff w]
    refine ⟨fun hd => ?_, fun hd => hold w _ hd⟩
    rcases hinv w _ hd with hd | ⟨-, he⟩
    · exact hd
    · cases he
  · rw [hout, htemps] at hw
    rcases writable_iff.mp (h.writable w hw) with hu | hd
    · exact writable_iff.mpr (.inl (hold w _ hu))
    · exact writable_iff.mpr (.inr (hold w _ hd))
  · unfold registered
    rw [hin, hout, htemps]
    exact h.nodup

theorem pushGate (h : c.WellFormed) {g : Gate} (hg : c.requireGate g = .ok ()) :
    (c.pushGate g).WellFormed := by
  obtain ⟨hx, hy, hw⟩ := requireGate_eq_ok.mp hg
  have hstate := fun w => state?_pushGate (w := w) hw.allocated
  -- an input or a constant is not the wire that the gate drives
  have hkeep : ∀ w t, t ≠ .driven → t ≠ .undriven →
      ((c.pushGate g).state? w = some t ↔ c.state? w = some t) := by
    intro w t hd hu
    rw [hstate]
    by_cases he : w = g.out
    · subst he
      rw [if_pos rfl]
      rcases writable_iff.mp hw with hs | hs
      · simp [hs, hd.symm, hu.symm]
      · simp [hs]
    · rw [if_neg he]
  have hgiven : ∀ w, c.Given w → (c.pushGate g).Given w := by
    rintro w (hi | ⟨v, hv⟩)
    · exact .inl ((hkeep w _ (by simp) (by simp)).mpr hi)
    · exact .inr ⟨v, (hkeep w _ (by simp) (by simp)).mpr hv⟩
  have hgates : (c.pushGate g).gates.toList = c.gates.toList ++ [g] := by simp [Circuit.pushGate]
  refine ⟨fun before g' after hsplit w hw' => ?_, fun w => ?_, fun w v => ?_, fun w => ?_,
    fun w hw' => ?_, h.nodup⟩
  · rw [hgates] at hsplit
    rcases List.eq_nil_or_concat after with rfl | ⟨after', last, rfl⟩
    · -- the new gate: what it reads is given or driven
      obtain ⟨rfl, he⟩ := List.append_inj' hsplit rfl
      obtain rfl := (List.cons.inj he).1
      have hr : c.Readable w := by
        rcases List.mem_cons.mp hw' with rfl | hw'
        · exact hx
        · rwa [List.mem_singleton.mp hw']
      rcases hr.given_or_driven with hr | hr
      · exact .inl (hgiven w hr)
      · exact .inr ((h.driven_iff w).mp hr)
    · rw [List.concat_eq_append, ← List.cons_append, ← List.append_assoc] at hsplit
      obtain ⟨hsplit, -⟩ := List.append_inj' hsplit rfl
      exact (h.reads before g' after' hsplit w hw').imp_left (hgiven w)
  · rw [hstate, hgates]
    simp only [List.mem_append, List.mem_singleton]
    by_cases he : w = g.out
    · subst he
      simp only [↓reduceIte, true_iff]
      exact ⟨g, .inr rfl, rfl⟩
    · rw [if_neg he, h.driven_iff]
      constructor
      · rintro ⟨g', hg', rfl⟩
        exact ⟨g', .inl hg', rfl⟩
      · rintro ⟨g', hg' | rfl, rfl⟩
        · exact ⟨g', hg', rfl⟩
        · exact absurd rfl he
  · rw [hkeep w _ (by simp) (by simp)]
    exact h.constant_iff w v
  · rw [hkeep w _ (by simp) (by simp)]
    exact h.input_iff w
  · rw [writable_iff, hstate]
    by_cases he : w = g.out
    · simp [he]
    · rw [if_neg he]
      exact writable_iff.mp (h.writable w hw')

end WellFormed

/-- What an operation does keeps a circuit well formed. -/
theorem Step.wellFormed {free : Set Wire} (h : Step free c c') (hc : c.WellFormed) :
    c'.WellFormed := by
  cases h with
  | wires n => exact hc.addWires n
  | temps n => exact hc.withTemps n
  | constant v hv => exact hc.addConstant hv
  | gate g hg _ _ _ => exact hc.pushGate hg

end Circuit
end BitCircuit
