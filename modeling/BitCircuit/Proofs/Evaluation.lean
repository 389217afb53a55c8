/-
# The evaluator computes the values of wires

The evaluator runs the gates over a table with one entry for each wire. On a well-formed
circuit whose outputs have values, the table holds the values of the wires at every moment, so
the result is the values of the output wires (`Circuit.evalBits_eq_value`). Bits of the right
number and widths are those of some values of the inputs (`Circuit.exists_input`).

Key definitions: `valueTable`.
Key theorems: `Circuit.evalBits_eq_value`, `Circuit.exists_input`.
-/
import BitCircuit.Circuit.Eval
import BitCircuit.Proofs.Value

namespace BitCircuit

/-- The table with what the first `n` wires have. -/
def valueTable {α : Type} (n : Nat) (v : Wire → α) : Array α :=
  Array.ofFn fun i : Fin n => v ⟨i⟩

variable {n : Nat} {v input : Valuation}

theorem entry_valueTable {α : Type} {v : Wire → α} {w : Wire} (h : w.index < n) :
    entry (valueTable n v) w.index = .ok (v w) := by
  unfold entry valueTable
  simp [h]

theorem setEntry_valueTable {α : Type} {v : Wire → α} {w : Wire} {b : α} (h : w.index < n) :
    setEntry (valueTable n v) w.index b = .ok (valueTable n (Function.update v w b)) := by
  have hsize : w.index < (valueTable n v).size := by simpa [valueTable] using h
  unfold setEntry
  rw [dif_pos hsize]
  congr 1
  apply Array.ext
  · simp [valueTable]
  · intro i h₁ h₂
    by_cases he : w.index = i
    · subst he
      simp [valueTable]
    · have hne : (⟨i⟩ : Wire) ≠ w := fun hw => he (congrArg Wire.index hw).symm
      rw [Array.getElem_set_ne _ (by simpa using h₁) he]
      simp [valueTable, hne]

/-- One gate on the table. -/
theorem Gate.run_valueTable {g : Gate} (hx : g.x.index < n) (hy : g.y.index < n)
    (hout : g.out.index < n) : g.run (valueTable n v) = .ok (valueTable n (g.apply v)) := by
  unfold Gate.run
  rw [entry_valueTable hx, entry_valueTable hy]
  exact setEntry_valueTable hout

/-- All gates on the table. -/
theorem foldlM_run_valueTable : ∀ (gs : List Gate) (v : Valuation),
    (∀ g ∈ gs, g.x.index < n ∧ g.y.index < n ∧ g.out.index < n) →
    gs.foldlM (fun values g => g.run values) (valueTable n v) = .ok (valueTable n (runGates gs v))
  | [], _, _ => rfl
  | g :: gs, v, h => by
    obtain ⟨⟨hx, hy, hout⟩, hgs⟩ := List.forall_mem_cons.mp h
    rw [List.foldlM_cons, Gate.run_valueTable hx hy hout]
    exact foldlM_run_valueTable gs (g.apply v) hgs

namespace Circuit

variable {c : Circuit}

/-- The values once the wires of `ws` have theirs from `input`. -/
def overwrite (ws : List Wire) (input v : Valuation) : Valuation := fun w =>
  if w ∈ ws then input w else v w

theorem overwrite_update {ws : List Wire} {w : Wire} :
    overwrite ws input (Function.update v w (input w)) = overwrite (w :: ws) input v := by
  funext w'
  by_cases he : w' = w
  · subst he
    simp [overwrite]
  · simp [overwrite, he]

theorem overwrite_append {ws ws' : List Wire} :
    overwrite ws' input (overwrite ws input v) = overwrite (ws ++ ws') input v := by
  funext w
  by_cases h : w ∈ ws'
  · simp [overwrite, h]
  · simp [overwrite, h]

theorem foldlM_setEntry_valueTable : ∀ (b : Bundle) (v : Valuation), (∀ w ∈ b, w.index < n) →
    (b.zip (b.map input)).foldlM (fun values (w, b) => setEntry values w.index b) (valueTable n v) =
      .ok (valueTable n (overwrite b input v))
  | [], _, _ => rfl
  | w :: b, v, h => by
    obtain ⟨hw, hb⟩ := List.forall_mem_cons.mp h
    rw [List.map_cons, List.zip_cons_cons, List.foldlM_cons]
    simp only
    rw [setEntry_valueTable hw, ← overwrite_update]
    exact foldlM_setEntry_valueTable b _ hb

theorem bindInput_valueTable {b : Bundle} (h : ∀ w ∈ b, w.index < n) :
    bindInput (valueTable n v) (b, b.map input) = .ok (valueTable n (overwrite b input v)) := by
  unfold bindInput
  simp only [List.length_map, ne_eq, not_true_eq_false, ↓reduceIte]
  exact foldlM_setEntry_valueTable b v h

theorem foldlM_bindInput_valueTable : ∀ (bs : List Bundle) (v : Valuation),
    (∀ w ∈ bs.flatten, w.index < n) →
    (bs.zip (bs.map fun b => b.map input)).foldlM bindInput (valueTable n v) =
      .ok (valueTable n (overwrite bs.flatten input v))
  | [], _, _ => rfl
  | b :: bs, v, h => by
    rw [List.flatten_cons] at h ⊢
    rw [List.map_cons, List.zip_cons_cons, List.foldlM_cons,
      bindInput_valueTable fun w hw => h w (List.mem_append_left _ hw), ← overwrite_append]
    exact foldlM_bindInput_valueTable bs _ fun w hw => h w (List.mem_append_right _ hw)

/-- Once the inputs are bound the table holds what the wires start with. -/
theorem overwrite_initialValues (hc : c.WellFormed) (input : Valuation) :
    ∃ v, c.initialValues = valueTable c.wires.size v ∧
      overwrite c.inputs.flatten input v = c.start input := by
  refine ⟨fun w => decide (c.state? w = some (.constant true)), ?_, ?_⟩
  · apply Array.ext
    · simp [initialValues, valueTable]
    · intro i h₁ h₂
      simp [initialValues, valueTable, state?]
  · funext w
    unfold overwrite start
    cases hs : c.state? w with
    | none =>
      have hw : w ∉ c.inputs.flatten := fun hw => by simp [(hc.input_iff w).mpr hw] at hs
      simp [hw, hs]
    | some s =>
      by_cases hw : w ∈ c.inputs.flatten
      · rw [(hc.input_iff w).mpr hw] at hs
        cases hs
        simp [hw, WireState.start]
      · have hne : s ≠ .input := fun he => hw ((hc.input_iff w).mp (he ▸ hs))
        cases s with
        | input => exact absurd rfl hne
        | constant b => cases b <;> simp [hw, hs, WireState.start]
        | undriven => simp [hw, hs, WireState.start]
        | driven => simp [hw, hs, WireState.start]

/-- **The evaluator returns the values of the output wires.** -/
theorem evalBits_eq_value (hc : c.WellFormed) (hr : ∀ w ∈ c.outputs.flatten, c.Readable w)
    (input : Valuation) :
    c.evalBits (c.inputs.map fun b => b.map input) =
      .ok (c.outputs.map fun b => b.map (c.value input)) := by
  obtain ⟨v, hinit, hstart⟩ := overwrite_initialValues hc input
  have hin : ∀ w ∈ c.inputs.flatten, w.index < c.wires.size := fun w hw =>
    allocated_iff.mpr ⟨_, (hc.input_iff w).mpr hw⟩
  have hrun : c.gates.foldlM (fun values g => g.run values) (valueTable c.wires.size (c.start input)) =
      .ok (valueTable c.wires.size (c.value input)) := by
    rw [← Array.foldlM_toList]
    exact foldlM_run_valueTable _ _ fun g hg => hc.gate_allocated hg
  have hread : (c.outputs.mapM fun b => b.mapM fun w =>
      entry (valueTable c.wires.size (c.value input)) w.index) =
      .ok (c.outputs.map fun b => b.map (c.value input)) := by
    refine mapM_eq_ok fun b hb => mapM_eq_ok fun w hw => ?_
    exact entry_valueTable (hr w (List.mem_flatten.mpr ⟨b, hb, hw⟩)).allocated
  unfold evalBits
  rw [if_neg (by simp), forM_eq_ok.mpr hr, hinit, foldlM_bindInput_valueTable c.inputs v hin, hstart]
  simp only [bind, Except.bind]
  rw [hrun]
  exact hread

/-! ### Bits for the inputs -/

/-- Distinct wires can have any values. -/
theorem exists_valuation : ∀ (b : Bundle) (bits : List Bool), b.Nodup → bits.length = b.length →
    ∃ v : Valuation, b.map v = bits
  | [], bits, _, h => ⟨fun _ => false, (List.eq_nil_of_length_eq_zero h).symm⟩
  | _ :: _, [], _, h => by cases h
  | w :: b, x :: bits, hn, h => by
    obtain ⟨hw, hb⟩ := List.nodup_cons.mp hn
    obtain ⟨v, hv⟩ := exists_valuation b bits hb (Nat.succ.inj h)
    refine ⟨Function.update v w x, ?_⟩
    rw [List.map_cons, Function.update_self, ← hv]
    congr 1
    refine List.map_congr_left fun w' hw' => ?_
    have hne : w' ≠ w := fun he => hw (he ▸ hw')
    exact Function.update_of_ne hne _ _

theorem exists_valuation_bundles : ∀ (bs : List Bundle) (bits : List (List Bool)),
    bs.flatten.Nodup → bits.map List.length = bs.map List.length →
    ∃ v : Valuation, (bs.map fun b => b.map v) = bits
  | [], bits, _, h => ⟨fun _ => false, by simpa using h⟩
  | _ :: _, [], _, h => by cases h
  | b :: bs, x :: bits, hn, h => by
    rw [List.flatten_cons, List.nodup_append] at hn
    obtain ⟨hb, hbs, hdisj⟩ := hn
    obtain ⟨hx, hbits⟩ := List.cons.inj h
    obtain ⟨v, hv⟩ := exists_valuation b x hb hx
    obtain ⟨v', hv'⟩ := exists_valuation_bundles bs bits hbs hbits
    refine ⟨overwrite b v v', ?_⟩
    rw [List.map_cons, ← hv, ← hv']
    congr 1
    · refine List.map_congr_left fun w hw => ?_
      simp [overwrite, hw]
    · refine List.map_congr_left fun b' hb' => List.map_congr_left fun w hw => ?_
      have hw' : w ∉ b := fun hwb => hdisj w hwb w (List.mem_flatten.mpr ⟨b', hb', hw⟩) rfl
      simp [overwrite, hw']

/-- Bits of the right widths are those of some values of the inputs. -/
theorem exists_input (hc : c.WellFormed) {bits : List (List Bool)}
    (h : bits.map List.length = c.inputs.map List.length) :
    ∃ input : Valuation, (c.inputs.map fun b => b.map input) = bits := by
  refine exists_valuation_bundles c.inputs bits ?_ h
  have hn := hc.nodup
  unfold registered at hn
  rw [List.append_assoc, List.nodup_append] at hn
  exact hn.1

end Circuit
end BitCircuit
