/-
# Bitwise operations in any circuit

Selections, the bitwise operations with two operands and the complement, in every circuit that can
be built. What each position of the result holds is said of the values that the operands have
before: the result shares no wire with them, which the operations check, but they may be constants,
name a wire twice or share wires with each other, and the choice may be one of the wires it chooses
between.

Key definition: `BitwiseOp.onBits`.

Key theorem: `bit_parallel_operations_are_exact`.
-/
import BitCircuit.Proofs.Integer.Logic
import BitCircuit.Proofs.Reachable

namespace BitCircuit

/-- What a bitwise operation makes of two bits. -/
def BitwiseOp.onBits : BitwiseOp → Bool → Bool → Bool
  | .and, x, y => x && y
  | .or, x, y => x || y
  | .xor, x, y => x ^^ y

/-- The gate of a bitwise operation computes it. -/
theorem BitwiseOp.eval_kind (op : BitwiseOp) : op.kind.eval = op.onBits := by
  funext x y
  cases op <;> rfl

/-- **The operations that treat each position on its own are exact** in every circuit that can be
built, on the values that the operands have before, brought to the width of the result. -/
theorem bit_parallel_operations_are_exact {c : Circuit} (hc : Reachable c) (c' : Circuit)
    (input : Valuation) :
    (∀ ifTrue ifFalse choice out temps : Bundle,
      (∀ w ∈ ifTrue ++ ifFalse ++ choice ++ out ++ temps, c.Allocated w) → out.Nodup →
      (Build.selectTo ifTrue ifFalse choice out temps).exec c = (.ok (), c') →
      ∃ chosen, choice = [chosen] ∧ out.map (c'.value input) =
        if c.value input chosen then ifTrue.map (c.value input) else ifFalse.map (c.value input)) ∧
    (∀ (op : BitwiseOp) (a b out : Bundle) (enc : Encoding),
      (∀ w ∈ a ++ b ++ out, c.Allocated w) → out.Nodup →
      (Build.bitwise op.kind a b out enc).exec c = (.ok (), c') →
      out.map (c'.value input) = List.zipWith op.onBits
        (enc.resize out.length (a.map (c.value input)))
        (enc.resize out.length (b.map (c.value input)))) ∧
    (∀ a out : Bundle, (∀ w ∈ a ++ out, c.Allocated w) → out.Nodup →
      (Build.complement a out).exec c = (.ok (), c') →
      out.map (c'.value input) =
        (Encoding.twosComplement.resize out.length (a.map (c.value input))).map (!·)) := by
  refine ⟨fun ifTrue ifFalse choice out temps ha hnd h => ?_, fun op a b out enc ha hnd h => ?_,
    fun a out ha hnd h => ?_⟩
  · have hreads : ∀ w ∈ ifTrue ++ ifFalse ++ choice, c.Allocated w := fun w hw =>
      ha w (List.mem_append_left _ (List.mem_append_left _ hw))
    obtain ⟨-, chosen, rfl, hvals⟩ := Build.selectTo_spec input hc.wellFormed hreads hnd h
    exact ⟨chosen, rfl, hvals.trans (Bool.cond_eq_ite ..)⟩
  · rw [← op.eval_kind]
    exact (Build.bitwise_spec input hc.wellFormed ha hnd h).2
  · exact (Build.complement_spec input hc.wellFormed ha hnd h).2

/-- A selection between bundles that share a wire with each other, with the choice and with a constant,
an operation on a wire named twice and a constant, and a complement that repeats a sign. -/
theorem bit_parallel_operations_are_exact_shared :
    ∃ c selected joined complemented : Circuit, Reachable c ∧
      (Build.selectTo [⟨0⟩, ⟨7⟩] [⟨0⟩, ⟨1⟩] [⟨1⟩] [⟨3⟩, ⟨4⟩] [⟨5⟩]).exec c = (.ok (), selected) ∧
      (Build.bitwise .or [⟨0⟩, ⟨0⟩] [⟨7⟩] [⟨3⟩, ⟨4⟩, ⟨5⟩] .unsigned).exec c = (.ok (), joined) ∧
      (Build.complement [⟨1⟩, ⟨2⟩] [⟨3⟩, ⟨4⟩, ⟨5⟩, ⟨6⟩]).exec c = (.ok (), complemented) ∧
      ∀ input : Valuation,
        [⟨3⟩, ⟨4⟩].map (selected.value input) =
          (if c.value input ⟨1⟩ then [⟨0⟩, ⟨7⟩].map (c.value input)
            else [⟨0⟩, ⟨1⟩].map (c.value input)) ∧
        [⟨3⟩, ⟨4⟩, ⟨5⟩].map (joined.value input) = List.zipWith BitwiseOp.or.onBits
          (Encoding.unsigned.resize 3 ([⟨0⟩, ⟨0⟩].map (c.value input)))
          (Encoding.unsigned.resize 3 ([⟨7⟩].map (c.value input))) ∧
        [⟨3⟩, ⟨4⟩, ⟨5⟩, ⟨6⟩].map (complemented.value input) =
          (Encoding.twosComplement.resize 4 ([⟨1⟩, ⟨2⟩].map (c.value input))).map (!·) := by
  have hc : Reachable (Call.afterAll [.addInput 3, .newBundle 4, .constant true]) :=
    reachable_afterAll (by simp [Call.template?])
  generalize hhost : Call.afterAll [.addInput 3, .newBundle 4, .constant true] = c at hc
  obtain ⟨selected, hselect⟩ : ∃ c',
      (Build.selectTo [⟨0⟩, ⟨7⟩] [⟨0⟩, ⟨1⟩] [⟨1⟩] [⟨3⟩, ⟨4⟩] [⟨5⟩]).exec c = (.ok (), c') :=
    Build.exists_ok (by subst hhost; decide +kernel)
  obtain ⟨joined, hjoin⟩ : ∃ c',
      (Build.bitwise .or [⟨0⟩, ⟨0⟩] [⟨7⟩] [⟨3⟩, ⟨4⟩, ⟨5⟩] .unsigned).exec c = (.ok (), c') :=
    Build.exists_ok (by subst hhost; decide +kernel)
  obtain ⟨complemented, hcomplement⟩ : ∃ c',
      (Build.complement [⟨1⟩, ⟨2⟩] [⟨3⟩, ⟨4⟩, ⟨5⟩, ⟨6⟩]).exec c = (.ok (), c') :=
    Build.exists_ok (by subst hhost; decide +kernel)
  refine ⟨c, selected, joined, complemented, hc, hselect, hjoin, hcomplement, fun input => ⟨?_, ?_, ?_⟩⟩
  · obtain ⟨chosen, hone, hvals⟩ := (bit_parallel_operations_are_exact hc selected input).1 _ _ _ _ _
      (by subst hhost; decide +kernel) (by decide) hselect
    obtain rfl : ⟨1⟩ = chosen := List.singleton_injective hone
    exact hvals
  · exact (bit_parallel_operations_are_exact hc joined input).2.1 .or _ _ _ _
      (by subst hhost; decide +kernel) (by decide) hjoin
  · exact (bit_parallel_operations_are_exact hc complemented input).2.2 _ _
      (by subst hhost; decide +kernel) (by decide) hcomplement

end BitCircuit
