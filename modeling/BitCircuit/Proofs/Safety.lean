/-
# No operation looks outside of a list

On a circuit that can be built, no operation on bundles looks for a position that is not there or takes
a difference that is negative, whatever bundles it is handed: empty ones, too narrow ones, bundles with
wires in common, with repeated wires or with wires that do not exist. So it ends with its result or with
an error that the caller is told of, unless a list gets too long. That is a bundle that no list can
hold, or what is appended to the circuit without room for it (`Circuit.HasRoom`). Three kinds of
operations may need a bundle wider than those they are given, and `Call.reach` says how wide: a single
bit of a sum at a position far up, a comparison of operands of the greatest width, and a division by
such an operand. Taking statistics and replaying a circuit do not look outside of a list either
(`operations_do_not_fault`).

Key definitions: `Call.bundles`, `Call.position?`, `Call.reach`.
Key theorems: `Call.averts`, `Circuit.stats_succeeds`, `operations_do_not_fault`.
-/
import BitCircuit.Proofs.Depth
import BitCircuit.Proofs.Replay
import BitCircuit.Proofs.Integer.Faults
import BitCircuit.Proofs.Aes.Faults

namespace BitCircuit

/-! ### Operations on bundles -/

namespace Call

/-- The bundles that an operation on bundles is handed. -/
def bundles : Call → List Bundle
  | addRipple a b out temps _ _ => [a, b, out, temps]
  | addLookahead a b out _ _ => [a, b, out]
  | add a b out temps _ _ => [a, b, out, temps]
  | subtract a b out temps _ _ => [a, b, out, temps]
  | sumBit a b out temps _ _ _ _ => [a, b, out, temps]
  | complement a out => [a, out]
  | bitwise _ a b out _ => [a, b, out]
  | select ifTrue ifFalse choice out temps => [ifTrue, ifFalse, choice, out, temps]
  | isZero a out => [a, out]
  | equal a b out => [a, b, out]
  | notEqual a b out => [a, b, out]
  | lessThan a b out _ _ => [a, b, out]
  | atLeast a b out _ _ => [a, b, out]
  | multiply a b out _ _ => [a, b, out]
  | divide a b quot rem _ _ => [a, b, quot, rem]
  | negate a out temps _ => [a, out, temps]
  | magnitude a out temps _ => [a, out, temps]
  | applySign a sign out temps _ => [a, sign, out, temps]
  | substituteByte a out => [a, out]
  | mixColumns state out => [state, out]
  | encrypt message expandedKey ciphertext => [message, expandedKey, ciphertext]
  | _ => []

/-- The position of the bit that is asked for, if it is a single one. -/
def position? : Call → Option Nat
  | sumBit _ _ _ _ position _ _ _ => some position
  | _ => none

/-- The width of the widest bundle that an operation needs besides those it is handed and those as
wide as one of them. -/
def reach : Call → Nat
  | sumBit _ _ _ _ position _ _ _ => position + 1
  | lessThan a b _ _ _ => max a.length b.length + 1
  | atLeast a b _ _ _ => max a.length b.length + 1
  | divide _ b _ _ _ _ => b.length + 2
  | _ => 0

/-- Two bundles are compared at a width that is a size. -/
theorem max_add_one_lt_sizeLimit {m k : Nat} (hm : m < wireLimit) (hk : k < wireLimit) :
    max m k + 1 < sizeLimit := by
  have hlimits : wireLimit + 1 < sizeLimit := by decide
  have hmax : max m k < wireLimit := Nat.max_lt.mpr ⟨hm, hk⟩
  omega

/-- **An operation on bundles looks for no position that is not there.** At most the bundle of width
`reach` is one that no list can hold. -/
theorem averts {call : Call} {written : List Bundle} (h : call.written? = some written)
    (hwidth : ∀ b ∈ call.bundles, b.length < wireLimit)
    (hposition : ∀ p ∈ call.position?, p + 1 < sizeLimit) :
    Build.Averts call.reach call.run fun _ => True := by
  have hallows : ∀ b ∈ call.bundles, Allows call.reach b.length := fun b hb => .inl (hwidth b hb)
  cases call with
  | addRipple a b out temps enc dir => exact Build.averts_addRipple (hallows out (by simp [bundles]))
  | addLookahead a b out enc dir => exact Build.averts_addLookahead (hallows out (by simp [bundles]))
  | add a b out temps enc obj => exact Build.averts_addSub (hallows out (by simp [bundles]))
  | subtract a b out temps enc obj => exact Build.averts_addSub (hallows out (by simp [bundles]))
  | sumBit a b out temps position enc dir obj =>
    exact Build.averts_sumBit (hposition position rfl) (.inr (Nat.le_refl _))
  | complement a out => exact Build.averts_complement (hallows out (by simp [bundles]))
  | bitwise op a b out enc => exact Build.averts_bitwise (hallows out (by simp [bundles]))
  | select ifTrue ifFalse choice out temps => exact Build.averts_selectTo
  | isZero a out => exact Build.averts_isZero
  | equal a b out => exact Build.averts_equal
  | notEqual a b out => exact Build.averts_notEqual
  | lessThan a b out enc obj =>
    have hsize := max_add_one_lt_sizeLimit (hwidth a (by simp [bundles])) (hwidth b (by simp [bundles]))
    exact Build.averts_lessThan hsize (.inr (Nat.le_refl _))
  | atLeast a b out enc obj =>
    have hsize := max_add_one_lt_sizeLimit (hwidth a (by simp [bundles])) (hwidth b (by simp [bundles]))
    exact Build.averts_atLeast hsize (.inr (Nat.le_refl _))
  | multiply a b out obj enc =>
    exact Build.averts_multiply (hallows a (by simp [bundles]))
      (hallows b (by simp [bundles])) (hallows out (by simp [bundles]))
  | divide a b quot rem enc obj =>
    exact Build.averts_divide (.inr (Nat.le_refl _)) (hallows quot (by simp [bundles]))
      (hallows rem (by simp [bundles])) (hallows a (by simp [bundles]))
  | negate a out temps obj => exact Build.averts_negate (hallows out (by simp [bundles]))
  | magnitude a out temps obj =>
    exact Build.averts_magnitude (hallows a (by simp [bundles]))
      (hallows out (by simp [bundles]))
  | applySign a sign out temps obj => exact Build.averts_applySign (hallows out (by simp [bundles]))
  | substituteByte a out => exact Build.averts_substituteByte
  | mixColumns state out => exact Build.averts_mixColumns
  | encrypt message expandedKey ciphertext => exact Build.averts_encrypt
  | _ => cases h

end Call

/-! ### Statistics -/

/-- Taking the statistics of a well-formed circuit succeeds. -/
theorem Circuit.stats_succeeds {c : Circuit} (hc : c.WellFormed) : ∃ stats, c.stats = .ok stats := by
  unfold stats
  rw [depthBy_eq hc, depthBy_eq hc]
  exact ⟨_, rfl⟩

/-! ### All together -/

/-- A replay of a well-formed circuit is refused at most with an error for the caller. -/
theorem Build.not_isFault_of_instantiate {c template : Circuit} {ins outs : List Bundle} {e : Error}
    (hT : template.WellFormed) (hc : c.WellFormed)
    (h : ((instantiate template ins outs).exec c).1 = .error e) : e.isFault = false := by
  cases hcheck : c.requireBindings template ins outs with
  | ok u =>
    obtain ⟨c', hdone⟩ := instantiate_succeeds hT hc (Circuit.requireBindings_eq_ok hcheck)
    rw [hdone] at h
    cases h
  | error e' =>
    rw [exec_instantiate_of_error hcheck] at h
    cases h
    exact Circuit.not_isFault_of_requireBindings hcheck

/-- **No operation looks outside of a list.** On a circuit that can be built, an operation on bundles
ends with its result or an error for the caller, unless it needs a bundle of `reach` wires and no list
can hold them; the rows of a state are turned or the caller is told its width; taking statistics finds
every depth it looks for, and succeeds if the tables of depths can be made; and a replay finds every wire
it looks for, and is refused at most with an error for the caller if the table of bindings can be made,
whose entries take twice the room of a wire. -/
theorem operations_do_not_fault {c : Circuit} (hc : Reachable c) :
    (∀ (call : Call) (written : List Bundle), call.written? = some written →
      (∀ b ∈ call.bundles, b.length < wireLimit) → (∀ p ∈ call.position?, p + 1 < sizeLimit) →
      ∀ e, (call.run.exec c).1 = .error e →
        e.isFault = false ∨ ∃ m, e = .tooLarge m ∧ wireLimit ≤ m ∧ m ≤ call.reach) ∧
    (∀ state e, Aes.shiftRows state = .error e → e.isFault = false) ∧
    (c.stats ≠ .error .outOfRange ∧ (c.wires.size < wireLimit → ∃ stats, c.stats = .ok stats)) ∧
    ∀ template ins outs, Reachable template →
      ∀ e, ((Build.instantiate template ins outs).exec c).1 = .error e →
        e ≠ .outOfRange ∧ (2 * template.wires.size < wireLimit → e.isFault = false) := by
  obtain ⟨stats, hstats⟩ := Circuit.stats_succeeds hc.wellFormed
  refine ⟨fun call written h hwidth hposition e he => ?_, fun state e he => ?_,
    ⟨by rw [hstats]; simp, fun _ => ⟨stats, hstats⟩⟩, fun template ins outs hT e he => ?_⟩
  · exact (Call.averts h hwidth hposition c).2 e he
  · rcases (answers_shiftRows (n := 0) state).2 e he with hfault | ⟨m, -, hlimit, hm⟩
    · exact hfault
    · have hpos : 0 < wireLimit := by decide
      omega
  · have hfault : e.isFault = false := Build.not_isFault_of_instantiate hT.wellFormed hc.wellFormed he
    refine ⟨?_, fun _ => hfault⟩
    rintro rfl
    cases hfault

/-- A circuit of an input and a wire to write to. -/
def oneInput : Circuit := Call.afterAll [.addInput 1, .newBundle 1]

/-- The fifth bit of a sum with a wire that does not exist: the caller is told so. -/
theorem operations_do_not_fault_unallocated :
    Reachable oneInput ∧
      ((Call.sumBit [⟨0⟩] [⟨7⟩] [⟨1⟩] [] 5 .unsigned .addition .depth).run.exec oneInput).1 =
        .error (.unallocated ⟨7⟩) ∧
      (Error.unallocated ⟨7⟩).isFault = false ∧ ∃ stats, oneInput.stats = .ok stats := by
  have h : Reachable oneInput := reachable_afterAll (by simp [Call.template?])
  have hrefused : ((Call.sumBit [⟨0⟩] [⟨7⟩] [⟨1⟩] [] 5 .unsigned .addition .depth).run.exec
      oneInput).1 = .error (.unallocated ⟨7⟩) := by decide +kernel
  obtain ⟨hcalls, -, ⟨-, hstats⟩, -⟩ := operations_do_not_fault h
  refine ⟨h, hrefused, ?_, hstats (by decide +kernel)⟩
  rcases hcalls _ _ rfl (by decide) (by decide) _ hrefused with hfault | ⟨m, he, -⟩
  · exact hfault
  · cases he

/-- A bit so far up that no bundle reaches it, though its position is a size. -/
theorem sum_bit_faults_beyond_bundles :
    Reachable oneInput ∧ 1152921504606846976 < sizeLimit - 1 ∧
      ((Call.sumBit [⟨0⟩] [⟨0⟩] [⟨1⟩] [] 1152921504606846976 .unsigned .addition .depth).run.exec
        oneInput).1 = .error (.tooLarge 1152921504606846977) ∧
      (Error.tooLarge 1152921504606846977).isFault = true :=
  ⟨reachable_afterAll (by simp [Call.template?]), by decide, by decide +kernel, rfl⟩

end BitCircuit
