/-
# Results on wires that do not exist

An operation checks the wires it is handed one gate at a time, when it drives them, and by then it may have
allocated wires of its own. So a wire that did not exist when the operation was called is refused, unless
the operation has allocated that very wire in the meantime (`unallocated_results_refused`). Operations that
guard their results refuse it always: those that allocate nothing but constants, and, in their small form,
comparison and negation, which keep their results apart from the wires they allocate. The others can take a
wire of their own for the one they were handed (`lookahead_accepts_unallocated`).

Key definitions: `Call.results?`, `Call.guardsResults`.
Key theorems: `Call.writes_results`, `Call.refuses_of_guardsResults`, `unallocated_results_refused`.
-/
import BitCircuit.Proofs.Reachable
import BitCircuit.Proofs.Integer.Written
import BitCircuit.Proofs.Aes.Written

namespace BitCircuit

namespace Call

/-- The wires that an operation on bundles drives with its results. -/
def results? : Call → Option Bundle
  | addRipple _ _ out _ _ _ => some out
  | addLookahead _ _ out _ _ => some out
  | add _ _ out _ _ _ => some out
  | subtract _ _ out _ _ _ => some out
  | sumBit _ _ out _ _ _ _ _ => some out
  | complement _ out => some out
  | bitwise _ _ _ out _ => some out
  | select _ _ _ out _ => some out
  | isZero _ out => some out
  | equal _ _ out => some out
  | notEqual _ _ out => some out
  | lessThan _ _ out _ _ => some out
  | atLeast _ _ out _ _ => some out
  | multiply _ _ out _ _ => some out
  | divide _ _ quot rem _ _ => some (quot ++ rem)
  | negate _ out _ _ => some out
  | magnitude _ out _ _ => some out
  | applySign _ _ out _ _ => some out
  | substituteByte _ out => some out
  | mixColumns _ out => some out
  | encrypt _ _ ciphertext => some ciphertext
  | _ => none

/-- No result of the operation can be a wire that the operation allocates. -/
def guardsResults : Call → Bool
  | addRipple .. | complement .. | bitwise .. | select .. => true
  | add _ _ _ _ _ obj => obj = .size
  | subtract _ _ _ _ _ obj => obj = .size
  | sumBit _ _ _ _ _ _ _ obj => obj = .size
  | lessThan _ _ _ _ obj => obj = .size
  | negate _ _ _ obj => obj = .size
  | _ => false

variable {c : Circuit} {call : Call} {results : Bundle} {w : Wire}

/-- An operation writes to its results, or it is refused. -/
theorem writes_results (h : call.results? = some results) (hw : w ∈ results) : call.run.Writes w := by
  cases call with
  | addRipple a b out temps enc dir =>
    cases h
    exact Build.writes_addRipple hw
  | addLookahead a b out enc dir =>
    cases h
    exact Build.writes_addLookahead hw
  | add a b out temps enc obj =>
    cases h
    exact Build.writes_addSub hw
  | subtract a b out temps enc obj =>
    cases h
    exact Build.writes_addSub hw
  | sumBit a b out temps position enc dir obj =>
    cases h
    exact Build.writes_sumBit hw
  | complement a out =>
    cases h
    exact Build.writes_complement hw
  | bitwise op a b out enc =>
    cases h
    exact Build.writes_bitwise hw
  | select ifTrue ifFalse choice out temps =>
    cases h
    exact Build.writes_selectTo hw
  | isZero a out =>
    cases h
    exact Build.writes_isZero hw
  | equal a b out =>
    cases h
    exact Build.writes_equal hw
  | notEqual a b out =>
    cases h
    exact Build.writes_notEqual hw
  | lessThan a b out enc obj =>
    cases h
    exact Build.writes_lessThan hw
  | atLeast a b out enc obj =>
    cases h
    exact Build.writes_atLeast hw
  | multiply a b out obj enc =>
    cases h
    exact Build.writes_multiply hw
  | divide a b quot rem enc obj =>
    cases h
    exact Build.writes_divide (List.mem_append.mp hw)
  | negate a out temps obj =>
    cases h
    exact Build.writes_negate hw
  | magnitude a out temps obj =>
    cases h
    exact Build.writes_magnitude hw
  | applySign a sign out temps obj =>
    cases h
    exact Build.writes_applySign hw
  | substituteByte a out =>
    cases h
    exact Build.writes_substituteByte hw
  | mixColumns state out =>
    cases h
    exact Build.writes_mixColumns hw
  | encrypt message expandedKey ciphertext =>
    cases h
    exact Build.writes_encrypt hw
  | _ => cases h

/-- An operation that guards its results is refused where one of them cannot be written to. -/
theorem refuses_of_guardsResults (hg : call.guardsResults = true) (h : call.results? = some results)
    (hw : w ∈ results) (hc : ¬ c.Writable w) : ∃ e, call.run.Refuses c e := by
  have hI := Circuit.upheldInPlace_not_writable w
  have hfree : ∀ {ws : Bundle}, ∀ w ∈ ws, w ∈ (Set.univ : Set Wire) := fun w _ => Set.mem_univ w
  have hwrites := writes_results h hw
  cases call with
  | addRipple a b out temps enc dir =>
    exact hwrites.refused (Build.inPlace_addRipple hI hfree hfree) hc
  | add a b out temps enc obj =>
    obtain rfl : obj = .size := of_decide_eq_true hg
    exact hwrites.refused (Build.inPlace_addRipple hI hfree hfree) hc
  | subtract a b out temps enc obj =>
    obtain rfl : obj = .size := of_decide_eq_true hg
    exact hwrites.refused (Build.inPlace_addRipple hI hfree hfree) hc
  | sumBit a b out temps position enc dir obj =>
    obtain rfl : obj = .size := of_decide_eq_true hg
    exact hwrites.refused (Build.inPlace_sumBit hI hfree hfree) hc
  | complement a out => exact hwrites.refused (Build.inPlace_complement hI hfree) hc
  | bitwise op a b out enc => exact hwrites.refused (Build.inPlace_bitwise hI hfree) hc
  | select ifTrue ifFalse choice out temps =>
    exact hwrites.refused (Build.inPlace_selectTo hI hfree hfree) hc
  | lessThan a b out enc obj =>
    obtain rfl : obj = .size := of_decide_eq_true hg
    cases h
    exact Build.lessThan_size_refuses hw hc
  | negate a out temps obj =>
    obtain rfl : obj = .size := of_decide_eq_true hg
    cases h
    exact Build.negate_size_refuses hw hc
  | _ => cases hg

end Call

/-- **A result on a wire that does not exist is refused**, by every operation that guards its results,
and by every operation that does not allocate this very wire on its way. -/
theorem unallocated_results_refused {c : Circuit} {call : Call} {results : Bundle} {w : Wire}
    (h : call.results? = some results) (hw : w ∈ results) (hun : ¬ c.Allocated w)
    (hown : call.guardsResults = true ∨ ¬ (call.after c).Allocated w) :
    ∃ e, call.run.Refuses c e := by
  rcases hown with hg | hafter
  · exact Call.refuses_of_guardsResults hg h hw fun hc => hun hc.allocated
  · apply Build.exists_refuses
    intro u c' hrun
    have hc' : c'.Writable w := Call.writes_results h hw hrun
    have hlast : call.after c = c' := congrArg Prod.snd hrun
    exact hafter (hlast ▸ hc'.allocated)

/-- A comparison is handed the wire that its first temporary becomes, and an adder that looks ahead a
wire beyond those it allocates. -/
theorem unallocated_results_refused_next :
    ¬ (Call.afterAll [.addInput 1, .addInput 1]).Allocated ⟨2⟩ ∧
      (∃ e, (Call.lessThan [⟨0⟩] [⟨1⟩] [⟨2⟩] .unsigned .size).run.Refuses
        (Call.afterAll [.addInput 1, .addInput 1]) e) ∧
      ∃ e, (Call.addLookahead [⟨0⟩] [⟨1⟩] [⟨3⟩] .unsigned .addition).run.Refuses
        (Call.afterAll [.addInput 1, .addInput 1]) e := by
  refine ⟨by decide, ?_, ?_⟩
  · exact unallocated_results_refused rfl (List.mem_singleton_self _) (by decide) (.inl rfl)
  · exact unallocated_results_refused rfl (List.mem_singleton_self _) (by decide) (.inr (by decide +kernel))

/-- An adder that looks ahead accepts a result on a wire that does not exist: the wire becomes the one
that carries the lowest bit of the sum. -/
theorem lookahead_accepts_unallocated :
    ∃ c : Circuit, Reachable c ∧ ¬ c.Allocated ⟨2⟩ ∧
      ((Call.addLookahead [⟨0⟩] [⟨1⟩] [⟨2⟩] .unsigned .addition).run.exec c).1 = .ok () := by
  refine ⟨Call.afterAll [.addInput 1, .addInput 1], ?_, by decide, by decide +kernel⟩
  exact reachable_afterAll (by simp [Call.template?])

end BitCircuit
