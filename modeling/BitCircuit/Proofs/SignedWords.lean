/-
# Negative words on wide inputs

A circuit is evaluated on words by spelling each of them on its input bundle. A negative number is
passed as the word that is its residue, and the spelling is that of the number as long as the bundle
is no wider than the word. On a wider bundle the positions past the word get zeros, so a negative
number arrives as a large positive one: the two spellings are equal exactly if the bundle is no wider
than a word or the number is not negative (`Word.signedBits_eq_unsignedBits_iff`). Beyond that every
circuit can be given an output that shows the difference, a copy of the first wire past the word
(`Circuit.watching`).

Key definitions: `Circuit.signedInputs`, `Circuit.ReadsSigned`, `Circuit.watching`.

Key theorems: `Circuit.readsSigned_of_fits`, `Circuit.exists_not_readsSigned`,
`words_are_read_signed`.
-/
import BitCircuit.Proofs.Conversions
import BitCircuit.Proofs.Evaluation
import BitCircuit.Proofs.Folding
import BitCircuit.Proofs.Reachable

namespace BitCircuit

/-! ### The two spellings of a word -/

namespace Word

/-- The last bit of a word tells its sign. -/
theorem getLsbD_last (x : Word) : x.getLsbD 127 = decide (x.toInt < 0) := by
  rw [← BitVec.msb_eq_toInt, BitVec.msb_eq_getLsbD_last]

/-- The two spellings differ only past the word, where one of them has the sign. -/
theorem getLsbD_min (x : Word) (i : Nat) :
    x.getLsbD (min i 127) = if i < 128 then x.getLsbD i else decide (x.toInt < 0) := by
  by_cases h : i < 128
  · rw [if_pos h, Nat.min_eq_left (by omega)]
  · rw [if_neg h, Nat.min_eq_right (by omega), getLsbD_last]

/-- **When the two spellings of a word are one.** -/
theorem signedBits_eq_unsignedBits_iff (x : Word) (n : Nat) :
    x.signedBits n = x.unsignedBits n ↔ n ≤ 128 ∨ 0 ≤ x.toInt := by
  have hsame : x.signedBits n = x.unsignedBits n ↔
      ∀ i < n, x.getLsbD (min i 127) = x.getLsbD i := by
    simp [signedBits, unsignedBits, List.map_inj_left]
  rw [hsame]
  constructor
  · intro h
    by_cases hn : n ≤ 128
    · exact .inl hn
    · have hsign := h 128 (by omega)
      rw [getLsbD_min, if_neg (by omega), BitVec.getLsbD_of_ge x 128 (Nat.le_refl 128)] at hsign
      exact .inr (Int.not_lt.mp (of_decide_eq_false hsign))
  · intro h i hi
    rw [getLsbD_min]
    by_cases hword : i < 128
    · rw [if_pos hword]
    · have hpos : 0 ≤ x.toInt := h.resolve_left (by omega)
      rw [if_neg hword, BitVec.getLsbD_of_ge x i (by omega)]
      exact decide_eq_false (Int.not_lt.mpr hpos)

end Word

/-! ### Evaluation on words -/

namespace Circuit

variable {c : Circuit} {xs : List Word}

/-- The bits of numbers in two's complement on the input bundles. -/
def signedInputs (c : Circuit) (xs : List Word) : List (List Bool) :=
  (xs.zip c.inputs).map fun (x, b) => x.signedBits b.length

/-- Evaluation on words is evaluation on the numbers they stand for in two's complement. -/
def ReadsSigned (c : Circuit) (xs : List Word) : Prop :=
  ∃ outs, c.evalBits (c.signedInputs xs) = .ok outs ∧
    c.evalWords xs = .ok (outs.map Word.ofUnsignedBits)

/-- Evaluation on words is evaluation on their bits with zeros past the word. -/
theorem evalWords_of_evalBits {outs : List (List Bool)} (hcount : xs.length = c.inputs.length)
    (h : c.evalBits ((xs.zip c.inputs).map fun (x, b) => x.unsignedBits b.length) = .ok outs) :
    c.evalWords xs = .ok (outs.map Word.ofUnsignedBits) := by
  unfold evalWords
  rw [if_neg (not_not.mpr hcount), h]
  rfl

/-- Some values of the input wires spell the words. -/
theorem exists_spelling (hc : c.WellFormed) (hcount : xs.length = c.inputs.length)
    {f : Word → Nat → List Bool} (hf : ∀ x n, (f x n).length = n) :
    ∃ input : Valuation,
      (c.inputs.map fun b => b.map input) = (xs.zip c.inputs).map (fun (x, b) => f x b.length) ∧
      ∀ q ∈ xs.zip c.inputs, q.2.map input = f q.1 q.2.length := by
  have hsnd : (xs.zip c.inputs).map Prod.snd = c.inputs :=
    List.map_snd_zip (Nat.le_of_eq hcount.symm)
  have hwidths : ((xs.zip c.inputs).map fun (x, b) => f x b.length).map List.length =
      c.inputs.map List.length := by
    calc ((xs.zip c.inputs).map fun (x, b) => f x b.length).map List.length
        = ((xs.zip c.inputs).map Prod.snd).map List.length := by simp [hf]
      _ = c.inputs.map List.length := by rw [hsnd]
  obtain ⟨input, hinput⟩ := exists_input hc hwidths
  refine ⟨input, hinput, List.map_inj_left.mp ?_⟩
  calc (xs.zip c.inputs).map (fun q => q.2.map input)
      = ((xs.zip c.inputs).map Prod.snd).map (fun b => b.map input) := by simp
    _ = (xs.zip c.inputs).map fun (x, b) => f x b.length := by rw [hsnd, hinput]

/-- A circuit whose outputs are driven evaluates on numbers. -/
theorem evalBits_signedInputs (hc : c.WellFormed) (hr : ∀ w ∈ c.outputs.flatten, c.Readable w)
    (hcount : xs.length = c.inputs.length) : ∃ outs, c.evalBits (c.signedInputs xs) = .ok outs := by
  obtain ⟨input, hinput, -⟩ := exists_spelling hc hcount Word.length_signedBits
  exact ⟨_, hinput ▸ evalBits_eq_value hc hr input⟩

/-- **Numbers that fit are read with their sign**: on each bundle that is wider than a word, the
number is not negative. -/
theorem readsSigned_of_fits (hc : c.WellFormed) (hr : ∀ w ∈ c.outputs.flatten, c.Readable w)
    (hcount : xs.length = c.inputs.length)
    (hfits : ∀ q ∈ xs.zip c.inputs, q.2.length ≤ 128 ∨ 0 ≤ q.1.toInt) : c.ReadsSigned xs := by
  obtain ⟨outs, houts⟩ := evalBits_signedInputs hc hr hcount
  refine ⟨outs, houts, evalWords_of_evalBits hcount ?_⟩
  have hsame : c.signedInputs xs =
      (xs.zip c.inputs).map fun (x, b) => x.unsignedBits b.length := by
    refine List.map_congr_left fun q hq => ?_
    exact (Word.signedBits_eq_unsignedBits_iff q.1 q.2.length).mpr (hfits q hq)
  rw [← hsame]
  exact houts

end Circuit

/-! ### A wire past the word -/

namespace Call

/-- The result of a step is not kept. -/
theorem exec_discard {α : Type} (step : Build α) (c : Circuit) :
    (Build.exec (discard step) c).2 = (step.exec c).2 := by
  show ((step >>= fun _ => pure ()).exec c).2 = (step.exec c).2
  rw [Build.exec_bind]
  split
  · rename_i h
    rw [h]
    rfl
  · rename_i h
    rw [h]

variable {c : Circuit} {n : Nat} (hn : n < wireLimit)
include hn

theorem after_addOutput : (Call.addOutput n).after c = c.withOutput n := by
  show (Build.exec (discard (Build.addOutput n)) c).2 = c.withOutput n
  rw [exec_discard, Circuit.exec_addOutput, if_pos hn]

end Call

namespace Circuit

variable {c : Circuit} {w : Wire}

/-- The circuit with an output bundle more, which is a copy of the wire. -/
def watching (c : Circuit) (w : Wire) : Circuit :=
  (Call.copyTo w c.nextWire).after ((Call.addOutput 1).after c)

theorem reachable_watching (hc : Reachable c) (w : Wire) : Reachable (c.watching w) :=
  .call _ (.call _ hc (by simp [Call.template?])) (by simp [Call.template?])

section

variable (hc : c.WellFormed) (hw : c.state? w = some .input)
include hc hw

/-- What the two calls make if the wire is an input. -/
theorem watching_spec : (c.watching w).inputs = c.inputs ∧
    (c.watching w).outputs = c.outputs ++ [[c.nextWire]] ∧
    (∀ x, c.Readable x → (c.watching w).Readable x) ∧ (c.watching w).Readable c.nextWire ∧
    ∀ input : Valuation, (c.watching w).value input c.nextWire = input w := by
  have hwf : (c.withOutput 1).WellFormed := hc.withOutput 1
  have hin : (c.withOutput 1).state? w = some .input := by
    rcases (grows_withOutput 1).state w _ hw with hs | ⟨he, -⟩
    · exact hs
    · cases he
  have hout : (c.withOutput 1).Writable c.nextWire := by
    refine hwf.writable _ (List.mem_append_left _ ?_)
    simp [withOutput, nextBundle_one]
  obtain ⟨c', hcopy⟩ := Build.copyTo_succeeds (Given.readable (.inl hin)) hout
  have hset := Build.copyTo_spec hwf hcopy
  have hwatch : c.watching w = c' := by
    show ((Build.copyTo w c.nextWire).exec ((Call.addOutput 1).after c)).2 = c'
    rw [Call.after_addOutput (by decide), hcopy]
  rw [hwatch]
  refine ⟨hset.inputs, hset.outputs, fun x hx => ?_, hset.readable, fun input => ?_⟩
  · obtain ⟨s, hs, hne⟩ := readable_iff.mp hx
    rcases (grows_withOutput 1).state x s hs with hs | ⟨he, -⟩
    · exact hset.toExtends.readable (readable_iff.mpr ⟨s, hs, hne⟩)
    · exact absurd he hne
  · rw [hset.value, value_input hwf hin]

/-- The outputs of the circuit stay driven. -/
theorem readable_watching (hr : ∀ x ∈ c.outputs.flatten, c.Readable x) :
    ∀ x ∈ (c.watching w).outputs.flatten, (c.watching w).Readable x := by
  obtain ⟨-, houtputs, hread, hnext, -⟩ := watching_spec hc hw
  rw [houtputs, List.flatten_append, List.forall_mem_append]
  exact ⟨fun x hx => hread x (hr x hx), by simpa using hnext⟩

/-- The last output shows the wire. -/
theorem evalBits_watching (hcw : (c.watching w).WellFormed) (hr : ∀ x ∈ c.outputs.flatten, c.Readable x)
    (input : Valuation) : ∃ outs, (c.watching w).evalBits (c.inputs.map fun b => b.map input) =
      .ok (outs ++ [[input w]]) := by
  obtain ⟨hinputs, houtputs, -, -, hvalue⟩ := watching_spec hc hw
  have heval := evalBits_eq_value hcw (readable_watching hc hw hr) input
  rw [hinputs, houtputs, List.map_append, List.map_singleton, List.map_singleton, hvalue] at heval
  exact ⟨_, heval⟩

end

/-- **A negative number on a bundle wider than a word is not read with its sign** by the circuit that
watches the first wire past the word. -/
theorem exists_not_readsSigned {xs : List Word} {q : Word × Bundle} (hc : Reachable c)
    (hr : ∀ x ∈ c.outputs.flatten, c.Readable x) (hcount : xs.length = c.inputs.length)
    (hq : q ∈ xs.zip c.inputs) (hword : 128 < q.2.length) (hneg : q.1.toInt < 0) :
    ∃ c', Reachable c' ∧ c'.inputs = c.inputs ∧ (∀ x ∈ c'.outputs.flatten, c'.Readable x) ∧
      ¬ c'.ReadsSigned xs := by
  have hwf := hc.wellFormed
  obtain ⟨w, hw⟩ : ∃ w, q.2[128]? = some w := ⟨_, List.getElem?_eq_getElem hword⟩
  have hin : c.state? w = some .input :=
    (hwf.input_iff w).mpr (List.mem_flatten.mpr ⟨q.2, (List.of_mem_zip hq).2, List.mem_of_getElem? hw⟩)
  obtain ⟨hinputs, -⟩ := watching_spec hwf hin
  refine ⟨c.watching w, reachable_watching hc w, hinputs, readable_watching hwf hin hr, ?_⟩
  rintro ⟨outs, hbits, hwords⟩
  have heval := evalBits_watching hwf hin (reachable_watching hc w).wellFormed hr
  -- the wire has the sign in one spelling and a zero in the other
  obtain ⟨signed, hsigned, hspell⟩ := exists_spelling hwf hcount Word.length_signedBits
  obtain ⟨unsigned, hunsigned, hspell'⟩ :=
    exists_spelling hwf hcount Word.length_unsignedBits
  have hone : signed w = true := by
    have hat : (q.2.map signed)[128]? = (q.1.signedBits q.2.length)[128]? := by rw [hspell q hq]
    rw [List.getElem?_map, hw, Word.signedBits, List.getElem?_map, List.getElem?_range hword] at hat
    exact (Option.some.inj hat).trans (q.1.getLsbD_last.trans (decide_eq_true hneg))
  have hzero : unsigned w = false := by
    have hat : (q.2.map unsigned)[128]? = (q.1.unsignedBits q.2.length)[128]? := by rw [hspell' q hq]
    rw [List.getElem?_map, hw, Word.unsignedBits, List.getElem?_map, List.getElem?_range hword] at hat
    exact (Option.some.inj hat).trans (BitVec.getLsbD_of_ge q.1 128 (Nat.le_refl 128))
  obtain ⟨os, hos⟩ := heval signed
  obtain ⟨os', hos'⟩ := heval unsigned
  rw [hsigned, hone, ← hinputs] at hos
  rw [hunsigned, hzero, ← hinputs] at hos'
  obtain rfl : os ++ [[true]] = outs := Except.ok.inj (hos.symm.trans hbits)
  rw [evalWords_of_evalBits (hcount.trans (congrArg List.length hinputs.symm)) hos'] at hwords
  have hlast := congrArg List.getLast? (Except.ok.inj hwords)
  rw [List.map_append, List.map_append, List.map_singleton, List.map_singleton, List.getLast?_concat,
    List.getLast?_concat] at hlast
  exact absurd hlast (by decide)

end Circuit

/-- **When evaluation on words reads numbers with their signs.** Take any input bundles that a circuit
can have and one number for each. All circuits with these inputs that can be built and whose outputs are
driven are evaluated on the numbers exactly if each bundle is no wider than a word or its number is not
negative. -/
theorem words_are_read_signed {c : Circuit} (hc : Reachable c)
    (hr : ∀ w ∈ c.outputs.flatten, c.Readable w) (xs : List Word) (hcount : xs.length = c.inputs.length) :
    (∀ c' : Circuit, Reachable c' → c'.inputs = c.inputs →
      (∀ w ∈ c'.outputs.flatten, c'.Readable w) → c'.ReadsSigned xs) ↔
    ∀ q ∈ xs.zip c.inputs, q.2.length ≤ 128 ∨ 0 ≤ q.1.toInt := by
  constructor
  · intro hreads q hq
    by_contra hnot
    obtain ⟨hword, hneg⟩ := not_or.mp hnot
    obtain ⟨c', hc', hinputs, hr', hlost⟩ := Circuit.exists_not_readsSigned hc hr hcount hq
      (Nat.not_le.mp hword) (Int.not_le.mp hneg)
    exact hlost (hreads c' hc' hinputs hr')
  · intro hfits c' hc' hinputs hr'
    rw [← hinputs] at hcount hfits
    exact Circuit.readsSigned_of_fits hc'.wellFormed hr' hcount hfits

/-- The number minus three on a bundle of the width of a word, and on one that is one wire wider. -/
theorem words_are_read_signed_negative :
    ∃ c c' : Circuit, Reachable c ∧ c.inputs.map List.length = [128] ∧ c.ReadsSigned [-3] ∧
      Reachable c' ∧ c'.inputs.map List.length = [129] ∧ ¬ c'.ReadsSigned [-3] := by
  have hc : Reachable (Call.afterAll [.addInput 128, .addOutput 1, .invTo ⟨127⟩ ⟨128⟩]) :=
    reachable_afterAll (by simp [Call.template?])
  have hc' : Reachable (Call.afterAll [.addInput 129]) := reachable_afterAll (by simp [Call.template?])
  have hreads := (words_are_read_signed hc (by decide +kernel) [-3] (by decide +kernel)).mpr
    (by decide +kernel) _ hc rfl (by decide +kernel)
  have hlost := mt (words_are_read_signed hc' (by decide +kernel) [-3] (by decide +kernel)).mp
    (by decide +kernel)
  push Not at hlost
  obtain ⟨c', hreach, hinputs, -, hnot⟩ := hlost
  exact ⟨_, c', hc, by decide +kernel, hreads, hreach, by rw [hinputs]; decide +kernel, hnot⟩

/-- The number minus one on a bundle one wire wider than a word: all its bits are ones, but the last
wire gets a zero. -/
theorem negative_word_loses_sign :
    ∃ c : Circuit, c = Call.afterAll [.addInput 129, .addOutput 1, .copyTo ⟨128⟩ ⟨129⟩] ∧ Reachable c ∧
      (∀ w ∈ c.outputs.flatten, c.Readable w) ∧ c.evalBits (c.signedInputs [-1]) = .ok [[true]] ∧
      c.evalWords [-1] = .ok [0] ∧ ¬ c.ReadsSigned [-1] := by
  have hbits : (Call.afterAll [.addInput 129, .addOutput 1, .copyTo ⟨128⟩ ⟨129⟩]).evalBits
      ((Call.afterAll [.addInput 129, .addOutput 1, .copyTo ⟨128⟩ ⟨129⟩]).signedInputs [-1]) =
      .ok [[true]] := by
    decide +kernel
  have hwords : (Call.afterAll [.addInput 129, .addOutput 1, .copyTo ⟨128⟩ ⟨129⟩]).evalWords [-1] =
      .ok [0] := by
    decide +kernel
  refine ⟨_, rfl, reachable_afterAll (by simp [Call.template?]), by decide +kernel, hbits, hwords, ?_⟩
  rintro ⟨outs, hbits', hwords'⟩
  rw [hbits] at hbits'
  rw [hwords, ← Except.ok.inj hbits'] at hwords'
  exact absurd (Except.ok.inj hwords') (by decide)

end BitCircuit
