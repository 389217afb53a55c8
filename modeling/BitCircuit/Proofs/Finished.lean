/-
# Circuits that are finished

The recipe of a request registers the inputs and outputs, and then appends the gates of its
operation. If the widths are ones the operation is defined for (`Request.Valid`) and no bundle that
is needed is too wide (`Request.Fits`), the recipe runs to the end, every output has been driven by
then, and the circuit can be evaluated on all bits of its input widths (`Request.build_serves`,
`Circuit.Serves.evaluates`).

Key definitions: `Request.Valid`, `Request.Fits`, `Circuit.Registers`, `Circuit.Serves`.
Key theorems: `Circuit.Serves.evaluates`, `Circuit.Registers.evaluates`, `Request.buildBinary_serves`,
`Request.build_serves`.
-/
import BitCircuit.Proofs.Aes.Rounds
import BitCircuit.Proofs.Integer.Completion
import BitCircuit.Proofs.Request

namespace BitCircuit

namespace Request

/-! ### The widths of a request -/

/-- The widths for which an operation is defined: its operands are not empty, nor is the result of
an arithmetic one. The cipher has a round, and its expanded key has a size. -/
def Valid : Request → Prop
  | .addSub _ _ a b c _ | .addSubConst _ a b _ c _ | .multiply _ a b c _ | .divide _ a b c =>
    1 ≤ a ∧ 1 ≤ b ∧ 1 ≤ c
  | .subMsb _ a b _ | .lessThan _ a b _ | .atLeast _ a b _ | .bitwise _ a b _ => 1 ≤ a ∧ 1 ≤ b
  | .addMsb a _ | .equal a | .notEqual a | .magnitude a _ | .applySign a _ | .negate a _ | .isZero a
  | .complement a => 1 ≤ a
  | .select _ => True
  | .aes rounds => 1 ≤ rounds ∧ 128 * (rounds + 1) < sizeLimit

/-- The widths of the input bundles. -/
def inputWidths : Request → List Nat
  | .addSub _ _ a b _ _ | .subMsb _ a b _ | .multiply _ a b _ _ | .divide _ a b _ | .lessThan _ a b _
  | .atLeast _ a b _ | .bitwise _ a b _ => [a, b]
  | .addMsb a _ | .equal a | .notEqual a => [a, a]
  | .addSubConst _ a _ _ _ _ | .magnitude a _ | .negate a _ | .isZero a | .complement a => [a]
  | .applySign a _ => [a, 1]
  | .select a => [a, a, 1]
  | .aes rounds => [128, 128 * (rounds + 1)]

/-- The widths of the output bundles. -/
def outputWidths : Request → List Nat
  | .addSub _ _ _ _ c _ | .addSubConst _ _ _ _ c _ | .multiply _ _ _ c _ | .bitwise _ _ _ c => [c]
  | .divide _ _ _ c => [c, c]
  | .addMsb _ _ | .subMsb _ _ _ _ | .equal _ | .notEqual _ | .lessThan _ _ _ _ | .atLeast _ _ _ _
  | .isZero _ => [1]
  | .select a | .applySign a _ | .negate a _ | .complement a => [a]
  | .magnitude a _ => [a, 1]
  | .aes _ => [128]

/-- The widths of all bundles that a recipe starts with: inputs, outputs and a constant operand. A
cipher whose expanded key has no size gets none. -/
def bundles : Request → List Nat
  | .addSubConst _ a b _ c _ => [a, b, c]
  | .aes rounds => if 128 * (rounds + 1) < sizeLimit then [128, 128 * (rounds + 1), 128] else []
  | r => r.inputWidths ++ r.outputWidths

/-- The widths of bundles that an operation makes besides, where they are wider than those: a
comparison takes a difference one bit wider than its operands, a division subtracts with two bits to
spare. -/
def scratch : Request → List Nat
  | .lessThan _ a b _ | .atLeast _ a b _ => [max a b + 1]
  | .divide _ _ b _ => [b + 2]
  | _ => []

/-- No bundle that is needed is too wide. -/
def Fits (r : Request) : Prop :=
  ∀ n ∈ r.bundles ++ r.scratch, n < wireLimit

instance (r : Request) : Decidable r.Fits :=
  inferInstanceAs (Decidable (∀ n ∈ r.bundles ++ r.scratch, n < wireLimit))

end Request

namespace Circuit

variable {c c' : Circuit} {D : Set Wire} {ins outs : List Bundle}

/-! ### Registered bundles -/

/-- A well-formed circuit with these inputs and outputs. -/
structure Registers (c : Circuit) (ins outs : List Bundle) : Prop where
  wellFormed : c.WellFormed
  inputs : c.inputs = ins
  outputs : c.outputs = outs

namespace Registers

theorem empty : Circuit.empty.Registers [] [] :=
  ⟨wellFormed_empty, rfl, rfl⟩

theorem evolves (h : c.Registers ins outs) (hev : c.Evolves D c') : c'.Registers ins outs :=
  ⟨hev.wellFormed, hev.inputs.trans h.inputs, hev.outputs.trans h.outputs⟩

theorem site (h : c.Registers ins outs) : c.Site {w | w ∈ outs.flatten} := by
  refine ⟨h.wellFormed, fun w hw => h.wellFormed.writable w (List.mem_append_left _ ?_)⟩
  rw [h.outputs]
  exact hw

theorem given (h : c.Registers ins outs) {x : Bundle} (hx : x ∈ ins) : ∀ w ∈ x, c.Given w := by
  intro w hw
  refine .inl ((h.wellFormed.input_iff w).mpr ?_)
  rw [h.inputs]
  exact List.mem_flatten.mpr ⟨x, hx, hw⟩

/-- All registered wires are there. -/
theorem allocated (h : c.Registers ins outs) {b : Bundle} (hb : b ∈ ins ++ outs) :
    ∀ w ∈ b, c.Allocated w := by
  intro w hw
  rcases List.mem_append.mp hb with hb | hb
  · exact (h.given hb w hw).readable.allocated
  · exact (h.site.writable w (List.mem_flatten.mpr ⟨b, hb, hw⟩)).allocated

theorem ready (h : c.Registers ins outs) {x : Bundle} (hx : x ∈ ins) :
    ∀ w ∈ x, c.Ready {w | w ∈ outs.flatten} w :=
  fun w hw => (h.given hx w hw).ready h.site

theorem drivable {out : Bundle} (ho : out ∈ outs) : ∀ w ∈ out, w ∈ {w | w ∈ outs.flatten} :=
  fun _ hw => List.mem_flatten.mpr ⟨out, ho, hw⟩

theorem nodup (h : c.Registers ins outs) : outs.flatten.Nodup := by
  have hnodup := h.wellFormed.nodup
  unfold registered at hnodup
  rw [h.outputs, List.nodup_append, List.nodup_append] at hnodup
  exact hnodup.1.2.1

theorem apart {out out' : Bundle} (h : c.Registers ins [out, out']) : ∀ w ∈ out, w ∉ out' := by
  have hnodup : (out ++ out').Nodup := by simpa using h.nodup
  exact fun w hw hw' => (List.nodup_append.mp hnodup).2.2 w hw w hw' rfl

end Registers

/-! ### Circuits that can be evaluated -/

/-- A well-formed circuit with inputs and outputs of these widths, in which all outputs have been
driven. -/
structure Serves (c : Circuit) (ins outs : List Nat) : Prop where
  wellFormed : c.WellFormed
  inputs : c.inputs.map List.length = ins
  outputs : c.outputs.map List.length = outs
  readable : ∀ w ∈ c.outputs.flatten, c.Readable w

/-- Such a circuit can be evaluated on all bits of its input widths. -/
theorem Serves.evaluates {ins outs : List Nat} (h : c.Serves ins outs) {bits : List (List Bool)}
    (hbits : bits.map List.length = ins) :
    ∃ values, c.evalBits bits = .ok values ∧ values.map List.length = outs := by
  obtain ⟨input, rfl⟩ := exists_input h.wellFormed (hbits.trans h.inputs.symm)
  refine ⟨_, evalBits_eq_value h.wellFormed h.readable input, ?_⟩
  rw [List.map_map, ← h.outputs]
  exact List.map_congr_left fun b _ => List.length_map _

/-- It evaluates to the values of its outputs, the bits being what its inputs carry. -/
theorem Registers.evaluates {widths results : List Nat} {bits : List (List Bool)}
    (h : c.Registers ins outs) (hev : c.Evolves D c') (hserves : c'.Serves widths results)
    (hbits : bits.map List.length = ins.map List.length) :
    ∃ input : Valuation, (ins.map fun b => b.map (c.value input)) = bits ∧
      c'.evalBits bits = .ok (outs.map fun b => b.map (c'.value input)) := by
  have h' := h.evolves hev
  obtain ⟨input, hinput⟩ := exists_input hserves.wellFormed (h'.inputs ▸ hbits)
  have heval := evalBits_eq_value hserves.wellFormed hserves.readable input
  rw [hinput, h'.outputs] at heval
  refine ⟨input, ?_, heval⟩
  rw [← hinput, h'.inputs]
  exact List.map_congr_left fun b hb => (live_input (D := ∅) input h.wellFormed (h.inputs ▸ hb)).values

end Circuit

namespace Build

variable {c : Circuit} {D : Set Wire} {ins outs : List Bundle}

theorem addInput_registers {n : Nat} (h : c.Registers ins outs) (hn : n < wireLimit) :
    (addInput n).Yields c fun b c' => b.length = n ∧ c'.Registers (ins ++ [b]) outs := by
  refine ⟨_, _, by rw [Circuit.exec_addInput, if_pos hn], Circuit.length_nextBundle, ?_⟩
  exact ⟨h.wellFormed.withInput n, congrArg (· ++ _) h.inputs, h.outputs⟩

/-- What could be read before an output is registered can be read with it. -/
theorem addOutput_registers {n : Nat} (h : c.Registers ins outs) (hn : n < wireLimit) :
    (addOutput n).Yields c fun b c' => b.length = n ∧ c'.Registers ins (outs ++ [b]) ∧
      ∀ w, c.Ready {w | w ∈ outs.flatten} w → c'.Ready {w | w ∈ (outs ++ [b]).flatten} w := by
  refine ⟨_, _, by rw [Circuit.exec_addOutput, if_pos hn], Circuit.length_nextBundle, ?_, ?_⟩
  · exact ⟨h.wellFormed.withOutput n, h.inputs, congrArg (· ++ _) h.outputs⟩
  · intro w hw
    obtain ⟨s, hs, hne⟩ := Circuit.readable_iff.mp hw.readable
    refine ⟨Circuit.readable_iff.mpr ⟨s, Circuit.state_addWires hs, hne⟩, fun hmem => ?_⟩
    rw [List.flatten_append, List.flatten_singleton] at hmem
    rcases List.mem_append.mp hmem with hmem | hmem
    · exact hw.apart hmem
    · exact (Circuit.mem_nextBundle.mp hmem).1 hw.readable.allocated

/-- An operation that fills all outputs finishes the circuit. -/
theorem Fills.serves {step : Build Unit} {filled : Bundle} (h : step.Fills c D filled)
    (hr : c.Registers ins outs) (hfilled : ∀ w ∈ outs.flatten, w ∈ filled) :
    step.Yields c fun _ c' => c'.Serves (ins.map List.length) (outs.map List.length) := by
  refine Yields.mono h ?_
  rintro u c' ⟨hev, hreadable⟩
  have hr' := hr.evolves hev
  refine ⟨hr'.wellFormed, by rw [hr'.inputs], by rw [hr'.outputs], fun w hw => ?_⟩
  exact hreadable w (hfilled w (hr'.outputs ▸ hw))

/-- The cipher, at a number of rounds that its key is made for. -/
theorem encrypt_fills {message key out : Bundle} {rounds : Nat} (hs : c.Site D) (hrounds : 1 ≤ rounds)
    (hmlen : message.length = 128) (hklen : key.length = 128 * (rounds + 1)) (holen : out.length = 128)
    (hmessage : ∀ w ∈ message, c.Ready D w) (hkey : ∀ w ∈ key, c.Ready D w)
    (hout : ∀ w ∈ out, w ∈ D) (hnodup : out.Nodup) : (encrypt message key out).Fills c D out := by
  let input : Valuation := fun _ => false
  have hlive : ∀ b : Bundle, (∀ w ∈ b, c.Ready D w) → c.Live input D b (b.map (c.value input)) :=
    fun b hb => ⟨⟨fun w hw => ⟨(hb w hw).readable.allocated, .inl (hb w hw).apart⟩, rfl⟩,
      fun w hw => (hb w hw).readable⟩
  have hmessage := hlive message hmessage
  have hbits : (message.map (c.value input)).length = 128 := by rw [List.length_map, hmlen]
  rw [← Aes.State.toBits_ofBits hbits] at hmessage
  refine Yields.mono (encrypt_yields hrounds (by rw [List.length_map, hklen]) hs.wellFormed hmessage
    (hlive key hkey) ⟨hnodup, hout, fun w hw => hs.writable w (hout w hw)⟩
    (fun w hw => (hs.writable w hw).allocated) holen) ?_
  intro u c' hdrive
  exact ⟨hdrive.toEvolves.mono hout, hdrive.readable⟩

end Build

namespace Request

open Build

variable {a b n : Nat}

/-! ### Recipes -/

theorem ne_nil_of_pos {x : Bundle} (hx : x.length = a) (ha : 1 ≤ a) : x ≠ [] :=
  List.length_pos_iff.mp (hx ▸ ha)

/-- An operation with two operands that fills its result. -/
theorem buildBinary_serves {op : Bundle → Bundle → Bundle → Build Unit} (ha : a < wireLimit)
    (hb : b < wireLimit) (hn : n < wireLimit)
    (hop : ∀ (c : Circuit) (D : Set Wire) (x y out : Bundle), c.Site D → x.length = a → y.length = b →
      out.length = n → (∀ w ∈ x, c.Ready D w) → (∀ w ∈ y, c.Ready D w) → (∀ w ∈ out, w ∈ D) →
      out.Nodup → (op x y out).Fills c D out) :
    (buildBinary a b n op).Yields .empty fun _ c => c.Serves [a, b] [n] := by
  obtain ⟨x, y, out, rfl, rfl, rfl, hinputs, houtputs, hexec⟩ := exec_buildBinary op ha hb hn
  have hr : (operands x.length y.length out.length).Registers [x, y] [out] :=
    ⟨wellFormed_operands _ _ _, hinputs, houtputs⟩
  refine .of_exec_eq hexec ?_
  exact Fills.serves (hop _ _ x y out hr.site rfl rfl rfl (hr.ready (by simp)) (hr.ready (by simp))
    (by simp) (by simpa using hr.nodup)) hr (by simp)

/-- **The circuit of an operation with two operands evaluates to what the operation drives its result
with.** -/
theorem buildBinary_evaluates {op : Bundle → Bundle → Bundle → Build Unit}
    {f : List Bool → List Bool → List Bool} (ha : a < wireLimit) (hb : b < wireLimit) (hn : n < wireLimit)
    (hop : ∀ (c c' : Circuit) (x y out : Bundle) (u : Unit), c.WellFormed →
      (∀ w ∈ x ++ y ++ out, c.Allocated w) → (op x y out).exec c = (.ok u, c') →
      c.Evolves {w | w ∈ out} c' ∧ ∀ input : Valuation,
        out.map (c'.value input) = f (x.map (c.value input)) (y.map (c.value input)))
    (h : (buildBinary a b n op).Yields .empty fun _ c => c.Serves [a, b] [n]) :
    (buildBinary a b n op).Yields .empty fun _ c => ∀ as bs : List Bool, as.length = a →
      bs.length = b → c.evalBits [as, bs] = .ok [f as bs] := by
  obtain ⟨x, y, out, rfl, rfl, rfl, hinputs, houtputs, hexec⟩ := exec_buildBinary op ha hb hn
  have hr : (operands x.length y.length out.length).Registers [x, y] [out] :=
    ⟨wellFormed_operands _ _ _, hinputs, houtputs⟩
  obtain ⟨u, c, hc, hserves⟩ := h
  refine ⟨u, c, hc, fun as bs has hbs => ?_⟩
  have hall : ∀ w ∈ x ++ y ++ out, (operands x.length y.length out.length).Allocated w := by
    simp only [List.forall_mem_append]
    exact ⟨⟨hr.allocated (by simp), hr.allocated (by simp)⟩, hr.allocated (by simp)⟩
  obtain ⟨hev, hvalue⟩ := hop _ c x y out u hr.wellFormed hall (hexec.symm.trans hc)
  have hlens : [as, bs].map List.length = [x, y].map List.length := by simp [has, hbs]
  obtain ⟨input, hinput, heval⟩ := hr.evaluates hev hserves hlens
  rw [List.map_singleton, hvalue] at heval
  rw [List.map_cons, List.map_singleton] at hinput
  obtain ⟨rfl, rfl⟩ : x.map _ = as ∧ y.map _ = bs := by simpa using hinput
  exact heval

/-- An operation with one operand that fills its result. -/
theorem buildUnary_serves {op : Bundle → Bundle → Build Unit} (ha : a < wireLimit) (hn : n < wireLimit)
    (hop : ∀ (c : Circuit) (D : Set Wire) (x out : Bundle), c.Site D → x.length = a →
      out.length = n → (∀ w ∈ x, c.Ready D w) → (∀ w ∈ out, w ∈ D) → (op x out).Fills c D out) :
    (addInput a >>= fun x => addOutput n >>= fun out => op x out).Yields .empty fun _ c =>
      c.Serves [a] [n] := by
  refine .bind (addInput_registers .empty ha) ?_
  rintro x c₁ ⟨rfl, h₁⟩
  refine .bind (addOutput_registers h₁ hn) ?_
  rintro out c₂ ⟨rfl, h₂, -⟩
  exact Fills.serves (hop c₂ _ x out h₂.site rfl rfl (h₂.ready (by simp)) (by simp)) h₂ (by simp)

theorem buildMsb_serves {dir : Direction} {enc : Encoding} {obj : Objective} (ha : 1 ≤ a) (hb : 1 ≤ b)
    (halimit : a < wireLimit) (hblimit : b < wireLimit) :
    (buildMsb dir enc a b obj).Yields .empty fun _ c => c.Serves [a, b] [1] := by
  refine buildBinary_serves halimit hblimit (by decide)
    fun c D x y out hs hx hy hlen hxready hyready hout _ => ?_
  refine fills_of_room (adderTemps_room hs hout) fun temps c₁ D₁ hwide hroom => ?_
  exact sumBit_fills hwide.site (ne_nil_of_pos hx ha) (ne_nil_of_pos hy hb)
    (fun w hw => hwide.ready (hxready w hw)) (fun w hw => hwide.ready (hyready w hw)) hroom hlen (by omega)

/-- The constant operand is there before the result is registered. -/
theorem addSubConst_serves {dir : Direction} {value : Int64} {obj : Objective} (ha : 1 ≤ a) (hb : 1 ≤ b)
    (hn : 1 ≤ n) (halimit : a < wireLimit) (hblimit : b < wireLimit) (hnlimit : n < wireLimit) :
    (Request.addSubConst dir a b value n obj).build.Yields .empty fun _ c => c.Serves [a] [n] := by
  unfold build
  refine .bind (addInput_registers .empty halimit) ?_
  rintro x c₁ ⟨rfl, h₁⟩
  refine .bind (constantBundle_ready h₁.site hblimit) ?_
  rintro y c₂ ⟨hev, hy, hyready⟩
  refine .bind (addOutput_registers (h₁.evolves hev) hnlimit) ?_
  rintro out c₃ ⟨rfl, h₃, hready⟩
  have hfills : (adderTemps obj >>= fun temps =>
      Build.addSub dir x y out temps .twosComplement obj).Fills c₃ {w | w ∈ [out].flatten} out := by
    refine fills_of_room (adderTemps_room h₃.site (by simp)) fun temps c₄ D₄ hwide hroom => ?_
    exact addSub_fills hwide.site (ne_nil_of_pos rfl ha) (ne_nil_of_pos hy hb)
      (fun w hw => hwide.ready (h₃.ready (by simp) w hw))
      (fun w hw => hwide.ready (hready w (hyready w hw))) hroom (ne_nil_of_pos rfl hn) hnlimit
  exact hfills.serves h₃ (by simp)

/-- The circuit of a division before its gates are appended. -/
theorem exec_divide (enc : Encoding) (ha : a < wireLimit) (hb : b < wireLimit) (hn : n < wireLimit) :
    ∃ (c : Circuit) (x y quot rem : Bundle), c.Registers [x, y] [quot, rem] ∧ x.length = a ∧
      y.length = b ∧ quot.length = n ∧ rem.length = n ∧
      (Request.divide enc a b n).build.exec .empty = (Build.divide x y quot rem enc .size).exec c ∧
      c.gates = #[] := by
  refine ⟨(operands a b n).withOutput n, _, _, _, _,
    ⟨(wellFormed_operands a b n).withOutput n, rfl, rfl⟩, Circuit.length_nextBundle,
    Circuit.length_nextBundle, Circuit.length_nextBundle, Circuit.length_nextBundle, ?_, rfl⟩
  rw [build, exec_bind, Circuit.exec_addInput, if_pos ha]
  dsimp only
  rw [exec_bind, Circuit.exec_addInput, if_pos hb]
  dsimp only
  rw [exec_bind, Circuit.exec_addOutput, if_pos hn]
  dsimp only
  rw [exec_bind, Circuit.exec_addOutput, if_pos hn]
  rfl

theorem divide_serves {enc : Encoding} (ha : 1 ≤ a) (hb : 1 ≤ b) (hn : 1 ≤ n) (halimit : a < wireLimit)
    (hnlimit : n < wireLimit) (hblimit : b + 2 < wireLimit) :
    (Request.divide enc a b n).build.Yields .empty fun _ c => c.Serves [a, b] [n, n] := by
  obtain ⟨c, x, y, quot, rem, hr, rfl, rfl, hquot, hrem, hexec, -⟩ :=
    exec_divide enc halimit (b := b) (by omega) hnlimit
  have hfills : (Build.divide x y quot rem enc .size).Fills c {w | w ∈ [quot, rem].flatten} (quot ++ rem) :=
    divide_fills hr.site (ne_nil_of_pos rfl ha) (ne_nil_of_pos rfl hb) (hr.ready (by simp))
      (hr.ready (by simp)) (Circuit.Registers.drivable (by simp)) (Circuit.Registers.drivable (by simp))
      (hquot ▸ hnlimit) (hrem ▸ hnlimit) hblimit (ne_nil_of_pos hquot hn) (ne_nil_of_pos hrem hn) hr.apart
      halimit
  refine .of_exec_eq hexec ?_
  simpa [hquot, hrem] using hfills.serves hr (by simp)

theorem select_serves (halimit : a < wireLimit) :
    (Request.select a).build.Yields .empty fun _ c => c.Serves [a, a, 1] [a] := by
  unfold build
  refine .bind (addInput_registers .empty halimit) ?_
  rintro ifTrue c₁ ⟨ht, h₁⟩
  refine .bind (addInput_registers h₁ halimit) ?_
  rintro ifFalse c₂ ⟨hf, h₂⟩
  refine .bind (addInput_registers h₂ (by decide)) ?_
  rintro choice c₃ ⟨hchoice, h₃⟩
  obtain ⟨chosen, rfl⟩ := List.length_eq_one_iff.mp hchoice
  refine .bind (addOutput_registers h₃ halimit) ?_
  rintro out c₄ ⟨hout, h₄, -⟩
  have hfills : (addTemps 1 >>= selectTo ifTrue ifFalse [chosen] out).Fills c₄
      {w | w ∈ [out].flatten} out := by
    refine fills_of_room (addTemps_room h₄.site (by simp) (by decide)) fun temps c₅ D₅ hwide hroom => ?_
    have hready : ∀ x ∈ [ifTrue, ifFalse, [chosen]], ∀ w ∈ x, c₅.Ready D₅ w := fun x hx w hw =>
      hwide.ready (h₄.ready (by simpa using hx) w hw)
    exact selectTo_fills hwide.site (hf.trans ht.symm) (hout.trans ht.symm) (hready _ (by simp))
      (hready _ (by simp)) (hready [chosen] (by simp) chosen (by simp)) hroom
  simpa [ht, hf, hout] using hfills.serves h₄ (by simp)

theorem applySign_serves {obj : Objective} (ha : 1 ≤ a) (halimit : a < wireLimit) :
    (Request.applySign a obj).build.Yields .empty fun _ c => c.Serves [a, 1] [a] := by
  refine buildBinary_serves halimit (by decide) halimit
    fun c D x sign out hs hx hsign hlen hxready hsready hout _ => ?_
  obtain ⟨sign, rfl⟩ := List.length_eq_one_iff.mp hsign
  refine fills_of_room (addTemps_room hs hout (by decide)) fun temps c₁ D₁ hwide hroom => ?_
  exact applySign_fills hwide.site (ne_nil_of_pos hlen ha) (hlen ▸ halimit) (ne_nil_of_pos hx ha)
    (fun w hw => hwide.ready (hxready w hw)) (hroom.mono obj.max_temps_le)
    (hwide.ready (hsready sign (by simp)))

/-- Besides the magnitude there is the sign, which is a copy of the top bit. -/
theorem magnitude_serves {obj : Objective} (ha : 1 ≤ a) (halimit : a < wireLimit) :
    (Request.magnitude a obj).build.Yields .empty fun _ c => c.Serves [a] [a, 1] := by
  unfold build
  refine .bind (addInput_registers .empty halimit) ?_
  rintro x c₁ ⟨hx, h₁⟩
  refine .bind (addOutput_registers h₁ halimit) ?_
  rintro out c₂ ⟨hout, h₂, -⟩
  refine .bind (addOutput_registers h₂ (by decide)) ?_
  rintro signs c₃ ⟨hsigns, h₃, -⟩
  obtain ⟨sign, rfl⟩ := List.length_eq_one_iff.mp hsigns
  obtain ⟨top, htop, hmsb⟩ := exists_msb (ne_nil_of_pos hx ha)
  have hfills : (addTemps 2 >>= fun temps => Build.magnitude x out temps obj >>= fun _ =>
      (liftM x.msb : Build Wire) >>= fun w => (liftM (Bundle.wireAt [sign] 0) : Build Wire) >>= fun o =>
        copyTo w o).Fills c₃ {w | w ∈ [out, [sign]].flatten} (out ++ [sign]) := by
    refine fills_of_room (addTemps_room h₃.site (by simp) (by decide)) fun temps c₄ D₄ hwide hroom => ?_
    have hxready : ∀ w ∈ x, c₄.Ready D₄ w := fun w hw => hwide.ready (h₃.ready (by simp) w hw)
    have hroom' : Room D₄ out temps (max 1 obj.temps) :=
      (hroom.of_subset fun w hw => List.mem_append_left _ hw).mono obj.max_temps_le
    refine .append (magnitude_fills hwide.site (ne_nil_of_pos hout ha) (hout ▸ halimit) (ne_nil_of_pos hx ha)
      hxready hroom' (hx ▸ halimit)) fun c₅ hev _ => ?_
    refine .checked hmsb (.checked (wireAt_eq_ok.mpr rfl) ?_)
    exact copyTo_fills (hwide.site.evolves hev) (hev.readable (hxready top htop).readable)
      (hroom.out_mem sign (by simp))
  simpa [hx, hout] using hfills.serves h₃ (by simp)

/-! ### Requests that have a circuit -/

/-- **The recipe of a request runs to the end** if its widths are ones the operation is defined for
and no bundle that is needed is too wide. -/
theorem build_serves {r : Request} (hvalid : r.Valid) (hfits : r.Fits) :
    r.build.Yields .empty fun _ c => c.Serves r.inputWidths r.outputWidths := by
  cases r with
  | addSub dir enc a b n obj =>
    obtain ⟨ha, hb, hn⟩ := hvalid
    obtain ⟨halimit, hblimit, hnlimit⟩ : a < wireLimit ∧ b < wireLimit ∧ n < wireLimit := by
      simpa [Fits, bundles, inputWidths, outputWidths, scratch] using hfits
    refine buildBinary_serves halimit hblimit hnlimit
      fun c D x y out hs hx hy hlen hxready hyready hout _ => ?_
    refine fills_of_room (adderTemps_room hs hout) fun temps c₁ D₁ hwide hroom => ?_
    exact addSub_fills hwide.site (ne_nil_of_pos hx ha) (ne_nil_of_pos hy hb)
      (fun w hw => hwide.ready (hxready w hw)) (fun w hw => hwide.ready (hyready w hw)) hroom
      (ne_nil_of_pos hlen hn) (hlen ▸ hnlimit)
  | addSubConst dir a b v n obj =>
    obtain ⟨ha, hb, hn⟩ := hvalid
    obtain ⟨halimit, hblimit, hnlimit⟩ : a < wireLimit ∧ b < wireLimit ∧ n < wireLimit := by
      simpa [Fits, bundles, scratch] using hfits
    exact addSubConst_serves ha hb hn halimit hblimit hnlimit
  | addMsb a obj =>
    have halimit : a < wireLimit := hfits a (by simp [bundles, inputWidths])
    exact buildMsb_serves hvalid hvalid halimit halimit
  | subMsb enc a b obj =>
    exact buildMsb_serves hvalid.1 hvalid.2 (hfits a (by simp [bundles, inputWidths]))
      (hfits b (by simp [bundles, inputWidths]))
  | multiply enc a b n obj =>
    obtain ⟨ha, hb, hn⟩ := hvalid
    obtain ⟨halimit, hblimit, hnlimit⟩ : a < wireLimit ∧ b < wireLimit ∧ n < wireLimit := by
      simpa [Fits, bundles, inputWidths, outputWidths, scratch] using hfits
    refine buildBinary_serves halimit hblimit hnlimit
      fun c D x y out hs hx hy hlen hxready hyready hout _ => ?_
    exact multiply_fills hs (ne_nil_of_pos hx ha) (ne_nil_of_pos hy hb) (ne_nil_of_pos hlen hn) hxready
      hyready hout (hx ▸ halimit) (hlen ▸ hnlimit) (hy ▸ hblimit)
  | divide enc a b n =>
    obtain ⟨ha, hb, hn⟩ := hvalid
    exact divide_serves ha hb hn (hfits a (by simp [bundles, inputWidths]))
      (hfits n (by simp [bundles, outputWidths])) (hfits (b + 2) (by simp [scratch]))
  | equal a =>
    have halimit : a < wireLimit := hfits a (by simp [bundles, inputWidths])
    refine buildBinary_serves halimit halimit (by decide)
      fun c D x y out hs hx hy hlen hxready hyready hout _ => ?_
    exact equal_fills hs hout hlen (ne_nil_of_pos hx hvalid) hxready (hy.trans hx.symm) hyready
  | notEqual a =>
    have halimit : a < wireLimit := hfits a (by simp [bundles, inputWidths])
    refine buildBinary_serves halimit halimit (by decide)
      fun c D x y out hs hx hy hlen hxready hyready hout _ => ?_
    exact notEqual_fills hs hout hlen (ne_nil_of_pos hx hvalid) hxready (hy.trans hx.symm) hyready
  | lessThan enc a b obj =>
    have hlimit : max a b + 1 < wireLimit := hfits (max a b + 1) (by simp [scratch])
    refine buildBinary_serves (by omega) (by omega) (by decide)
      fun c D x y out hs hx hy hlen hxready hyready hout _ => ?_
    exact lessThan_fills hs hout hlen (ne_nil_of_pos hx hvalid.1) (ne_nil_of_pos hy hvalid.2) hxready hyready
      (by rwa [hx, hy])
  | atLeast enc a b obj =>
    have hlimit : max a b + 1 < wireLimit := hfits (max a b + 1) (by simp [scratch])
    refine buildBinary_serves (by omega) (by omega) (by decide)
      fun c D x y out hs hx hy hlen hxready hyready hout _ => ?_
    exact atLeast_fills hs hout hlen (ne_nil_of_pos hx hvalid.1) (ne_nil_of_pos hy hvalid.2) hxready hyready
      (by rwa [hx, hy])
  | select a => exact select_serves (hfits a (by simp [bundles, inputWidths]))
  | magnitude a obj => exact magnitude_serves hvalid (hfits a (by simp [bundles, inputWidths]))
  | applySign a obj => exact applySign_serves hvalid (hfits a (by simp [bundles, inputWidths]))
  | negate a obj =>
    have halimit : a < wireLimit := hfits a (by simp [bundles, inputWidths])
    refine buildUnary_serves halimit halimit fun c D x out hs hx hlen hxready hout => ?_
    refine fills_of_room (addTemps_room hs hout (by decide)) fun temps c₁ D₁ hwide hroom => ?_
    exact negate_fills hwide.site (ne_nil_of_pos hlen hvalid) (hlen ▸ halimit) (ne_nil_of_pos hx hvalid)
      (fun w hw => hwide.ready (hxready w hw)) (hroom.mono ((le_max_right _ _).trans obj.max_temps_le))
  | isZero a =>
    refine buildUnary_serves (hfits a (by simp [bundles, inputWidths])) (by decide)
      fun c D x out hs hx hlen hxready hout => ?_
    exact isZero_fills hs hout hlen (ne_nil_of_pos hx hvalid) hxready
  | complement a =>
    have halimit : a < wireLimit := hfits a (by simp [bundles, inputWidths])
    refine buildUnary_serves halimit halimit fun c D x out hs hx hlen hxready hout => ?_
    exact complement_fills hs hout (hlen ▸ halimit) (ne_nil_of_pos hx hvalid) hxready
  | bitwise op a b n =>
    obtain ⟨halimit, hblimit, hnlimit⟩ : a < wireLimit ∧ b < wireLimit ∧ n < wireLimit := by
      simpa [Fits, bundles, inputWidths, outputWidths, scratch] using hfits
    refine buildBinary_serves halimit hblimit hnlimit
      fun c D x y out hs hx hy hlen hxready hyready hout _ => ?_
    exact bitwise_fills hs hout (hlen ▸ hnlimit) (ne_nil_of_pos hx hvalid.1) hxready (by cases op <;> rfl)
      (ne_nil_of_pos hy hvalid.2) hyready
  | aes rounds =>
    obtain ⟨hrounds, hsize⟩ := hvalid
    have hlimit : 128 * (rounds + 1) < wireLimit := hfits _ (by simp [bundles, hsize])
    have hwidth : Aes.keyWidth rounds = .ok (128 * (rounds + 1)) := if_pos hsize
    refine .checked hwidth (buildBinary_serves (by decide) hlimit (by decide)
      fun c D x y out hs hx hy hlen hxready hyready hout hnodup => ?_)
    exact encrypt_fills hs hrounds hx hy hlen hxready hyready hout hnodup

end Request
end BitCircuit
