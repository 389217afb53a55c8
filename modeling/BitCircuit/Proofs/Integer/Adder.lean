/-
# Both adders compute with integers

In every circuit that can be built, for operands of any width, with constants, repeated wires or
wires in common, a sum or difference that is not refused is that of the integers on the
operands, cut to the width of the result.

Key definitions: `AddsIntegers`.
Key theorems: `Build.addSub_spec`, `adders_compute_integers`.
-/
import BitCircuit.Integer.Adder
import BitCircuit.Proofs.Integer.Lookahead
import BitCircuit.Proofs.Integer.Ripple
import BitCircuit.Proofs.NewWires
import BitCircuit.Proofs.Reachable

namespace BitCircuit

/-- For all inputs the wires of `out` spell in `c'` the sum or difference of what `a` and `b`
spell in `c`, cut to their number. -/
def AddsIntegers (c c' : Circuit) (a b out : Bundle) (enc : Encoding) (dir : Direction) : Prop :=
  ∀ input : Valuation, (Bits.toNat (out.map (c'.value input)) : Int) =
    dir.apply (enc.read (a.map (c.value input))) (enc.read (b.map (c.value input))) % 2 ^ out.length

namespace Build

variable {c c' : Circuit} {a b out temps : Bundle} {enc : Encoding} {dir : Direction} {u : Unit}

theorem addRipple_spec (hc : c.WellFormed) (ha : ∀ w ∈ a ++ b ++ temps ++ out, c.Allocated w)
    (hout : out.Nodup) (hne : temps[0]? ≠ temps[1]?)
    (h : (addRipple a b out temps enc dir).exec c = (.ok u, c')) :
    AddsIntegers c c' a b out enc dir := by
  intro input
  unfold addRipple at h
  obtain ⟨u₁, hoperands, h⟩ := exec_check_bind.mp h
  obtain ⟨width, hwidth, hdel⟩ := ripple_spec input hc ha (requireOperands_eq_ok hoperands)
    (targetsDistinct_targets hout) hne h
  cases hwidth
  rw [hdel.map_value, toNat_addSubBits_resize]

theorem addLookahead_spec (hc : c.WellFormed) (ha : ∀ w ∈ a ++ b ++ out, c.Allocated w)
    (hout : out.Nodup) (h : (addLookahead a b out enc dir).exec c = (.ok u, c')) :
    AddsIntegers c c' a b out enc dir := by
  intro input
  unfold addLookahead at h
  obtain ⟨u₁, hoperands, h⟩ := exec_check_bind.mp h
  obtain ⟨width, hwidth, hdel⟩ := lookahead_spec input hc ha (requireOperands_eq_ok hoperands) hout h
  cases hwidth
  rw [hdel.map_value, toNat_addSubBits_resize]

/-- The temporaries of an adder are new and distinct. -/
theorem adderTemps_spec {obj : Objective} (hc : c.WellFormed) (h : (adderTemps obj).exec c = (.ok temps, c')) :
    c.Spawns temps c' ∧ (obj = .size → temps[0]? ≠ temps[1]?) := by
  cases obj with
  | size =>
    obtain ⟨hspawn, hlen⟩ := addTemps_spec hc h
    exact ⟨hspawn, fun _ => hspawn.ne_of_length_eq_two hlen⟩
  | depth =>
    obtain ⟨rfl, rfl⟩ := exec_pure_eq_ok.mp h
    exact ⟨.nil hc, by simp⟩

/-- An adder as other operations use it. -/
theorem addSub_spec {obj : Objective} (hc : c.WellFormed)
    (ha : ∀ w ∈ a ++ b ++ temps ++ out, c.Allocated w) (hout : out.Nodup)
    (hne : obj = .size → temps[0]? ≠ temps[1]?)
    (h : (addSub dir a b out temps enc obj).exec c = (.ok u, c')) :
    c.Evolves {w | w ∈ out ∨ w ∈ temps} c' ∧ AddsIntegers c c' a b out enc dir := by
  constructor
  · exact (keeps_addSub (c.upheld_evolves _) (fun w hw => .inl (.inl hw))
      fun w hw => .inl (.inr hw)).evolves hc h
  · cases obj with
    | size => exact addRipple_spec hc ha hout (hne rfl) h
    | depth =>
      simp only [List.forall_mem_append] at ha
      refine addLookahead_spec hc ?_ hout h
      simp only [List.forall_mem_append]
      exact ⟨ha.1.1, ha.2⟩

end Build

/-- **Both adders compute the same function of integers** in every circuit that can be built. -/
theorem adders_compute_integers {c : Circuit} (hc : Reachable c) (a b out : Bundle)
    (ha : ∀ w ∈ a ++ b ++ out, c.Allocated w) (hout : out.Nodup) (enc : Encoding) (dir : Direction)
    (c' : Circuit) :
    (∀ temps : Bundle, (∀ w ∈ temps, c.Allocated w) → temps[0]? ≠ temps[1]? →
      (Build.addRipple a b out temps enc dir).exec c = (.ok (), c') →
      AddsIntegers c c' a b out enc dir) ∧
    ((Build.addLookahead a b out enc dir).exec c = (.ok (), c') →
      AddsIntegers c c' a b out enc dir) := by
  constructor
  · intro temps htemps hne h
    refine Build.addRipple_spec hc.wellFormed (fun w hw => ?_) hout hne h
    simp only [List.mem_append] at hw ha
    rcases hw with (hw | hw) | hw
    · exact ha w (.inl hw)
    · exact htemps w hw
    · exact ha w (.inr hw)
  · exact Build.addLookahead_spec hc.wellFormed ha hout

/-- Both adders on a small circuit, subtracting with a wire that is part of both operands. -/
theorem adders_compute_integers_shared_wire :
    ∃ c ripple lookahead : Circuit, Reachable c ∧
      (Build.addRipple [⟨0⟩, ⟨1⟩] [⟨1⟩] [⟨2⟩, ⟨3⟩] [⟨4⟩, ⟨5⟩] .twosComplement .subtraction).exec c =
        (.ok (), ripple) ∧
      AddsIntegers c ripple [⟨0⟩, ⟨1⟩] [⟨1⟩] [⟨2⟩, ⟨3⟩] .twosComplement .subtraction ∧
      (Build.addLookahead [⟨0⟩, ⟨1⟩] [⟨1⟩] [⟨2⟩, ⟨3⟩] .twosComplement .subtraction).exec c =
        (.ok (), lookahead) ∧
      AddsIntegers c lookahead [⟨0⟩, ⟨1⟩] [⟨1⟩] [⟨2⟩, ⟨3⟩] .twosComplement .subtraction := by
  have hc : Reachable (Call.afterAll [.addInput 2, .addOutput 2, .addTemps 2]) :=
    reachable_afterAll (by simp [Call.template?])
  have hboth := adders_compute_integers hc [⟨0⟩, ⟨1⟩] [⟨1⟩] [⟨2⟩, ⟨3⟩] (by decide) (by decide)
    .twosComplement .subtraction
  obtain ⟨ripple, hripple⟩ : ∃ c', (Build.addRipple [⟨0⟩, ⟨1⟩] [⟨1⟩] [⟨2⟩, ⟨3⟩] [⟨4⟩, ⟨5⟩] .twosComplement
      .subtraction).exec (Call.afterAll [.addInput 2, .addOutput 2, .addTemps 2]) = (.ok (), c') :=
    Build.exists_ok (by decide +kernel)
  obtain ⟨lookahead, hlookahead⟩ : ∃ c', (Build.addLookahead [⟨0⟩, ⟨1⟩] [⟨1⟩] [⟨2⟩, ⟨3⟩] .twosComplement
      .subtraction).exec (Call.afterAll [.addInput 2, .addOutput 2, .addTemps 2]) = (.ok (), c') :=
    Build.exists_ok (by decide +kernel)
  exact ⟨_, ripple, lookahead, hc, hripple, (hboth ripple).1 _ (by decide) (by decide) hripple,
    hlookahead, (hboth lookahead).2 hlookahead⟩

end BitCircuit
