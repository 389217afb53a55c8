/-
# One bit of a sum

An adder that is asked for a single bit computes the sum up to that bit, by a chain that drops the
other bits or by a tree for the carry. Either way the wire has the bit at its position of the exact
sum or difference, written in two's complement without end: what is cut off above a position does
not change the bit there (`testBit_of_emod`). So the position may lie below, at or far above the
widths of the operands.

Key definitions: `ExtractsBit`, `Circuit.ComputesBit`.
Key theorems: `testBit_of_emod`, `Build.sumBit_spec`, `sum_bit_is_exact`.
-/
import Mathlib.Data.Int.Bitwise
import BitCircuit.Proofs.Feasibility
import BitCircuit.Proofs.Integer.Adder

namespace BitCircuit

open Bits

/-! ### Bits of integers -/

namespace Bits

theorem testBit_toNat (bs : List Bool) (i : Nat) : (toNat bs).testBit i = bs.getD i false := by
  rw [toNat, BitVec.testBit_toNat, BitVec.getLsbD_ofBoolListLE]

/-- The last bit is the one at the highest position. -/
theorem getLast?_eq_testBit {bs : List Bool} {n : Nat} (h : bs.length = n + 1) :
    bs.getLast? = some ((toNat bs).testBit n) := by
  have hn : n < bs.length := by omega
  rw [List.getLast?_eq_getElem?, h, Nat.add_sub_cancel, testBit_toNat, List.getD_eq_getElem?_getD,
    List.getElem?_eq_getElem hn]
  rfl

end Bits

/-- The remainder by a power of two has the low bits of an integer. -/
theorem testBit_of_emod {x : Int} {m n k : Nat} (hn : n < k) (h : (m : Int) = x % 2 ^ k) :
    m.testBit n = x.testBit n := by
  cases x with
  | ofNat y =>
    have hm : m = y % 2 ^ k := by
      rw [Int.ofNat_eq_natCast] at h
      exact_mod_cast h
    rw [hm, Nat.testBit_mod_two_pow, decide_eq_true hn, Bool.true_and]
    rfl
  | negSucc y =>
    -- the complement of the low bits
    have hlt : y % 2 ^ k < 2 ^ k := Nat.mod_lt y (Nat.two_pow_pos k)
    have hm : m = 2 ^ k - (y % 2 ^ k + 1) := by
      rw [Int.negSucc_emod y (by positivity)] at h
      have hcast : ((y % 2 ^ k : Nat) : Int) = (y : Int) % 2 ^ k := by
        push_cast
        rfl
      have hpow : ((2 ^ k : Nat) : Int) = 2 ^ k := by
        push_cast
        rfl
      omega
    rw [hm, Nat.testBit_two_pow_sub_succ hlt, Nat.testBit_mod_two_pow, decide_eq_true hn,
      Bool.true_and, Bool.true_and]
    rfl

/-! ### The wire -/

/-- For all inputs the single wire of `out` has in `c'` the bit at a position of the sum or difference
of what `a` and `b` spell in `c`. -/
def ExtractsBit (c c' : Circuit) (a b out : Bundle) (position : Nat) (enc : Encoding)
    (dir : Direction) : Prop :=
  ∃ w, out = [w] ∧ ∀ input : Valuation, c'.value input w =
    (dir.apply (enc.read (a.map (c.value input))) (enc.read (b.map (c.value input)))).testBit position

namespace Build

variable {c c' : Circuit} {a b out temps : Bundle} {enc : Encoding} {dir : Direction}
  {obj : Objective} {position : Nat} {u : Unit}

/-- The last bit of a sum of some width. -/
theorem getLast?_addSubBits_resize (n : Nat) (as bs : List Bool) :
    (addSubBits dir ((enc.resize (n + 1) as).zip (enc.resize (n + 1) bs))).getLast? =
      some ((dir.apply (enc.read as) (enc.read bs)).testBit n) := by
  have hlen : (addSubBits dir ((enc.resize (n + 1) as).zip (enc.resize (n + 1) bs))).length = n + 1 := by
    rw [addSubBits, length_addBits, List.length_map, List.length_zip, length_resize, length_resize,
      Nat.min_self]
  rw [getLast?_eq_testBit hlen,
    testBit_of_emod (Nat.lt_succ_self n) (toNat_addSubBits_resize enc dir (n + 1) as bs)]

/-- **A sum bit is that of the exact sum or difference**, wherever its position lies. -/
theorem sumBit_spec (hc : c.WellFormed) (ha : ∀ w ∈ a ++ b ++ temps ++ out, c.Allocated w)
    (hne : obj = .size → temps[0]? ≠ temps[1]?)
    (h : (sumBit a b out temps position enc dir obj).exec c = (.ok u, c')) :
    c.Evolves {w | w ∈ out ∨ w ∈ temps} c' ∧ ExtractsBit c c' a b out position enc dir := by
  constructor
  · exact (keeps_sumBit (c.upheld_evolves _) (fun w hw => .inl (.inl hw))
      fun w hw => .inl (.inr hw)).evolves hc h
  unfold sumBit at h
  obtain ⟨u₁, hone, h⟩ := exec_check_bind.mp h
  obtain ⟨o, ho, h⟩ := exec_check_bind.mp h
  obtain ⟨u₂, hoperands, hadder⟩ := exec_check_bind.mp h
  obtain rfl := eq_singleton_of_wireAt hone ho
  have hdisjoint := requireOperands_eq_ok hoperands
  refine ⟨o, rfl, fun input => ?_⟩
  -- both adders deliver the bits of the sum up to the position
  obtain ⟨width, hwidth, hdel⟩ : ∃ width, (Sink.bit position o).width = .ok width ∧
      c'.Delivers input (Sink.bit position o).targets
        (addSubBits dir ((enc.resize width (a.map (c.value input))).zip
          (enc.resize width (b.map (c.value input))))) := by
    cases obj with
    | size =>
      exact ripple_spec input hc ha hdisjoint (targetsDistinct_targets (List.nodup_singleton o))
        (hne rfl) hadder
    | depth =>
      simp only [List.forall_mem_append] at ha
      refine lookahead_spec input hc ?_ hdisjoint (List.nodup_singleton o) hadder
      simp only [List.forall_mem_append]
      exact ⟨ha.1.1, ha.2⟩
  have hlen := Sink.length_targets hwidth
  rw [Sink.targets, List.length_append, List.length_replicate, List.length_singleton] at hlen
  subst hlen
  have hlast := (Circuit.delivers_bit.mp hdel).2
  rw [getLast?_addSubBits_resize] at hlast
  exact (Option.some.inj hlast).symm

end Build

/-! ### Circuits for the top bit -/

/-- On all operands of widths `a` and `b` the circuit evaluates to the bit at a position of their sum
or difference. -/
def Circuit.ComputesBit (c : Circuit) (a b position : Nat) (enc : Encoding) (dir : Direction) : Prop :=
  ∀ as bs : List Bool, as.length = a → bs.length = b →
    c.evalBits [as, bs] = .ok [[(dir.apply (enc.read as) (enc.read bs)).testBit position]]

namespace Request

open Build

variable {r : Request} {dir : Direction} {enc : Encoding} {a b : Nat} {obj : Objective} {c : Circuit}

theorem buildMsb_computes (ha : 1 ≤ a) (hb : 1 ≤ b) (halimit : a < wireLimit) (hblimit : b < wireLimit) :
    (buildMsb dir enc a b obj).Yields .empty fun _ c => c.ComputesBit a b (max a b - 1) enc dir := by
  refine buildBinary_evaluates
    (f := fun as bs => [(dir.apply (enc.read as) (enc.read bs)).testBit (max a b - 1)]) halimit hblimit
    (by decide) (fun c c' x y out u hc hall h => ?_) (buildMsb_serves ha hb halimit hblimit)
  obtain ⟨temps, c₁, htemps, h⟩ := exec_bind_eq_ok.mp h
  obtain ⟨hspawn, hne⟩ := adderTemps_spec hc htemps
  simp only [List.forall_mem_append] at hall
  obtain ⟨⟨hx, hy⟩, hout⟩ := hall
  have hall₁ : ∀ w ∈ x ++ y ++ temps ++ out, c₁.Allocated w := by
    simp only [List.forall_mem_append]
    exact ⟨⟨⟨hspawn.all_allocated hx, hspawn.all_allocated hy⟩, hspawn.present⟩, hspawn.all_allocated hout⟩
  obtain ⟨hev, o, rfl, hbit⟩ := sumBit_spec hspawn.wellFormed hall₁ hne h
  refine ⟨hspawn.driven hev fun w hw => hw, fun input => ?_⟩
  rw [List.map_singleton, hbit, hspawn.map_value hc hx, hspawn.map_value hc hy]

/-- A request that is served by the top bit of an adder. -/
theorem circuit_of_buildMsb (hr : r.build = buildMsb dir enc a b obj) (ha : 1 ≤ a) (hb : 1 ≤ b)
    (halimit : a < wireLimit) (hblimit : b < wireLimit) :
    ∃ c, r.circuit = .ok c ∧ c.ComputesBit a b (max a b - 1) enc dir :=
  circuit_of_yields (hr ▸ buildMsb_computes ha hb halimit hblimit)

theorem computesBit_of_circuit (hr : r.build = buildMsb dir enc a b obj)
    (hwidths : r.Valid → 1 ≤ a ∧ 1 ≤ b) (hbundles : a ∈ r.bundles ∧ b ∈ r.bundles)
    (h : r.circuit = .ok c) : c.ComputesBit a b (max a b - 1) enc dir := by
  obtain ⟨hvalid, hfits⟩ := valid_of_circuit h
  obtain ⟨ha, hb⟩ := hwidths hvalid
  obtain ⟨c', hc', hbit⟩ := circuit_of_buildMsb hr ha hb
    (hfits a (List.mem_append_left _ hbundles.1)) (hfits b (List.mem_append_left _ hbundles.2))
  cases h.symm.trans hc'
  exact hbit

end Request

open Catalogue in
/-- **A sum bit is that of the exact sum or difference**, in every circuit that can be built and at
every position. The circuits for the top bit of a sum or difference, which a catalogue has for all
widths that a bundle can have, so compute the bit at the top of the wider operand. -/
theorem sum_bit_is_exact :
    (∀ c : Circuit, Reachable c → ∀ a b out temps : Bundle,
      (∀ w ∈ a ++ b ++ temps ++ out, c.Allocated w) →
      ∀ (position : Nat) (enc : Encoding) (dir : Direction) (obj : Objective),
      (obj = .size → temps[0]? ≠ temps[1]?) → ∀ c' : Circuit,
      (Build.sumBit a b out temps position enc dir obj).exec c = (.ok (), c') →
      ExtractsBit c c' a b out position enc dir) ∧
    (∀ (before : List Request) (enc : Encoding) (a b : Nat) (obj : Objective) (c : Circuit),
      (((afterAll before).serve (.addMsb a obj)).result = .ok c →
        c.ComputesBit a a (a - 1) .twosComplement .addition) ∧
      (((afterAll before).serve (.subMsb enc a b obj)).result = .ok c →
        c.ComputesBit a b (max a b - 1) enc .subtraction)) ∧
    ∀ (before : List Request) (enc : Encoding) (a b : Nat) (obj : Objective), 1 ≤ a → a < wireLimit →
      1 ≤ b → b < wireLimit → (∃ c, ((afterAll before).serve (.addMsb a obj)).result = .ok c) ∧
        ∃ c, ((afterAll before).serve (.subMsb enc a b obj)).result = .ok c := by
  refine ⟨fun c hc a b out temps hall position enc dir obj hne c' h =>
    (Build.sumBit_spec hc.wellFormed hall hne h).2, fun before enc a b obj c => ?_,
    fun before enc a b obj ha halimit hb hblimit => ?_⟩
  · rw [(holds_afterAll before).result_eq, (holds_afterAll before).result_eq]
    constructor
    · intro h
      have hbit := Request.computesBit_of_circuit rfl (fun hvalid => ⟨hvalid, hvalid⟩)
        (by simp [Request.bundles, Request.inputWidths]) h
      rwa [Nat.max_self] at hbit
    · exact Request.computesBit_of_circuit rfl id (by simp [Request.bundles, Request.inputWidths])
  · rw [(holds_afterAll before).result_eq, (holds_afterAll before).result_eq]
    obtain ⟨c, hc, -⟩ := Request.circuit_of_buildMsb (r := .addMsb a obj) rfl ha ha halimit halimit
    obtain ⟨c', hc', -⟩ := Request.circuit_of_buildMsb (r := .subMsb enc a b obj) rfl ha hb halimit hblimit
    exact ⟨⟨c, hc⟩, c', hc'⟩

/-- A bit far above both operands of a difference, by each adder, with a wire that is part of both. -/
theorem sum_bit_is_exact_above_operands :
    ∃ c small shallow : Circuit, Reachable c ∧
      (Build.sumBit [⟨0⟩, ⟨1⟩] [⟨1⟩] [⟨2⟩] [⟨3⟩, ⟨4⟩] 5 .unsigned .subtraction .size).exec c =
        (.ok (), small) ∧
      ExtractsBit c small [⟨0⟩, ⟨1⟩] [⟨1⟩] [⟨2⟩] 5 .unsigned .subtraction ∧
      (Build.sumBit [⟨0⟩, ⟨1⟩] [⟨1⟩] [⟨2⟩] [] 5 .unsigned .subtraction .depth).exec c =
        (.ok (), shallow) ∧
      ExtractsBit c shallow [⟨0⟩, ⟨1⟩] [⟨1⟩] [⟨2⟩] 5 .unsigned .subtraction := by
  have hc : Reachable (Call.afterAll [.addInput 2, .addOutput 1, .addTemps 2]) :=
    reachable_afterAll (by simp [Call.template?])
  obtain ⟨small, hsmall⟩ : ∃ c', (Build.sumBit [⟨0⟩, ⟨1⟩] [⟨1⟩] [⟨2⟩] [⟨3⟩, ⟨4⟩] 5 .unsigned .subtraction
      .size).exec (Call.afterAll [.addInput 2, .addOutput 1, .addTemps 2]) = (.ok (), c') :=
    Build.exists_ok (by decide +kernel)
  obtain ⟨shallow, hshallow⟩ : ∃ c', (Build.sumBit [⟨0⟩, ⟨1⟩] [⟨1⟩] [⟨2⟩] [] 5 .unsigned .subtraction
      .depth).exec (Call.afterAll [.addInput 2, .addOutput 1, .addTemps 2]) = (.ok (), c') :=
    Build.exists_ok (by decide +kernel)
  exact ⟨_, small, shallow, hc, hsmall,
    sum_bit_is_exact.1 _ hc _ _ _ _ (by decide) _ _ _ _ (by decide) _ hsmall, hshallow,
    sum_bit_is_exact.1 _ hc _ _ _ _ (by decide) _ _ _ _ (by decide) _ hshallow⟩

end BitCircuit
