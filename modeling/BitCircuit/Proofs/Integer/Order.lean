/-
# Comparisons are those of integers

One operand is less than another if their difference is negative. Taken one bit wider than the wider
operand the difference cannot overflow, so its top bit is the sign (`testBit_eq_isNeg`), and it is that
of the exact difference whatever the widths and signs of the operands. A comparison the other way
round is computed on a new wire and inverted at the end, after all reads of the operands, so its
result may be one of their wires.

Key definitions: `Compares`.
Key theorems: `testBit_read_sub`, `Build.lessThan_spec`, `Build.atLeast_spec`,
`comparisons_are_exact`.
-/
import BitCircuit.Integer.Order
import BitCircuit.Proofs.Integer.SumBit

namespace BitCircuit

/-! ### The sign of a difference -/

/-- The bit at a position that an integer does not reach is its sign. -/
theorem testBit_eq_isNeg {x : Int} {n : Nat} (hlo : -2 ^ n ≤ x) (hhi : x < 2 ^ n) :
    x.testBit n = decide (x < 0) := by
  have hpow : ((2 ^ n : Nat) : Int) = 2 ^ n := by
    push_cast
    rfl
  cases x with
  | ofNat y =>
    have hy : y < 2 ^ n := by
      rw [Int.ofNat_eq_natCast] at hhi
      omega
    have hneg : ¬ Int.ofNat y < 0 := by
      rw [Int.ofNat_eq_natCast]
      omega
    rw [decide_eq_false hneg]
    exact Nat.testBit_lt_two_pow hy
  | negSucc y =>
    have hy : y < 2 ^ n := by
      rw [Int.negSucc_eq] at hlo
      omega
    rw [decide_eq_true (Int.negSucc_lt_zero y)]
    calc
      (Int.negSucc y).testBit n = !y.testBit n := rfl
      _ = true := by rw [Nat.testBit_lt_two_pow hy]; rfl

/-- A difference of two operands reaches no further than the wider one. -/
theorem read_sub_bounds (enc : Encoding) {as bs : List Bool} {n : Nat} (ha : as.length ≤ n)
    (hb : bs.length ≤ n) :
    -2 ^ n ≤ enc.read as - enc.read bs ∧ enc.read as - enc.read bs < 2 ^ n := by
  have hpa : (2 : Int) ^ as.length ≤ 2 ^ n := pow_le_pow_right₀ (by decide) ha
  have hpb : (2 : Int) ^ bs.length ≤ 2 ^ n := pow_le_pow_right₀ (by decide) hb
  cases enc with
  | unsigned =>
    have hla : (Bits.toNat as : Int) < 2 ^ as.length := by exact_mod_cast Bits.toNat_lt as
    have hlb : (Bits.toNat bs : Int) < 2 ^ bs.length := by exact_mod_cast Bits.toNat_lt bs
    have hread : ∀ cs : List Bool, Encoding.unsigned.read cs = Bits.toNat cs := fun _ => rfl
    rw [hread, hread]
    omega
  | twosComplement =>
    -- twice either operand fits into its width
    have hla : 2 * Encoding.twosComplement.read as < 2 ^ as.length := BitVec.two_mul_toInt_lt
    have hlb : 2 * Encoding.twosComplement.read bs < 2 ^ bs.length := BitVec.two_mul_toInt_lt
    have hga : -2 ^ as.length ≤ 2 * Encoding.twosComplement.read as := BitVec.le_two_mul_toInt
    have hgb : -2 ^ bs.length ≤ 2 * Encoding.twosComplement.read bs := BitVec.le_two_mul_toInt
    omega

/-- **The bit above the wider operand is the sign of the difference.** -/
theorem testBit_read_sub (enc : Encoding) {as bs : List Bool} {n : Nat} (ha : as.length ≤ n)
    (hb : bs.length ≤ n) :
    (enc.read as - enc.read bs).testBit n = decide (enc.read as < enc.read bs) := by
  obtain ⟨hlo, hhi⟩ := read_sub_bounds enc ha hb
  rw [testBit_eq_isNeg hlo hhi]
  exact decide_eq_decide.mpr sub_neg

/-! ### The wires -/

/-- For all inputs the single wire of `out` says in `c'` whether what `a` and `b` spell in `c` are
related. -/
def Compares (c c' : Circuit) (a b out : Bundle) (enc : Encoding) (related : Int → Int → Prop) : Prop :=
  ∃ w, out = [w] ∧ ∀ input : Valuation, c'.value input w = true ↔
    related (enc.read (a.map (c.value input))) (enc.read (b.map (c.value input)))

namespace Build

variable {c c' : Circuit} {a b out : Bundle} {enc : Encoding} {obj : Objective} {u : Unit}

theorem lessThan_spec (hc : c.WellFormed) (ha : ∀ w ∈ a ++ b ++ out, c.Allocated w)
    (h : (lessThan a b out enc obj).exec c = (.ok u, c')) :
    c.Evolves {w | w ∈ out} c' ∧ Compares c c' a b out enc (· < ·) := by
  simp only [List.forall_mem_append] at ha
  obtain ⟨⟨haa, hab⟩, haout⟩ := ha
  unfold lessThan at h
  iterate 2 obtain ⟨-, -, h⟩ := exec_check_bind.mp h
  obtain ⟨temps, c₁, htemps, h⟩ := exec_bind_eq_ok.mp h
  obtain ⟨hspawn, hne⟩ := adderTemps_spec hc htemps
  have hall : ∀ w ∈ a ++ b ++ temps ++ out, c₁.Allocated w := by
    simp only [List.forall_mem_append]
    exact ⟨⟨⟨hspawn.all_allocated haa, hspawn.all_allocated hab⟩, hspawn.present⟩,
      hspawn.all_allocated haout⟩
  obtain ⟨hev, w, rfl, hbit⟩ := sumBit_spec hspawn.wellFormed hall hne h
  refine ⟨hspawn.driven hev fun w hw => hw, w, rfl, fun input => ?_⟩
  rw [hbit, hspawn.map_value hc haa, hspawn.map_value hc hab, Direction.apply,
    testBit_read_sub enc (by simp) (by simp), decide_eq_true_iff]

/-- The inverted comparison, whose result may be a wire of an operand: it is driven last. -/
theorem atLeast_spec (hc : c.WellFormed) (ha : ∀ w ∈ a ++ b, c.Allocated w)
    (h : (atLeast a b out enc obj).exec c = (.ok u, c')) :
    c.Evolves {w | w ∈ out} c' ∧ Compares c c' a b out enc (· ≥ ·) := by
  obtain ⟨haa, hab⟩ := List.forall_mem_append.mp ha
  constructor
  · exact (keeps_atLeast (c.upheld_evolves _) fun w hw => .inl hw).evolves hc h
  unfold atLeast at h
  obtain ⟨u₁, hone, h⟩ := exec_check_bind.mp h
  obtain ⟨less, c₁, hnew, h⟩ := exec_bind_eq_ok.mp h
  obtain ⟨u₂, c₂, hless, h⟩ := exec_bind_eq_ok.mp h
  obtain ⟨l, hl, h⟩ := exec_check_bind.mp h
  obtain ⟨o, ho, hinv⟩ := exec_check_bind.mp h
  obtain ⟨hspawn, -⟩ := newBundle_spec hc hnew
  have hall : ∀ w ∈ a ++ b ++ less, c₁.Allocated w := by
    simp only [List.forall_mem_append]
    exact ⟨⟨hspawn.all_allocated haa, hspawn.all_allocated hab⟩, hspawn.present⟩
  obtain ⟨hev, w, rfl, hbit⟩ := lessThan_spec hspawn.wellFormed hall hless
  obtain rfl : w = l := Option.some.inj (wireAt_eq_ok.mp hl)
  refine ⟨o, eq_singleton_of_wireAt hone ho, fun input => ?_⟩
  rw [(invTo_spec hev.wellFormed hinv).value, Bool.not_eq_true', ← Bool.not_eq_true, hbit,
    hspawn.map_value hc haa, hspawn.map_value hc hab]
  exact Int.not_lt

end Build

/-- **Both comparisons are those of integers** in every circuit that can be built, on the values that
the operands have before; the inverted one also if its result is a wire of an operand. -/
theorem comparisons_are_exact {c : Circuit} (hc : Reachable c) (a b out : Bundle)
    (ha : ∀ w ∈ a ++ b ++ out, c.Allocated w) (enc : Encoding) (obj : Objective) (c' : Circuit) :
    ((Build.lessThan a b out enc obj).exec c = (.ok (), c') → Compares c c' a b out enc (· < ·)) ∧
    ((Build.atLeast a b out enc obj).exec c = (.ok (), c') → Compares c c' a b out enc (· ≥ ·)) := by
  constructor
  · exact fun h => (Build.lessThan_spec hc.wellFormed ha h).2
  · exact fun h => (Build.atLeast_spec hc.wellFormed (List.forall_mem_append.mp ha).1 h).2

/-- Both comparisons of a wide and a narrow operand in two's complement, the inverted one on the wire of
the narrow operand. -/
theorem comparisons_are_exact_on_operand :
    ∃ c less least : Circuit, Reachable c ∧
      (Build.lessThan [⟨0⟩, ⟨1⟩] [⟨2⟩] [⟨3⟩] .twosComplement .size).exec c = (.ok (), less) ∧
      Compares c less [⟨0⟩, ⟨1⟩] [⟨2⟩] [⟨3⟩] .twosComplement (· < ·) ∧
      (Build.atLeast [⟨0⟩, ⟨1⟩] [⟨2⟩] [⟨2⟩] .twosComplement .depth).exec c = (.ok (), least) ∧
      Compares c least [⟨0⟩, ⟨1⟩] [⟨2⟩] [⟨2⟩] .twosComplement (· ≥ ·) := by
  have hc : Reachable (Call.afterAll [.addInput 2, .addTemps 1, .addOutput 1, .copyTo ⟨0⟩ ⟨2⟩]) :=
    reachable_afterAll (by simp [Call.template?])
  obtain ⟨less, hless⟩ : ∃ c', (Build.lessThan [⟨0⟩, ⟨1⟩] [⟨2⟩] [⟨3⟩] .twosComplement .size).exec
      (Call.afterAll [.addInput 2, .addTemps 1, .addOutput 1, .copyTo ⟨0⟩ ⟨2⟩]) = (.ok (), c') :=
    Build.exists_ok (by decide +kernel)
  obtain ⟨least, hleast⟩ : ∃ c', (Build.atLeast [⟨0⟩, ⟨1⟩] [⟨2⟩] [⟨2⟩] .twosComplement .depth).exec
      (Call.afterAll [.addInput 2, .addTemps 1, .addOutput 1, .copyTo ⟨0⟩ ⟨2⟩]) = (.ok (), c') :=
    Build.exists_ok (by decide +kernel)
  exact ⟨_, less, least, hc, hless,
    (comparisons_are_exact hc _ _ _ (by decide +kernel) _ _ _).1 hless, hleast,
    (comparisons_are_exact hc _ _ _ (by decide +kernel) _ _ _).2 hleast⟩

end BitCircuit
