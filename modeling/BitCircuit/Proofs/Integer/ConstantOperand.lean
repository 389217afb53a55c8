/-
# Adders with a constant operand

A constant operand is there as constant wires before the adder appends its gates, and what they touch
is folded. The circuit still computes what the one with two inputs computes when its second input is
given the bits of the constant: both adders are exact in any circuit, whatever their operands are made
of (`Request.addSubConst_evaluates`, `Request.addSub_evaluates`).

The number of conjunctions and disjunctions of an adder in two's complement depends on its width alone
as long as there are no constants, and it is never larger where there are some. For a small adder this
is one for each column but the last. A shallow one spends one for each position that generates a
carry, and in its network those that join spans (`Build.lookaheadCost`, `Build.adder_nonlinear`).

Key definitions: `constantBits`, `Build.networkCost`, `Build.lookaheadCost`, `Build.adderCost`.
Key theorems: `Build.spends_koggeStone`, `Build.spends_lookahead`, `Build.adder_nonlinear`,
`Request.addSubConst_evaluates`, `constant_operand_agrees`.
-/
import BitCircuit.Proofs.Integer.AdderSize
import BitCircuit.Proofs.Integer.Product

namespace BitCircuit

/-- The low `n` bits of a constant in two's complement, the sign repeated as far as needed. -/
def constantBits (v : Int64) (n : Nat) : List Bool :=
  (List.range n).map fun i => v.toInt.testBit i

/-- A word repeats the sign of the constant from its last bit on. -/
theorem signedBits_ofInt (v : Int64) (n : Nat) :
    Word.signedBits (BitVec.ofInt 128 v.toInt) n = constantBits v n := by
  unfold Word.signedBits constantBits
  refine List.map_congr_left fun i _ => ?_
  have hlow : (BitVec.ofInt 128 v.toInt).getLsbD (min i 127) = v.toInt.testBit (min i 127) := by
    rw [← BitVec.testBit_toNat]
    refine testBit_of_emod (k := 128) (by omega) ?_
    rw [BitVec.toNat_ofInt]
    exact Int.toNat_of_nonneg (Int.emod_nonneg _ (by decide))
  rw [hlow]
  rcases Nat.le_total i 127 with h | h
  · rw [Nat.min_eq_left h]
  · have hlo := v.le_toInt
    have hhi := v.toInt_lt
    have hsign : ∀ k, 127 ≤ k → v.toInt.testBit k = decide (v.toInt < 0) := fun k hk =>
      have hpow : (2 : Int) ^ 63 ≤ 2 ^ k := pow_le_pow_right₀ (by decide) (by omega)
      testBit_eq_isNeg (by omega) (by omega)
    rw [Nat.min_eq_right h, hsign 127 (Nat.le_refl _), hsign i h]

namespace Build

variable {c c' : Circuit} {a b out : Bundle} {dir : Direction} {u : Unit} {n : Nat}

/-! ### What a shallow adder spends -/

theorem spends_and {x y : Wire} : Spends (gate .and x y) 1 fun _ => True := spends_gate

theorem spends_or {x y : Wire} : Spends (gate .or x y) 1 fun _ => True := spends_gate

theorem spends_xor {x y : Wire} : Spends (gate .xor x y) 0 fun _ => True := spends_gate

theorem spends_propagateBoth {skip : Bool} {unused : Wire} {lo hi : Span} :
    Spends (propagateBoth skip unused lo hi) (!skip).toNat fun _ => True := by
  cases skip with
  | true => exact .pure trivial
  | false => exact spends_and

/-- A level of the network spends a conjunction on each span that is joined, and another one if its
propagate is still needed. -/
theorem spends_joinStride : ∀ his los below : List Span, los.length ≤ his.length →
    below.length ≤ los.length →
    Spends (joinStride his los below) (los.length + below.length) fun top => top.length = his.length
  | [], [], [], _, _ => .pure rfl
  | hi :: his, [], [], _, _ => .pure rfl
  | hi :: his, lo :: los, below, hlos, hbelow => by
    have hcost : (lo :: los).length + below.length =
        1 + ((!below.isEmpty).toNat + (los.length + below.tail.length)) := by
      cases below with
      | nil =>
        simp only [List.length_cons, List.length_nil, List.isEmpty_nil, List.tail_nil, Bool.not_true,
          Bool.toNat_false]
        omega
      | cons s below =>
        simp only [List.length_cons, List.isEmpty_cons, List.tail_cons, Bool.not_false, Bool.toNat_true]
        omega
    have htail : below.tail.length ≤ los.length := by
      rw [List.length_tail]
      exact Nat.sub_le_of_le_add hbelow
    have hrest := spends_joinStride his los below.tail (Nat.le_of_succ_le_succ hlos) htail
    rw [hcost]
    unfold joinStride
    refine spends_and.bind fun t _ => spends_xor.free_bind fun g _ => spends_propagateBoth.bind fun p _ => ?_
    exact hrest.bind (m := 0) fun top htop => .pure (congrArg Nat.succ htop)

/-- The conjunctions of a network on `n` spans, level by level. -/
def networkCost (n : Nat) : Nat :=
  ((strides n 1).map fun d => (n - d) + (n - 2 * d)).sum

theorem spends_joinStrides : ∀ {ds : List Nat} {top : List Span}, top.length = n →
    Spends (ds.foldlM (fun top d => joinStride top (top.drop d) (top.drop (2 * d))) top)
      (ds.map fun d => (n - d) + (n - 2 * d)).sum fun top' => top'.length = n
  | [], top, htop => by
    rw [List.foldlM_nil]
    exact .pure htop
  | d :: ds, top, htop => by
    rw [List.foldlM_cons, List.map_cons, List.sum_cons]
    have hstep : Spends (joinStride top (top.drop d) (top.drop (2 * d))) ((n - d) + (n - 2 * d))
        fun top' => top'.length = n := by
      have hlos : (top.drop d).length = n - d := by rw [List.length_drop, htop]
      have hbelow : (top.drop (2 * d)).length = n - 2 * d := by rw [List.length_drop, htop]
      have hjoin := spends_joinStride top (top.drop d) (top.drop (2 * d)) (by omega) (by omega)
      rwa [hlos, hbelow, htop] at hjoin
    exact hstep.bind fun top' htop' => spends_joinStrides htop'

/-- **The network spends a number of conjunctions that its width decides.** -/
theorem spends_koggeStone (spans : List Span) :
    Spends (koggeStone spans) (networkCost spans.length) fun _ => True := by
  unfold koggeStone
  exact (spends_joinStrides (List.length_reverse)).bind (m := 0) fun top _ => .pure trivial

/-- A carry is generated at each position but the top one. The lowest position of a difference, if
another one follows, takes the carry that comes in as well. -/
def generateCost (dir : Direction) (n : Nat) : Nat :=
  match dir with
  | .addition => n - 1
  | .subtraction => n - 1 + min 1 (n - 1)

theorem spends_generateBits (dir : Direction) (columns : List (Wire × Wire)) :
    Spends (generateBits dir columns) (generateCost dir columns.length)
      fun g => g.length = columns.length - 1 := by
  have hand : Spends (columns.dropLast.mapM fun q => gate .and q.1 q.2) (columns.length - 1)
      fun g => g.length = columns.length - 1 := by
    have hmap := Spends.mapM (f := fun q : Wire × Wire => gate .and q.1 q.2) (fun q => spends_and)
      (l := columns.dropLast)
    rwa [Nat.mul_one, List.length_dropLast] at hmap
  cases dir with
  | addition => exact hand.bind (m := 0) fun g hg => .pure hg
  | subtraction =>
    refine hand.bind fun g hg => ?_
    cases columns with
    | nil =>
      obtain rfl := List.eq_nil_of_length_eq_zero hg
      exact .pure rfl
    | cons q columns =>
      cases g with
      | nil =>
        rw [← hg]
        exact .pure rfl
      | cons g₀ g =>
        have hone : min 1 ((q :: columns).length - 1) = 1 + 0 := by
          rw [← hg, List.length_cons]
          omega
        rw [hone]
        exact spends_or.bind fun w _ => .pure hg

theorem spends_addend (y : Bundle) : Spends (addend dir y) 0 fun y' => y'.length = y.length := by
  cases dir with
  | addition => exact .pure rfl
  | subtraction => exact Spends.mapM (fun w => spends_inv)

theorem spends_driveLowest (targets : List (Option Wire)) (p : Bundle) :
    Spends (driveLowest dir targets p) 0 fun _ => True := by
  unfold driveLowest
  split
  · exact .pure trivial
  · split
    · exact spends_copyTo
    · exact spends_invTo
  · exact .throw

/-- Widening in two's complement repeats a wire. -/
theorem spends_extend : Spends (extend .twosComplement n a) 0 fun x => x.length = n := by
  unfold extend
  split
  · rename_i hn
    exact .pure (by rw [List.length_take, Nat.min_eq_left hn])
  · rename_i hn
    refine .checked fun pad _ => .checked fun _ _ => .pure ?_
    rw [List.length_append, List.length_replicate]
    omega

/-- What a shallow adder of width `n` spends if there are no constants. -/
def lookaheadCost (dir : Direction) (n : Nat) : Nat :=
  generateCost dir n + networkCost (n - 1)

/-- **A shallow adder in two's complement spends a number of gates that its width decides.** -/
theorem spends_lookahead : Spends (lookahead a b (.all out) .twosComplement dir)
    (lookaheadCost dir out.length) fun _ => True := by
  unfold lookahead
  refine .checked fun width hwidth => ?_
  obtain rfl : out.length = width := Except.ok.inj hwidth
  refine spends_extend.free_bind fun x hx => spends_extend.free_bind fun y hy => ?_
  refine (spends_addend y).free_bind fun y' hy' => .checked fun columns hcolumns => ?_
  obtain ⟨hlen, rfl⟩ := inStep_eq_ok.mp hcolumns
  have hwidth : (x.zip y').length = out.length := by
    rw [List.length_zip, ← hlen, Nat.min_self, hx]
  have hp : Spends ((x.zip y').mapM fun q => gate .xor q.1 q.2) 0 fun p => p.length = out.length :=
    hwidth ▸ Spends.mapM (fun q => spends_xor)
  refine hp.free_bind fun p hp => ?_
  have hg := spends_generateBits dir (x.zip y')
  rw [hwidth] at hg
  refine hg.bind fun g hg => ?_
  refine (spends_driveLowest _ p).free_bind fun _ _ => .checked fun spans hspans => ?_
  obtain ⟨hlen', rfl⟩ := inStep_eq_ok.mp hspans
  have hcarries := spends_koggeStone ((g.zip p.dropLast).map fun q => ⟨q.1, q.2⟩)
  rw [List.length_map, List.length_zip, ← hlen', Nat.min_self, hg] at hcarries
  refine hcarries.bind (m := 0) fun carries _ => .checked fun l _ => .checked fun l' _ => ?_
  exact Spends.forM fun q => spends_gateTo rfl

/-! ### Both adders -/

/-- What an adder of width `n` in two's complement spends if there are no constants. -/
def adderCost (dir : Direction) (n : Nat) : Objective → Nat
  | .size => n - 1
  | .depth => lookaheadCost dir n

/-- **Constants only save gates**: an adder spends its cost where there are none, and no more than that
in any circuit. -/
theorem adder_nonlinear {obj : Objective} (hc : c.WellFormed) (ha : ∀ w ∈ a ++ b, c.Allocated w)
    (h : (adderTemps obj >>= fun temps => addSub dir a b out temps .twosComplement obj).exec c =
      (.ok u, c')) :
    c'.nonlinear ≤ c.nonlinear + adderCost dir out.length obj ∧
      (c.ConstantFree → c'.nonlinear = c.nonlinear + adderCost dir out.length obj) := by
  obtain ⟨temps, c₁, htemps, hadd⟩ := exec_bind_eq_ok.mp h
  cases obj with
  | size =>
    obtain ⟨hspawn, hwritable, hsame, hfree₁⟩ := adderTemps_size hc htemps
    have ha₁ : ∀ w ∈ a ++ b, c₁.Allocated w := fun w hw => hspawn.allocated (ha w hw)
    rw [← hsame]
    refine ⟨?_, fun hfree => addSub_nonlinear (hfree₁ hfree) hspawn.wellFormed ha₁ hwritable hadd⟩
    obtain ⟨haa, hab⟩ := List.forall_mem_append.mp ha₁
    unfold addSub addRipple at hadd
    obtain ⟨-, -, hadd⟩ := exec_check_bind.mp hadd
    rw [ripple_nonlinear hspawn.wellFormed haa hab hwritable rfl hadd]
    refine Nat.add_le_add_left ?_ _
    calc
      _ ≤ (List.range (out.length - 1)).length := List.countP_le_length
      _ = out.length - 1 := List.length_range
  | depth =>
    obtain ⟨rfl, rfl⟩ := exec_pure_eq_ok.mp htemps
    unfold addSub addLookahead at hadd
    obtain ⟨-, -, hadd⟩ := exec_check_bind.mp hadd
    obtain ⟨-, hle, hfree⟩ := spends_lookahead hadd
    exact ⟨hle, fun h => (hfree h).2⟩

/-- An adder with temporaries of its own. -/
theorem adder_spec {enc : Encoding} {obj : Objective} (hc : c.WellFormed)
    (ha : ∀ w ∈ a ++ b ++ out, c.Allocated w) (hout : out.Nodup)
    (h : (adderTemps obj >>= fun temps => addSub dir a b out temps enc obj).exec c = (.ok u, c')) :
    c.Evolves {w | w ∈ out} c' ∧ AddsIntegers c c' a b out enc dir := by
  obtain ⟨temps, c₁, htemps, h⟩ := exec_bind_eq_ok.mp h
  obtain ⟨hspawn, hne⟩ := adderTemps_spec hc htemps
  simp only [List.forall_mem_append] at ha
  obtain ⟨⟨haa, hab⟩, haout⟩ := ha
  have hall : ∀ w ∈ a ++ b ++ temps ++ out, c₁.Allocated w := by
    simp only [List.forall_mem_append]
    exact ⟨⟨⟨hspawn.all_allocated haa, hspawn.all_allocated hab⟩, hspawn.present⟩, hspawn.all_allocated haout⟩
  obtain ⟨hev, hadds⟩ := addSub_spec hspawn.wellFormed hall hout hne h
  refine ⟨hspawn.driven hev fun w hw => hw, fun input => ?_⟩
  rw [hadds input, hspawn.map_value hc haa, hspawn.map_value hc hab]

theorem constantBundle_nonlinear {x : Word} {ws : Bundle}
    (h : (constantBundle x n).exec c = (.ok ws, c')) : c'.nonlinear = c.nonlinear := by
  unfold constantBundle at h
  obtain ⟨-, -, h⟩ := exec_check_bind.mp h
  have hkeeps : Keeps (fun c' => c'.nonlinear = c.nonlinear) ((x.signedBits n).mapM constant)
      fun ws => ∀ w ∈ ws, True := by
    refine Keeps.mapM fun v _ c₁ hc₁ => ⟨?_, fun _ _ => trivial⟩
    rw [exec_constant]
    cases c₁.constantWire? v with
    | some w => exact hc₁
    | none => exact (Circuit.nonlinear_addConstant v).trans hc₁
  exact hkeeps.of_exec h rfl

end Build

namespace Request

open Build

variable {dir : Direction} {a b n : Nat} {v : Int64} {obj : Objective} {c : Circuit}

/-! ### Circuits of requests -/

/-- The circuit of an adder with a constant operand before its gates are appended. -/
theorem run_of_addSubConst (h : (Request.addSubConst dir a b v n obj).circuit = .ok c) :
    ∃ (c₀ : Circuit) (x y out : Bundle), x.length = a ∧ out.length = n ∧ c₀.Registers [x] [out] ∧
      (∀ w ∈ x ++ y, c₀.Allocated w) ∧ (∀ input : Valuation, y.map (c₀.value input) = constantBits v b) ∧
      c₀.nonlinear = 0 ∧ (adderTemps obj >>= fun temps =>
        Build.addSub dir x y out temps .twosComplement obj).exec c₀ = (.ok (), c) := by
  have hrun := exec_of_circuit h
  unfold build at hrun
  obtain ⟨x, c₁, hx, hrun⟩ := exec_bind_eq_ok.mp hrun
  obtain ⟨y, c₂, hy, hrun⟩ := exec_bind_eq_ok.mp hrun
  obtain ⟨out, c₃, hout, hrun⟩ := exec_bind_eq_ok.mp hrun
  obtain ⟨-, rfl, rfl⟩ := Circuit.addInput_eq_ok hx
  obtain ⟨-, rfl, rfl⟩ := Circuit.addOutput_eq_ok hout
  have hspec : ∀ input, _ := fun input =>
    constantBundle_spec (D := ∅) input (Circuit.wellFormed_empty.withInput a) (by simp) hy
  have hev : (Circuit.empty.withInput a).Evolves ∅ c₂ := (hspec fun _ => false).1
  -- the output comes after the constants and leaves them as they are
  have hgrows := c₂.extends_addWires ∅ n
  have hall : ∀ w ∈ y, c₂.Allocated w := fun w hw => ((hspec fun _ => false).2.settled w hw).allocated
  have hreg : (c₂.withOutput n).Registers [Circuit.empty.nextBundle a] [c₂.nextBundle n] :=
    ⟨hev.wellFormed.withOutput n, hev.inputs, congrArg (· ++ _) hev.outputs⟩
  refine ⟨_, _, y, _, Circuit.length_nextBundle, Circuit.length_nextBundle, hreg,
    List.forall_mem_append.mpr ⟨hreg.allocated (by simp), fun w hw => hgrows.allocated (hall w hw)⟩,
    fun input => ?_, constantBundle_nonlinear hy, hrun⟩
  calc
    y.map ((c₂.withOutput n).value input) = y.map (c₂.value input) := List.map_congr_left fun w hw =>
      hgrows.value_eq hev.wellFormed (hall w hw) (Set.notMem_empty w)
    _ = constantBits v b := by rw [(hspec input).2.values, signedBits_ofInt]

/-- What an adder evaluates to once its operands are in place. -/
theorem adder_evaluates {c₀ : Circuit} {ins : List Bundle} {x y out : Bundle} {widths results : List Nat}
    {bits : List (List Bool)} {enc : Encoding} (hreg : c₀.Registers ins [out])
    (hxy : ∀ w ∈ x ++ y, c₀.Allocated w) (hrun : (adderTemps obj >>= fun temps =>
      Build.addSub dir x y out temps enc obj).exec c₀ = (.ok (), c))
    (hserves : c.Serves widths results) (hbits : bits.map List.length = ins.map List.length) :
    ∃ (input : Valuation) (sum : List Bool), (ins.map fun b => b.map (c₀.value input)) = bits ∧
      c.evalBits bits = .ok [sum] ∧ sum.length = out.length ∧
      (Bits.toNat sum : Int) = dir.apply (enc.read (x.map (c₀.value input)))
        (enc.read (y.map (c₀.value input))) % 2 ^ out.length := by
  have hnodup : out.Nodup := by simpa using hreg.nodup
  have hall : ∀ w ∈ x ++ y ++ out, c₀.Allocated w :=
    List.forall_mem_append.mpr ⟨hxy, hreg.allocated (by simp)⟩
  obtain ⟨hev, hadds⟩ := adder_spec hreg.wellFormed hall hnodup hrun
  obtain ⟨input, hinput, heval⟩ := hreg.evaluates hev hserves hbits
  exact ⟨input, out.map (c.value input), hinput, heval, List.length_map _, hadds input⟩

/-- The circuit with two inputs computes with the integers they spell. -/
theorem addSub_evaluates {enc : Encoding} {as bs : List Bool}
    (h : (Request.addSub dir enc a b n obj).circuit = .ok c) (ha : as.length = a) (hb : bs.length = b) :
    ∃ sum, c.evalBits [as, bs] = .ok [sum] ∧ sum.length = n ∧
      (Bits.toNat sum : Int) = dir.apply (enc.read as) (enc.read bs) % 2 ^ n := by
  obtain ⟨x, y, out, hx, hy, hout, hreg, hrun⟩ := run_of_circuit (a := a) (b := b) (n := n) rfl rfl h
  have hxy : ∀ w ∈ x ++ y, (operands a b n).Allocated w :=
    List.forall_mem_append.mpr ⟨hreg.allocated (by simp), hreg.allocated (by simp)⟩
  have hbits : [as, bs].map List.length = [x, y].map List.length := by simp [ha, hb, hx, hy]
  obtain ⟨input, sum, hinput, heval, hlen, hsum⟩ :=
    adder_evaluates hreg hxy hrun (serves_of_circuit h) hbits
  obtain ⟨rfl, rfl⟩ : x.map ((operands a b n).value input) = as ∧
      y.map ((operands a b n).value input) = bs := by simpa using hinput
  exact ⟨sum, heval, hlen.trans hout, hout ▸ hsum⟩

/-- **The circuit with a constant operand computes with the integer that its bits spell.** -/
theorem addSubConst_evaluates {as : List Bool}
    (h : (Request.addSubConst dir a b v n obj).circuit = .ok c) (ha : as.length = a) :
    ∃ sum, c.evalBits [as] = .ok [sum] ∧ sum.length = n ∧
      (Bits.toNat sum : Int) = dir.apply (Encoding.twosComplement.read as)
        (Encoding.twosComplement.read (constantBits v b)) % 2 ^ n := by
  obtain ⟨c₀, x, y, out, hx, hout, hreg, hxy, hvalue, -, hrun⟩ := run_of_addSubConst h
  have hbits : [as].map List.length = [x].map List.length := by simp [ha, hx]
  obtain ⟨input, sum, hinput, heval, hlen, hsum⟩ :=
    adder_evaluates hreg hxy hrun (serves_of_circuit h) hbits
  obtain rfl : x.map (c₀.value input) = as := by simpa using hinput
  rw [hvalue] at hsum
  exact ⟨sum, heval, hlen.trans hout, hout ▸ hsum⟩

theorem addSub_spends (h : (Request.addSub dir .twosComplement a b n obj).circuit = .ok c) :
    ∃ s, c.stats = .ok s ∧ s.nonlinear = adderCost dir n obj := by
  refine stats_of_nonlinear (a := a) (b := b) (n := n) rfl rfl ?_ h
  intro c c' x y out u hfree hc hxy _ _ hout hrun
  exact hout ▸ (adder_nonlinear hc hxy hrun).2 hfree

theorem addSubConst_spends (h : (Request.addSubConst dir a b v n obj).circuit = .ok c) :
    ∃ s, c.stats = .ok s ∧ s.nonlinear ≤ adderCost dir n obj := by
  obtain ⟨s, hs, hcount⟩ := Circuit.stats_nonlinear (serves_of_circuit h).wellFormed
  obtain ⟨c₀, x, y, out, -, rfl, hreg, hxy, -, hzero, hrun⟩ := run_of_addSubConst h
  have hle := (adder_nonlinear hreg.wellFormed hxy hrun).1
  rw [hzero, Nat.zero_add, ← hcount] at hle
  exact ⟨s, hs, hle⟩

end Request

open Catalogue in
/-- **A constant operand is an input that has been given its bits.** Whatever two catalogues were asked
before, they have both adders for all widths that a bundle can have. On every first operand the adder
with a constant gives the sum or difference that the one with two inputs gives on this operand and the
low bits of the constant, and it has no more conjunctions and disjunctions. -/
theorem constant_operand_agrees (before before' : List Request) (dir : Direction) (a b n : Nat)
    (v : Int64) (obj : Objective) :
    (1 ≤ a → 1 ≤ b → 1 ≤ n → a < wireLimit → b < wireLimit → n < wireLimit →
      (∃ k, ((afterAll before).serve (.addSubConst dir a b v n obj)).result = .ok k) ∧
      ∃ c, ((afterAll before').serve (.addSub dir .twosComplement a b n obj)).result = .ok c) ∧
    ∀ k c, ((afterAll before).serve (.addSubConst dir a b v n obj)).result = .ok k →
      ((afterAll before').serve (.addSub dir .twosComplement a b n obj)).result = .ok c →
      (∀ x : List Bool, x.length = a → ∃ sum, k.evalBits [x] = .ok [sum] ∧
        c.evalBits [x, constantBits v b] = .ok [sum]) ∧
      ∃ s t, k.stats = .ok s ∧ c.stats = .ok t ∧ s.nonlinear ≤ t.nonlinear := by
  rw [(holds_afterAll before).result_eq, (holds_afterAll before').result_eq]
  refine ⟨fun ha hb hn halimit hblimit hnlimit => ?_, fun k c hk hc => ⟨fun x hx => ?_, ?_⟩⟩
  · have hfits : ∀ m ∈ [a, b, n], m < wireLimit := by simp [halimit, hblimit, hnlimit]
    exact ⟨Request.exists_circuit ⟨ha, hb, hn⟩ hfits, Request.exists_circuit ⟨ha, hb, hn⟩ hfits⟩
  · have hlength : (constantBits v b).length = b := by simp [constantBits]
    obtain ⟨sum, hevalk, hlenk, hsumk⟩ := Request.addSubConst_evaluates hk hx
    obtain ⟨sum', hevalc, hlenc, hsumc⟩ := Request.addSub_evaluates hc hx hlength
    -- one number and one length
    have hnumber : Bits.toNat sum = Bits.toNat sum' := by exact_mod_cast hsumk.trans hsumc.symm
    obtain rfl := toNat_injOn_length (hlenk.trans hlenc.symm) hnumber
    exact ⟨sum, hevalk, hevalc⟩
  · obtain ⟨s, hs, hle⟩ := Request.addSubConst_spends hk
    obtain ⟨t, ht, heq⟩ := Request.addSub_spends hc
    exact ⟨s, t, hs, ht, heq ▸ hle⟩

/-- A negative constant that is spelled far past its own width. -/
theorem constant_operand_agrees_negative :
    ∃ k c, (Catalogue.empty.serve (.addSubConst .subtraction 4 200 (-3) 6 .depth)).result = .ok k ∧
      ((Catalogue.afterAll [.addMsb 5 .depth]).serve
        (.addSub .subtraction .twosComplement 4 200 6 .depth)).result = .ok c ∧
      (∃ sum, k.evalBits [[true, false, true, true]] = .ok [sum] ∧
        c.evalBits [[true, false, true, true], constantBits (-3) 200] = .ok [sum]) ∧
      ∃ s t, k.stats = .ok s ∧ c.stats = .ok t ∧ s.nonlinear ≤ t.nonlinear := by
  obtain ⟨hserved, hagree⟩ :=
    constant_operand_agrees [] [.addMsb 5 .depth] .subtraction 4 200 6 (-3) .depth
  obtain ⟨⟨k, hk⟩, c, hc⟩ := hserved (by decide) (by decide) (by decide) (by decide) (by decide) (by decide)
  obtain ⟨hsum, hstats⟩ := hagree k c hk hc
  exact ⟨k, c, hk, hc, hsum _ rfl, hstats⟩

end BitCircuit
