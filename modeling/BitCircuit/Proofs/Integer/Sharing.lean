/-
# Ripple-carry adders whose wires are shared

An adder is given four bundles, and it refuses a wire that a result shares with an operand, or a
temporary with either. Inside a bundle it does not look. Repeated wires in an operand do no harm. Those
in the other two bundles are accepted and change what is computed (`ripple_adder_sharing`):

* a wire that stands several times among the results has the bit of the last of its positions;
* if the two registers are one wire, a column that needs both gives `false` and loses its carry. A column
  one of whose bits is known needs the carry register only, and so does the lowest column.

Which bits are known can be told from the operands before they are widened (`Build.extend_knows`).

Key definitions: `Circuit.knowsBit`, `Circuit.KnowsColumn`.
Key theorems: `Build.addRipple_leaves`, `Build.addRipple_sum_bit`, `Build.addRipple_lost_bit`,
`Build.addRipple_refuses`, `ripple_adder_sharing`.
-/
import BitCircuit.Proofs.Integer.SumBit

namespace BitCircuit
namespace Circuit

variable {c c' : Circuit} {D : Set Wire}

/-! ### Known bits -/

/-- The bit at a position of an operand is known, at the latest once the operand is widened. -/
def knowsBit (c : Circuit) (enc : Encoding) (a : Bundle) (i : Nat) : Bool :=
  match a[i]?, enc with
  | some w, _ => c.knows w
  | none, .unsigned => true
  | none, .twosComplement => a.getLast?.any c.knows

/-- One of the two bits at a position of a sum is known, so that its column needs no spare register. -/
def KnowsColumn (c : Circuit) (enc : Encoding) (dir : Direction) (a b : Bundle) (i : Nat) : Prop :=
  c.knowsBit enc b i = true ∨ dir = .addition ∧ c.knowsBit enc a i = true

theorem Evolves.knowsBit_eq {a : Bundle} (h : c.Evolves D c') (ha : ∀ w ∈ a, c.Allocated w)
    (enc : Encoding) (i : Nat) : c'.knowsBit enc a i = c.knowsBit enc a i := by
  unfold knowsBit
  cases hi : a[i]? with
  | some w => exact h.knows_eq (ha w (List.mem_of_getElem? hi))
  | none =>
    cases enc with
    | unsigned => rfl
    | twosComplement =>
      cases hlast : a.getLast? with
      | none => rfl
      | some w => exact h.knows_eq (ha w (List.mem_of_getLast? hlast))

end Circuit

namespace Build

variable {c c' : Circuit} {input : Valuation} {a b out temps : Bundle} {enc : Encoding} {dir : Direction}
  {u : Unit}

/-- The bits above an operand are known if it is unsigned or its sign is known. -/
theorem padding_knows {pad : Wire} (hc : c.WellFormed)
    (ha : ∀ w ∈ a, c.Allocated w) (h : (padding enc a).exec c = (.ok pad, c')) :
    c.Evolves ∅ c' ∧ c'.Allocated pad ∧ ∀ i, a.length ≤ i → c'.knows pad = c.knowsBit enc a i := by
  cases enc with
  | unsigned =>
    obtain ⟨hev, hs⟩ := constant_state hc h
    refine ⟨hev, Circuit.allocated_iff.mpr ⟨_, hs⟩, fun i hi => ?_⟩
    simp [Circuit.knows, Circuit.knowsBit, Circuit.constantValue?_eq_some.mpr hs,
      List.getElem?_eq_none hi]
  | twosComplement =>
    obtain ⟨hmsb, rfl⟩ := exec_check_eq_ok.mp h
    refine ⟨.refl hc ∅, ha _ (mem_of_msb hmsb), fun i hi => ?_⟩
    simp [Circuit.knowsBit, List.getElem?_eq_none hi, msb_eq_ok.mp hmsb]

/-- **Of a widened operand the same bits are known as of the operand itself.** -/
theorem extend_knows {n : Nat} {x : Bundle} (hc : c.WellFormed) (ha : ∀ w ∈ a, c.Allocated w)
    (h : (extend enc n a).exec c = (.ok x, c')) :
    c.Evolves ∅ c' ∧ ∀ i w, x[i]? = some w → c'.Allocated w ∧ c'.knows w = c.knowsBit enc a i := by
  have hold : ∀ i w, a[i]? = some w → c.Allocated w ∧ c.knows w = c.knowsBit enc a i := by
    intro i w hi
    exact ⟨ha w (List.mem_of_getElem? hi), by simp [Circuit.knowsBit, hi]⟩
  unfold extend at h
  by_cases hn : n ≤ a.length
  · rw [if_pos hn] at h
    obtain ⟨rfl, rfl⟩ := exec_pure_eq_ok.mp h
    refine ⟨.refl hc ∅, fun i w hw => hold i w ?_⟩
    have hi : i < (a.take n).length := (List.getElem?_eq_some_iff.mp hw).1
    rw [List.length_take] at hi
    rwa [List.getElem?_take_of_lt (by omega)] at hw
  rw [if_neg hn] at h
  obtain ⟨pad, c₁, hpad, h⟩ := exec_bind_eq_ok.mp h
  obtain ⟨-, -, h⟩ := exec_check_bind.mp h
  obtain ⟨rfl, rfl⟩ := exec_pure_eq_ok.mp h
  obtain ⟨hev, hallocated, hknows⟩ := padding_knows hc ha hpad
  refine ⟨hev, fun i w hw => ?_⟩
  by_cases hi : i < a.length
  · rw [List.getElem?_append_left hi] at hw
    obtain ⟨haw, hkw⟩ := hold i w hw
    exact ⟨hev.allocated haw, (hev.knows_eq haw).trans hkw⟩
  · rw [List.getElem?_append_right (Nat.not_lt.mp hi)] at hw
    obtain rfl := List.eq_of_mem_replicate (List.mem_of_getElem? hw)
    exact ⟨hallocated, hknows i (Nat.not_lt.mp hi)⟩

theorem getElem?_adderColumns {x y : Bundle} {targets : List (Option Wire)} {cols : List AdderColumn}
    {i : Nat} {col : AdderColumn} (h : adderColumns x y targets = .ok cols) (hi : cols[i]? = some col) :
    x[i]? = some col.x ∧ y[i]? = some col.y := by
  unfold adderColumns at h
  obtain ⟨xy, hxy, h⟩ := bind_eq_ok.mp h
  obtain ⟨l, hl, h⟩ := bind_eq_ok.mp h
  obtain ⟨-, rfl⟩ := inStep_eq_ok.mp hxy
  obtain ⟨-, rfl⟩ := inStep_eq_ok.mp hl
  cases h
  rw [List.getElem?_map, Option.map_eq_some_iff] at hi
  obtain ⟨p, hp, rfl⟩ := hi
  exact List.getElem?_zip_eq_some.mp (List.getElem?_zip_eq_some.mp hp).1

/-- A chain knows the lowest column and the bits that the operands know. -/
theorem chainViews_knows {c₁ : Circuit} {targets : List (Option Wire)} {cols : List AdderColumn}
    {n i : Nat} {xs ys : Bundle} {known : Bool} {bits : Bool × Bool} (hc : c.WellFormed)
    (haa : ∀ w ∈ a, c.Allocated w) (hab : ∀ w ∈ b, c.Allocated w)
    (hx : (extend enc n a).exec c = (.ok xs, c₁)) (hy : (extend enc n b).exec c₁ = (.ok ys, c'))
    (hcols : adderColumns xs ys targets = .ok cols)
    (hi : (chainViews c' input dir cols)[i]? = some (known, bits)) :
    known = true ↔ i = 0 ∨ c.KnowsColumn enc dir a b i := by
  cases cols with
  | nil => simp [chainViews] at hi
  | cons lowest rest =>
    cases i with
    | zero =>
      obtain ⟨rfl, -⟩ := Prod.mk.inj (Option.some.inj hi)
      simp
    | succ i =>
      rw [chainViews, List.getElem?_cons_succ, List.getElem?_map, Option.map_eq_some_iff] at hi
      obtain ⟨col, hcol, hview⟩ := hi
      obtain ⟨hcx, hcy⟩ := getElem?_adderColumns hcols (List.getElem?_cons_succ.trans hcol)
      obtain ⟨hev, hknowsx⟩ := extend_knows hc haa hx
      obtain ⟨hev', hknowsy⟩ := extend_knows hev.wellFormed (fun w hw => hev.allocated (hab w hw)) hy
      obtain ⟨hax, hkx⟩ := hknowsx _ _ hcx
      obtain ⟨-, hky⟩ := hknowsy _ _ hcy
      have hknown : c'.knowsColumn dir col.x col.y = known := congrArg Prod.fst hview
      rw [← hknown, Circuit.knowsColumn, hky, hev'.knows_eq hax, hkx, hev.knowsBit_eq hab]
      unfold Circuit.KnowsColumn
      cases dir <;> simp

/-! ### Results -/

variable (input) in
/-- What an adder that writes all bits leaves on its results. -/
theorem addRipple_leaves (hc : c.WellFormed) (ha : ∀ w ∈ a ++ b ++ temps ++ out, c.Allocated w)
    (h : (addRipple a b out temps enc dir).exec c = (.ok u, c')) :
    ∃ views : List (Bool × Bool × Bool),
      views.map Prod.snd = ((enc.resize out.length (a.map (c.value input))).zip
        (enc.resize out.length (b.map (c.value input)))).map (fun col => (col.1, dir.addend col.2)) ∧
      (∀ i known bits, views[i]? = some (known, bits) →
        (known = true ↔ i = 0 ∨ c.KnowsColumn enc dir a b i)) ∧
      c'.DeliversLast input (out.map some)
        (chainBits (decide (temps[0]? = temps[1]?)) dir.carryIn views) := by
  unfold addRipple at h
  obtain ⟨u₁, hoperands, h⟩ := exec_check_bind.mp h
  obtain ⟨width, xs, ys, cols, c₁, c₂, hwidth, hx, hy, hcols, hbits, hlast⟩ :=
    ripple_leaves input hc ha (requireOperands_eq_ok hoperands) h
  cases hwidth
  simp only [List.forall_mem_append] at ha
  obtain ⟨⟨⟨haa, hab⟩, -⟩, -⟩ := ha
  refine ⟨chainViews c₂ input dir cols, ?_, fun i known bits hi => ?_, hlast⟩
  · rw [map_snd_chainViews, hbits]
  · exact chainViews_knows hc haa hab hx hy hcols hi

section Results

variable (hc : c.WellFormed) (ha : ∀ w ∈ a ++ b ++ temps ++ out, c.Allocated w)
  (h : (addRipple a b out temps enc dir).exec c = (.ok u, c')) {i : Nat} {w : Wire} (hw : out[i]? = some w)
  (hlast : w ∉ out.drop (i + 1))
include hc ha h hw hlast

variable (input) in
/-- The last position of a wire has its bit of the sum, as long as no column up to it has lost its
carry. -/
theorem addRipple_sum_bit
    (hk : temps[0]? ≠ temps[1]? ∨ ∀ k, 1 ≤ k → k ≤ i → c.KnowsColumn enc dir a b k) :
    c'.value input w = (dir.apply (enc.read (a.map (c.value input)))
      (enc.read (b.map (c.value input)))).testBit i := by
  obtain ⟨views, hbits, hknown, hdel⟩ := addRipple_leaves input hc ha h
  have hvalue := hdel i w (by simp [hw]) (by simpa [← List.map_drop] using hlast)
  have hlow : ∀ col ∈ views.take (i + 1), decide (temps[0]? = temps[1]?) = false ∨ col.1 = true := by
    intro col hcol
    rcases hk with hne | hall
    · exact .inl (decide_eq_false hne)
    · obtain ⟨k, hklt, hcol⟩ := List.mem_take_iff_getElem.mp hcol
      have hview : views[k]? = some (col.1, col.2) := List.getElem?_eq_some_iff.mpr ⟨by omega, hcol⟩
      refine .inr ((hknown k col.1 col.2 hview).mpr ?_)
      by_cases hzero : k = 0
      · exact .inl hzero
      · exact .inr (hall k (by omega) (by omega))
  rw [chainBits_eq_addBits views _ i hlow, hbits] at hvalue
  have hi : i < out.length := (List.getElem?_eq_some_iff.mp hw).1
  have hsum := testBit_of_emod hi (toNat_addSubBits_resize enc dir out.length
    (a.map (c.value input)) (b.map (c.value input)))
  rw [← hsum, Bits.testBit_toNat, addSubBits, List.getD_eq_getElem?_getD, hvalue]
  rfl

variable (input) in
/-- A position whose column has lost its carry has `false`. -/
theorem addRipple_lost_bit (hshared : temps[0]? = temps[1]?) (hi : 1 ≤ i)
    (hk : ¬ c.KnowsColumn enc dir a b i) : c'.value input w = false := by
  obtain ⟨views, hbits, hknown, hdel⟩ := addRipple_leaves input hc ha h
  have hvalue := hdel i w (by simp [hw]) (by simpa [← List.map_drop] using hlast)
  rw [decide_eq_true hshared] at hvalue
  have hlength : views.length = out.length := by
    have := congrArg List.length hbits
    simpa [length_resize] using this
  have hlt : i < views.length := hlength ▸ (List.getElem?_eq_some_iff.mp hw).1
  have hview : views[i]? = some (views[i].1, views[i].2) := List.getElem?_eq_getElem hlt
  have hunknown : views[i].1 = false := by
    have hiff := hknown i _ _ hview
    rw [← Bool.not_eq_true, hiff]
    exact not_or.mpr ⟨by omega, hk⟩
  rw [hunknown] at hview
  rw [chainBits_of_unknown views _ i hview] at hvalue
  exact (Option.some.inj hvalue).symm

end Results

/-- A wire that two bundles share is noticed. -/
theorem requireDistinct_eq_aliased {written others : List Bundle} {b o : Bundle} {w : Wire}
    (hb : b ∈ written) (ho : o ∈ others) (hwb : w ∈ b) (hwo : w ∈ o) :
    requireDistinct written others = .error .aliased := by
  have hnot : requireDistinct written others ≠ .ok () := fun hok =>
    requireDistinct_eq_ok.mp hok b hb o ho w hwb hwo
  unfold requireDistinct at hnot ⊢
  split at hnot
  · exact absurd rfl hnot
  · rename_i hshared
    rw [if_neg hshared]

theorem addRipple_refuses (hab : a ≠ [] ∧ b ≠ []) (hout : out ≠ []) (htemps : 2 ≤ temps.length)
    (hshared : (∃ w ∈ out, w ∈ a ++ b) ∨ ∃ w ∈ temps, w ∈ a ++ b ++ out) :
    (addRipple a b out temps enc dir).Refuses c .aliased := by
  have hoperands : requireOperands a b (.all out) = requireDistinct [out] [a, b] := by
    have hin : requireNonempty [a, b] = .ok () := requireNonempty_eq_ok.mpr (by simpa using hab)
    have hres : requireNonempty [out] = .ok () := requireNonempty_eq_ok.mpr (by simpa using hout)
    simp only [requireOperands, Sink.wires, hin, hres]
    rfl
  unfold addRipple
  by_cases hresult : ∃ w ∈ out, w ∈ a ++ b
  · obtain ⟨w, hw, hmem⟩ := hresult
    refine .checked (hoperands.trans ?_)
    rcases List.mem_append.mp hmem with hmem | hmem
    · exact requireDistinct_eq_aliased (by simp) (by simp) hw hmem
    · exact requireDistinct_eq_aliased (o := b) (by simp) (by simp) hw hmem
  · have hdistinct : requireDistinct [out] [a, b] = .ok () := by
      refine requireDistinct_eq_ok.mpr fun x hx o ho w hw hwo => hresult ⟨w, ?_, ?_⟩
      · rwa [List.mem_singleton.mp hx] at hw
      · rcases List.mem_pair.mp ho with rfl | rfl
        · exact List.mem_append_left _ hwo
        · exact List.mem_append_right _ hwo
    obtain ⟨w, hw, hmem⟩ := hshared.resolve_left hresult
    refine .passed (hoperands.trans hdistinct) (.passed (requireTemps_eq_ok.mpr htemps) (.checked ?_))
    rcases List.mem_append.mp hmem with hmem | hmem
    · rcases List.mem_append.mp hmem with hmem | hmem
      · exact requireDistinct_eq_aliased (o := a) (by simp) (by simp) hw hmem
      · exact requireDistinct_eq_aliased (o := b) (by simp) (by simp) hw hmem
    · exact requireDistinct_eq_aliased (o := out) (by simp) (by simp [Sink.wires]) hw hmem

end Build

/-- **Which wires a ripple-carry adder may share.** A result among the operands and a temporary among
the operands or results are refused. In a call that is accepted, with any wires repeated inside the
bundles, each result wire has the bit of its last position, if the two registers are distinct wires or
one bit is known in every column above the lowest one and up to that position. With one wire for both
registers, every other column gives `false` for all inputs. -/
theorem ripple_adder_sharing {c : Circuit} (hc : Reachable c) (a b out temps : Bundle)
    (ha : ∀ w ∈ a ++ b ++ temps ++ out, c.Allocated w) (enc : Encoding) (dir : Direction) :
    (a ≠ [] ∧ b ≠ [] → out ≠ [] → 2 ≤ temps.length →
      ((∃ w ∈ out, w ∈ a ++ b) ∨ ∃ w ∈ temps, w ∈ a ++ b ++ out) →
      (Build.addRipple a b out temps enc dir).Refuses c .aliased) ∧
    ∀ c', (Build.addRipple a b out temps enc dir).exec c = (.ok (), c') →
      ∀ i w, out[i]? = some w → w ∉ out.drop (i + 1) → ∀ input : Valuation,
        ((temps[0]? ≠ temps[1]? ∨ ∀ k, 1 ≤ k → k ≤ i → c.KnowsColumn enc dir a b k) →
          c'.value input w = (dir.apply (enc.read (a.map (c.value input)))
            (enc.read (b.map (c.value input)))).testBit i) ∧
        (temps[0]? = temps[1]? → 1 ≤ i → ¬ c.KnowsColumn enc dir a b i → c'.value input w = false) := by
  refine ⟨Build.addRipple_refuses, fun c' h i w hw hlast input => ⟨fun hk => ?_, fun hs hi hk => ?_⟩⟩
  · exact Build.addRipple_sum_bit input hc.wellFormed ha h hw hlast hk
  · exact Build.addRipple_lost_bit input hc.wellFormed ha h hw hlast hs hi hk

/-- Two bits added into four positions, with one wire for both registers and a result wire that stands
twice: above the lowest column all bits are known, so the carry arrives. -/
theorem ripple_adder_sharing_widened :
    ∃ c c' : Circuit, Reachable c ∧
      (Build.addRipple [⟨0⟩] [⟨1⟩] [⟨2⟩, ⟨3⟩, ⟨2⟩, ⟨4⟩] [⟨5⟩, ⟨5⟩] .unsigned .addition).exec c = (.ok (), c') ∧
      ∀ input : Valuation, c'.value input ⟨3⟩ = (Direction.addition.apply
        (Encoding.unsigned.read [c.value input ⟨0⟩]) (Encoding.unsigned.read [c.value input ⟨1⟩])).testBit 1 := by
  have hc : Reachable (Call.afterAll [.addInput 1, .addInput 1, .addOutput 3, .addTemps 1]) :=
    reachable_afterAll (by simp [Call.template?])
  obtain ⟨-, hsum⟩ := ripple_adder_sharing hc [⟨0⟩] [⟨1⟩] [⟨2⟩, ⟨3⟩, ⟨2⟩, ⟨4⟩] [⟨5⟩, ⟨5⟩] (by decide) .unsigned
    .addition
  obtain ⟨c', hrun⟩ : ∃ c', (Build.addRipple [⟨0⟩] [⟨1⟩] [⟨2⟩, ⟨3⟩, ⟨2⟩, ⟨4⟩] [⟨5⟩, ⟨5⟩] .unsigned .addition).exec
      (Call.afterAll [.addInput 1, .addInput 1, .addOutput 3, .addTemps 1]) = (.ok (), c') :=
    Build.exists_ok (by decide +kernel)
  refine ⟨_, c', hc, hrun, fun input => (hsum c' hrun 1 ⟨3⟩ rfl (by decide) input).1 (.inr fun k hk hle => ?_)⟩
  obtain rfl : k = 1 := by omega
  exact .inl rfl

/-- A result wire that stands twice, and one wire for both registers: both adders are accepted, and
neither adds. -/
theorem shared_wires_corrupt_sum :
    ∃ c repeated joined : Circuit, Reachable c ∧ (∀ i < 8, c.Allocated ⟨i⟩) ∧
      (Build.addRipple [⟨0⟩, ⟨1⟩] [⟨2⟩, ⟨3⟩] [⟨4⟩, ⟨4⟩] [⟨6⟩, ⟨7⟩] .unsigned .addition).exec c = (.ok (), repeated) ∧
      ¬ AddsIntegers c repeated [⟨0⟩, ⟨1⟩] [⟨2⟩, ⟨3⟩] [⟨4⟩, ⟨4⟩] .unsigned .addition ∧
      (Build.addRipple [⟨0⟩, ⟨1⟩] [⟨2⟩, ⟨3⟩] [⟨4⟩, ⟨5⟩] [⟨6⟩, ⟨6⟩] .unsigned .addition).exec c = (.ok (), joined) ∧
      ¬ AddsIntegers c joined [⟨0⟩, ⟨1⟩] [⟨2⟩, ⟨3⟩] [⟨4⟩, ⟨5⟩] .unsigned .addition := by
  refine ⟨Call.afterAll [.addInput 2, .addInput 2, .addOutput 2, .addTemps 2], _, _,
    reachable_afterAll (by simp [Call.template?]), by decide, by rfl, fun h => ?_, by rfl, fun h => ?_⟩
  · have hone := h fun w => w = ⟨0⟩
    revert hone
    decide +kernel
  · have htwo := h fun w => w = ⟨0⟩ ∨ w = ⟨2⟩
    revert htwo
    decide +kernel

end BitCircuit
