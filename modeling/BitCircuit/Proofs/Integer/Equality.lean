/-
# Equality by a balanced tree

Whether a bundle is zero, and whether two bundles are equal, is decided by a balanced tree of
disjunctions, over the wires themselves or over the positions in which they differ. What the tree
carries is the disjunction of all its leaves (`Build.orAll_spec`). A level of it joins neighbours and
carries a wire without neighbour over, so the lowest wire goes up by one in every level: its root is
exactly as many levels above the leaves as their number can be halved, rounding up
(`Build.orAll_atLevel`), and each join takes one from the number of wires, so there is one
disjunction less than there are leaves (`Build.spends_orAll`).

Key definition: `Circuit.Measures`.

Key theorems: `Build.isZero_spec`, `Build.equal_spec`, `Build.notEqual_spec`,
`equality_circuits_are_balanced`.
-/
import BitCircuit.Integer.Order
import BitCircuit.Proofs.Catalogue
import BitCircuit.Proofs.ExactCost
import BitCircuit.Proofs.Feasibility
import BitCircuit.Proofs.Integer.AdderSize
import BitCircuit.Proofs.Integer.Reduce

namespace BitCircuit

variable {cost : GateKind → Nat}

namespace Build

variable {α : Type} {c c' : Circuit} {w : Wire} {ws : Bundle} {n : Nat}

/-! ### What a tree of disjunctions carries -/

/-- The value of a disjunction, as the number of true leaves below it. -/
theorem joinsAmounts_or (input : Valuation) : JoinsAmounts ∅
    (fun _ c w (n : Nat) => c.Allocated w ∧ c.value input w = decide (0 < n)) (fun _ => 0)
    fun _ x y => gate .or x y where
  kept hc hp hev := ⟨hev.allocated hp.1, by rw [hev.value_eq hc hp.1 (Set.notMem_empty _), hp.2]⟩
  joined hc _ hx hy h := by
    have hw := gate_spec hc h
    refine ⟨hw.toEvolves, ⟨hw.readable.allocated, ?_⟩, rfl⟩
    rw [hw.value, hx.2, hy.2, Bool.eq_iff_iff]
    simp only [GateKind.eval, Bool.or_eq_true, decide_eq_true_eq]
    omega

/-- There is a true leaf exactly if their number is not zero. -/
theorem decide_sum_pos (f : Wire → Bool) (ws : Bundle) :
    decide (0 < (ws.map fun w => (f w).toNat).sum) = ws.any f := by
  induction ws with
  | nil => rfl
  | cons w ws ih =>
    rw [List.map_cons, List.sum_cons, List.any_cons, ← ih]
    cases f w with
    | false => simp
    | true => simp

/-- **The tree carries the disjunction of its leaves.** -/
theorem orAll_spec (hc : c.WellFormed) (ha : ∀ w ∈ ws, c.Allocated w)
    (h : (orAll ws).exec c = (.ok w, c')) :
    c.Evolves ∅ c' ∧ ∀ input : Valuation, c'.value input w = ws.any (c.value input) := by
  cases ws with
  | nil => cases h
  | cons first rest =>
    obtain ⟨hfirst, hrest⟩ := List.forall_mem_cons.mp ha
    have hsum : ∀ input : Valuation, c.Evolves ∅ c' ∧
        c'.value input w = (first :: rest).any (c.value input) := by
      intro input
      have hbit : ∀ w, c.value input w = decide (0 < (c.value input w).toNat) := by
        intro w
        cases c.value input w <;> rfl
      have hleaves : List.Forall₂ (fun w n => c.Allocated w ∧ c.value input w = decide (0 < n)) rest
          (rest.map fun w => (c.value input w).toNat) :=
        List.forall₂_map_right_iff.mpr (List.forall₂_same.mpr fun w hw => ⟨hrest w hw, hbit w⟩)
      obtain ⟨hev, ⟨-, hvalue⟩, -⟩ := (joinsAmounts_or input).reduce_spec hc (by simp)
        ⟨hfirst, hbit first⟩ hleaves h
      exact ⟨hev, hvalue.trans (decide_sum_pos _ (first :: rest))⟩
    exact ⟨(hsum fun _ => false).1, fun input => (hsum input).2⟩

/-! ### How high the tree is -/

/-- The lowest wire is exactly as many levels up as there were joins, the others at most. -/
def Climbs (cost : GateKind → Nat) (n : Nat) (lowest : Bool) (k : Nat) (c : Circuit) (w : Wire) : Prop :=
  ∃ m, c.AtLevel cost m w ∧ m ≤ n + k * cost .or ∧ (lowest = true → m = n + k * cost .or)

theorem joinsLevels_or (cost : GateKind → Nat) (n : Nat) :
    JoinsLevels ∅ (Climbs cost n) fun _ x y => gate .or x y where
  kept := by
    rintro lowest k c c' w ⟨m, hlevel, hm⟩ hev
    exact ⟨m, hlevel.evolves hev (Set.notMem_empty w), hm⟩
  carried := by
    rintro k c w ⟨m, hlevel, hm, -⟩
    refine ⟨m, hlevel, hm.trans ?_, by simp⟩
    rw [Nat.succ_mul]
    omega
  joined := by
    rintro lowest k x y w c c' hc - ⟨m, hx, hm, hlowest⟩ ⟨m', hy, hm', -⟩ h
    obtain ⟨happ, hw⟩ := gate_appends hc hx hy h
    refine ⟨happ.toEvolves, _, hw, ?_, fun hl => ?_⟩
    · rw [Nat.succ_mul]
      omega
    · have hm := hlowest hl
      rw [Nat.succ_mul]
      omega

/-- **The height of the tree is the logarithm of the number of leaves**, rounded up. -/
theorem orAll_atLevel (hc : c.WellFormed) (hws : ∀ w ∈ ws, c.AtLevel cost n w)
    (h : (orAll ws).exec c = (.ok w, c')) :
    c'.AtLevel cost (n + Nat.clog 2 ws.length * cost .or) w := by
  cases ws with
  | nil => cases h
  | cons first rest =>
    have hstart : ∀ lowest, ∀ w ∈ first :: rest, Climbs cost n lowest 0 c w := fun lowest w hw =>
      ⟨n, hws w hw, by omega, fun _ => by omega⟩
    obtain ⟨-, m, hlevel, -, hm⟩ := (joinsLevels_or cost n).reduce_levels hc (by simp)
      (hstart true first (by simp)) (fun w hw => hstart false w (List.mem_cons_of_mem _ hw)) h
    rwa [hm rfl, Nat.zero_add] at hlevel

/-! ### How many disjunctions the tree has -/

/-- Each join of a level takes one from the number of parts. -/
theorem Spends.joinPairs {join : Bool → α → α → Build α}
    (hj : ∀ lowest x y, Spends (join lowest x y) 1 fun _ => True) :
    ∀ {lowest : Bool} {parts : List α}, Spends (Build.joinPairs join lowest parts) (parts.length / 2)
      fun ps => ps.length + parts.length / 2 = parts.length
  | _, [] => by
    rw [joinPairs.eq_2 _ _ _ (by simp), List.length_nil, Nat.zero_div]
    exact .pure rfl
  | _, [p] => by
    have hhalf : [p].length / 2 = 0 := by simp
    rw [joinPairs.eq_2 _ _ _ (by simp), hhalf]
    exact .pure rfl
  | lowest, lo :: hi :: rest => by
    rw [Build.joinPairs]
    have hhalf : (lo :: hi :: rest).length / 2 = 1 + (rest.length / 2 + 0) := by
      simp only [List.length_cons]
      omega
    rw [hhalf]
    refine .bind (hj lowest lo hi) fun p _ => (Spends.joinPairs hj).bind fun ps hps => .pure ?_
    simp only [List.length_cons]
    omega

/-- Levels down to one part. -/
theorem Spends.joinLevels {join : Bool → α → α → Build α}
    (hj : ∀ lowest x y, Spends (join lowest x y) 1 fun _ => True) :
    ∀ {levels : Nat} {parts : List α}, parts.length ≤ levels + 1 →
      Spends (Build.joinLevels join levels parts) (parts.length - 1) fun _ => True
  | levels, [], _ => by
    rw [joinLevels.eq_2 _ _ _ (by simp)]
    exact .pure trivial
  | levels, [_], _ => by
    rw [joinLevels.eq_2 _ _ _ (by simp)]
    exact .pure trivial
  | levels + 1, lo :: hi :: rest, hlen => by
    have hsplit : (lo :: hi :: rest).length - 1 = (lo :: hi :: rest).length / 2 +
        ((lo :: hi :: rest).length - (lo :: hi :: rest).length / 2 - 1) := by
      simp only [List.length_cons]
      omega
    rw [Build.joinLevels, hsplit]
    refine .bind (Spends.joinPairs hj) fun ps hps => ?_
    have hleft : (lo :: hi :: rest).length - (lo :: hi :: rest).length / 2 - 1 = ps.length - 1 := by omega
    rw [hleft]
    refine Spends.joinLevels hj ?_
    simp only [List.length_cons] at hlen hps
    omega

/-- **There is one disjunction less than there are leaves.** -/
theorem spends_orAll : Spends (orAll ws) (ws.length - 1) fun _ => True := by
  refine Spends.bind (m := 0) (Spends.joinLevels (fun _ _ _ => spends_gate) (Nat.le_succ _)) fun ps _ => ?_
  cases ps with
  | nil => exact .throw
  | cons p ps => exact .pure trivial

/-! ### The operations -/

section

variable {a b out : Bundle} {u : Unit}

/-- The steps of a test for zero. -/
theorem isZero_cases (h : (isZero a out).exec c = (.ok u, c')) : ∃ any c₁ o, out = [o] ∧
    (orAll a).exec c = (.ok any, c₁) ∧ (invTo any o).exec c₁ = (.ok u, c') := by
  unfold isZero at h
  obtain ⟨u₁, hone, h⟩ := exec_check_bind.mp h
  obtain ⟨-, -, h⟩ := exec_check_bind.mp h
  obtain ⟨any, c₁, hany, h⟩ := exec_bind_eq_ok.mp h
  obtain ⟨o, ho, hinv⟩ := exec_check_bind.mp h
  exact ⟨any, c₁, o, eq_singleton_of_wireAt hone ho, hany, hinv⟩

/-- The steps that compare two bundles. -/
theorem differ_cases (h : (differ a b out).exec c = (.ok w, c')) : out.length = 1 ∧ a.length = b.length ∧
    ∃ ws c₁, ((a.zip b).mapM fun q => gate .xor q.1 q.2).exec c = (.ok ws, c₁) ∧
      (orAll ws).exec c₁ = (.ok w, c') := by
  unfold differ at h
  obtain ⟨u₁, hone, h⟩ := exec_check_bind.mp h
  obtain ⟨u₂, hwidth, h⟩ := exec_check_bind.mp h
  obtain ⟨-, -, h⟩ := exec_check_bind.mp h
  obtain ⟨ws, c₁, hxors, hany⟩ := exec_bind_eq_ok.mp h
  exact ⟨requireWidth_eq_ok.mp hone, (requireWidth_eq_ok.mp hwidth).symm, ws, c₁, hxors, hany⟩

theorem equal_cases (h : (equal a b out).exec c = (.ok u, c')) : ∃ any c₁ o, out = [o] ∧
    (differ a b [o]).exec c = (.ok any, c₁) ∧ (invTo any o).exec c₁ = (.ok u, c') := by
  unfold equal at h
  obtain ⟨any, c₁, hdiffer, h⟩ := exec_bind_eq_ok.mp h
  obtain ⟨o, ho, hinv⟩ := exec_check_bind.mp h
  obtain rfl := eq_singleton_of_wireAt (requireWidth_eq_ok.mpr (differ_cases hdiffer).1) ho
  exact ⟨any, c₁, o, rfl, hdiffer, hinv⟩

theorem notEqual_cases (h : (notEqual a b out).exec c = (.ok u, c')) : ∃ any c₁ o, out = [o] ∧
    (differ a b [o]).exec c = (.ok any, c₁) ∧ (copyTo any o).exec c₁ = (.ok u, c') := by
  unfold notEqual at h
  obtain ⟨any, c₁, hdiffer, h⟩ := exec_bind_eq_ok.mp h
  obtain ⟨o, ho, hcopy⟩ := exec_check_bind.mp h
  obtain rfl := eq_singleton_of_wireAt (requireWidth_eq_ok.mpr (differ_cases hdiffer).1) ho
  exact ⟨any, c₁, o, rfl, hdiffer, hcopy⟩

/-- Bits are all zero exactly if none of them is one. -/
theorem any_eq_false_iff_toNat (bs : List Bool) : bs.any id = false ↔ Bits.toNat bs = 0 := by
  induction bs with
  | nil => simp
  | cons b bs ih =>
    rw [List.any_cons, Bits.toNat_cons, Bool.or_eq_false_iff, ih]
    cases b <;> simp

/-- Two bundles spell the same bits exactly if they differ nowhere. -/
theorem any_xor_eq_decide (f : Wire → Bool) : ∀ {a b : Bundle}, a.length = b.length →
    ((a.zip b).map fun q => GateKind.xor.eval (f q.1) (f q.2)).any id = decide (a.map f ≠ b.map f)
  | [], [], _ => by simp
  | x :: a, y :: b, hlen => by
    rw [List.zip_cons_cons, List.map_cons, List.any_cons, any_xor_eq_decide f (Nat.succ.inj hlen),
      Bool.eq_iff_iff]
    cases hx : f x <;> cases hy : f y <;> simp [GateKind.eval, hx, hy]

/-- Gates on new wires, then the one that drives the result. -/
theorem evolves_singleton {c₁ : Circuit} {o : Wire} (hev : c.Evolves ∅ c₁) (hset : c₁.Evolves {o} c') :
    c.Evolves {w | w ∈ [o]} c' := by
  have hresult : c₁.Evolves {w | w ∈ [o]} c' := hset.mono (by simp)
  exact (hev.of_empty _).trans_same hresult

/-- A bundle is zero. -/
theorem isZero_spec (hc : c.WellFormed) (ha : ∀ w ∈ a, c.Allocated w)
    (h : (isZero a out).exec c = (.ok u, c')) : c.Evolves {w | w ∈ out} c' ∧ ∃ o, out = [o] ∧
      ∀ input : Valuation, c'.value input o = decide (Bits.toNat (a.map (c.value input)) = 0) := by
  obtain ⟨any, c₁, o, rfl, hany, hinv⟩ := isZero_cases h
  obtain ⟨hev, hvalue⟩ := orAll_spec hc ha hany
  have hset := invTo_spec hev.wellFormed hinv
  refine ⟨evolves_singleton hev hset.toEvolves, o, rfl, fun input => ?_⟩
  rw [hset.value, hvalue, Bool.eq_iff_iff, decide_eq_true_iff, ← any_eq_false_iff_toNat, List.any_map]
  simp

/-- Two bundles differ. -/
theorem differ_spec (hc : c.WellFormed) (ha : ∀ w ∈ a ++ b, c.Allocated w)
    (h : (differ a b out).exec c = (.ok w, c')) : c.Evolves ∅ c' ∧ ∀ input : Valuation,
        c'.value input w = decide (a.map (c.value input) ≠ b.map (c.value input)) := by
  obtain ⟨haa, hab⟩ := List.forall_mem_append.mp ha
  obtain ⟨-, hlen, ws, c₁, hxors, hany⟩ := differ_cases h
  have hpairs : ∀ q ∈ a.zip b, c.Settled ∅ q.1 ∧ c.Settled ∅ q.2 := fun q hq =>
    ⟨⟨haa _ (List.of_mem_zip hq).1, .inl (Set.notMem_empty _)⟩,
      ⟨hab _ (List.of_mem_zip hq).2, .inl (Set.notMem_empty _)⟩⟩
  have hxor := fun input => mapM_gate_spec input (D := ∅) hc (by simp) hpairs hxors
  obtain ⟨hev, hsig⟩ := hxor fun _ => false
  obtain ⟨hev', hvalue⟩ := orAll_spec hev.wellFormed (fun w hw => (hsig.settled w hw).allocated) hany
  refine ⟨hev.trans_same hev', fun input => ?_⟩
  have hany : ws.any (c₁.value input) = (ws.map (c₁.value input)).any id := by simp
  rw [hvalue, hany, (hxor input).2.values, any_xor_eq_decide _ hlen]

theorem equal_spec (hc : c.WellFormed) (ha : ∀ w ∈ a ++ b, c.Allocated w)
    (h : (equal a b out).exec c = (.ok u, c')) : c.Evolves {w | w ∈ out} c' ∧ ∃ o, out = [o] ∧
      ∀ input : Valuation,
        c'.value input o = decide (a.map (c.value input) = b.map (c.value input)) := by
  obtain ⟨any, c₁, o, rfl, hdiffer, hinv⟩ := equal_cases h
  obtain ⟨hev, hvalue⟩ := differ_spec hc ha hdiffer
  have hset := invTo_spec hev.wellFormed hinv
  refine ⟨evolves_singleton hev hset.toEvolves, o, rfl, fun input => ?_⟩
  rw [hset.value, hvalue]
  simp

theorem notEqual_spec (hc : c.WellFormed) (ha : ∀ w ∈ a ++ b, c.Allocated w)
    (h : (notEqual a b out).exec c = (.ok u, c')) : c.Evolves {w | w ∈ out} c' ∧ ∃ o, out = [o] ∧
      ∀ input : Valuation,
        c'.value input o = decide (a.map (c.value input) ≠ b.map (c.value input)) := by
  obtain ⟨any, c₁, o, rfl, hdiffer, hcopy⟩ := notEqual_cases h
  obtain ⟨hev, hvalue⟩ := differ_spec hc ha hdiffer
  have hset := copyTo_spec hev.wellFormed hcopy
  refine ⟨evolves_singleton hev hset.toEvolves, o, rfl, fun input => ?_⟩
  rw [hset.value, hvalue]

/-! ### Their levels -/

theorem isZero_atLevel (hc : c.WellFormed) (ha : ∀ w ∈ a, c.AtLevel cost n w)
    (h : (isZero a out).exec c = (.ok u, c')) :
    ∀ w ∈ out, c'.AtLevel cost (n + Nat.clog 2 a.length * cost .or + cost .inv) w := by
  obtain ⟨any, c₁, o, rfl, hany, hinv⟩ := isZero_cases h
  simpa using invTo_atLevel (orAll_atLevel hc ha hany) hinv

theorem differ_atLevel (hc : c.WellFormed) (ha : ∀ w ∈ a ++ b, c.AtLevel cost n w)
    (h : (differ a b out).exec c = (.ok w, c')) :
    c'.AtLevel cost (n + cost .xor + Nat.clog 2 a.length * cost .or) w := by
  obtain ⟨haa, hab⟩ := List.forall_mem_append.mp ha
  obtain ⟨-, hwidth, ws, c₁, hxors, hany⟩ := differ_cases h
  have hpairs : ∀ q ∈ a.zip b, c.AtLevel cost n q.1 ∧ c.AtLevel cost n q.2 := fun q hq =>
    ⟨haa _ (List.of_mem_zip hq).1, hab _ (List.of_mem_zip hq).2⟩
  obtain ⟨happ, hlevels⟩ := mapM_gate_appends hc hpairs hxors
  have hlen : ws.length = a.length := by
    rw [length_of_mapM hxors, List.length_zip, ← hwidth, Nat.min_self]
  have hlevel := orAll_atLevel happ.wellFormed hlevels hany
  rwa [Nat.max_self, hlen] at hlevel

theorem equal_atLevel (hc : c.WellFormed) (ha : ∀ w ∈ a ++ b, c.AtLevel cost n w)
    (h : (equal a b out).exec c = (.ok u, c')) : ∀ w ∈ out,
      c'.AtLevel cost (n + cost .xor + Nat.clog 2 a.length * cost .or + cost .inv) w := by
  obtain ⟨any, c₁, o, rfl, hdiffer, hinv⟩ := equal_cases h
  simpa using invTo_atLevel (differ_atLevel hc ha hdiffer) hinv

theorem notEqual_atLevel (hcost : cost .copy = 0) (hc : c.WellFormed)
    (ha : ∀ w ∈ a ++ b, c.AtLevel cost n w) (h : (notEqual a b out).exec c = (.ok u, c')) :
    ∀ w ∈ out, c'.AtLevel cost (n + cost .xor + Nat.clog 2 a.length * cost .or) w := by
  obtain ⟨any, c₁, o, rfl, hdiffer, hcopy⟩ := notEqual_cases h
  simpa using copyTo_atLevel hcost (differ_atLevel hc ha hdiffer) hcopy

/-! ### Their disjunctions -/

theorem spends_isZero : Spends (isZero a out) (a.length - 1) fun _ => True := by
  refine .checked fun _ _ => .checked fun _ _ => Spends.bind (m := 0) spends_orAll fun any _ => ?_
  exact .checked fun o _ => spends_invTo

theorem spends_differ : Spends (differ a b out) (a.length - 1) fun _ => True := by
  refine .checked fun _ _ => .checked fun _ hwidth => .checked fun _ _ => ?_
  have hxors : Spends ((a.zip b).mapM fun q => gate .xor q.1 q.2) 0 fun ws => ws.length = a.length := by
    have hlen : (a.zip b).length = a.length := by
      rw [List.length_zip, requireWidth_eq_ok.mp hwidth, Nat.min_self]
    have hmap := Spends.mapM (k := 0) (f := fun q : Wire × Wire => gate .xor q.1 q.2)
      (fun q => spends_gate) (l := a.zip b)
    rwa [Nat.mul_zero, hlen] at hmap
  exact hxors.free_bind fun ws hws => hws ▸ spends_orAll

theorem spends_equal : Spends (equal a b out) (a.length - 1) fun _ => True :=
  Spends.bind (m := 0) spends_differ fun _ _ => .checked fun _ _ => spends_invTo

theorem spends_notEqual : Spends (notEqual a b out) (a.length - 1) fun _ => True :=
  Spends.bind (m := 0) spends_differ fun _ _ => .checked fun _ _ => spends_copyTo

end

end Build

/-! ### Circuits of requests -/

/-- The number of conjunctions and disjunctions of a circuit, its depth in them and its depth in all gates
but copies. -/
def Circuit.Measures (c : Circuit) (nonlinear nonlinearDepth depth : Nat) : Prop :=
  ∃ s, c.stats = .ok s ∧ s.nonlinear = nonlinear ∧ s.nonlinearDepth = nonlinearDepth ∧ s.depth = depth

namespace Request

open Build

variable {a : Nat} {c : Circuit}

/-- What a step makes of a circuit that has only inputs and a result of one wire. -/
theorem measures_of_run {c₀ : Circuit} {ins : List Bundle} {out : Bundle} {D : Set Wire}
    {step : Build Unit} {k : Nat} {f : (GateKind → Nat) → Nat} (hreg : c₀.Registers ins [out])
    (hout : out.length = 1) (hfree : c₀.ConstantFree) (hzero : c₀.nonlinear = 0) (hev : c₀.Evolves D c)
    (hrun : step.exec c₀ = (.ok (), c)) (hspends : Spends step k fun _ => True)
    (hlevel : ∀ cost : GateKind → Nat, cost .copy = 0 → ∀ w ∈ out, c.AtLevel cost (f cost) w) :
    c.Measures k (f GateKind.nonlinearCost) (f GateKind.depthCost) := by
  have hne : out ≠ [] := ne_nil_of_pos hout (Nat.le_refl 1)
  have hdepth := fun cost hcopy => Circuit.depthBy_of_atLevel hev.wellFormed
    (hev.outputs.trans hreg.outputs) hne (hlevel cost hcopy)
  obtain ⟨s, hs, hd, hk, hcount⟩ := Circuit.stats_of_depths (hdepth _ rfl) (hdepth _ rfl)
  obtain ⟨-, -, hexact⟩ := hspends hrun
  refine ⟨s, hs, ?_, hk, hd⟩
  show s.count .and + s.count .or = k
  rw [hcount, c.countKind_and_or, (hexact hfree).2, hzero, Nat.zero_add]

theorem constantFree_operand (a n : Nat) : (operand a n).ConstantFree :=
  (Circuit.constantFree_empty.withInput a).withOutput n

/-- **The circuit of a test for zero.** -/
theorem isZero_circuit (h : (Request.isZero a).circuit = .ok c) :
    (∀ as : List Bool, as.length = a → c.evalBits [as] = .ok [[decide (Bits.toNat as = 0)]]) ∧
      c.Measures (a - 1) (Nat.clog 2 a) (Nat.clog 2 a + 1) := by
  obtain ⟨x, out, hx, hout, hreg, hrun⟩ := run_of_unary (a := a) (n := 1) rfl rfl h
  obtain ⟨hev, o, rfl, hvalue⟩ := isZero_spec hreg.wellFormed (hreg.allocated (by simp)) hrun
  constructor
  · intro as has
    have hbits : [as].map List.length = [x].map List.length := by simp [has, hx]
    obtain ⟨input, hinput, heval⟩ := hreg.evaluates hev (serves_of_circuit h) hbits
    obtain rfl : x.map ((operand a 1).value input) = as := by simpa using hinput
    rw [heval, List.map_singleton, List.map_singleton, hvalue]
  · have hmeasures := measures_of_run hreg hout (constantFree_operand a 1) rfl hev hrun spends_isZero
      fun cost _ => isZero_atLevel hreg.wellFormed (hreg.atLevel (by simp)) hrun
    simpa [hx, GateKind.nonlinearCost, GateKind.depthCost, GateKind.isLinear] using hmeasures

/-- The circuit of a test on two operands of one width. -/
theorem test_circuit {r : Request} {op : Bundle → Bundle → Bundle → Build Unit}
    {t : List Bool → List Bool → Bool} {f : (GateKind → Nat) → Nat}
    (hr : r.build = buildBinary a a 1 op) (hbundles : r.bundles = [a, a, 1])
    (hspec : ∀ (c c' : Circuit) (x y out : Bundle) (u : Unit), c.WellFormed →
      (∀ w ∈ x ++ y, c.Allocated w) → (op x y out).exec c = (.ok u, c') →
      c.Evolves {w | w ∈ out} c' ∧ ∃ o, out = [o] ∧ ∀ input : Valuation,
        c'.value input o = t (x.map (c.value input)) (y.map (c.value input)))
    (hspends : ∀ x y out : Bundle, Spends (op x y out) (x.length - 1) fun _ => True)
    (hlevel : ∀ (cost : GateKind → Nat) (c c' : Circuit) (x y out : Bundle) (u : Unit), cost .copy = 0 →
      c.WellFormed → x.length = a → (∀ w ∈ x ++ y, c.AtLevel cost 0 w) →
      (op x y out).exec c = (.ok u, c') → ∀ w ∈ out, c'.AtLevel cost (f cost) w)
    (h : r.circuit = .ok c) :
    (∀ as bs : List Bool, as.length = a → bs.length = a → c.evalBits [as, bs] = .ok [[t as bs]]) ∧
      c.Measures (a - 1) (f GateKind.nonlinearCost) (f GateKind.depthCost) := by
  obtain ⟨x, y, out, hx, hy, hout, hreg, hrun⟩ := run_of_circuit hr hbundles h
  have hall : ∀ w ∈ x ++ y, (operands a a 1).Allocated w :=
    List.forall_mem_append.mpr ⟨hreg.allocated (by simp), hreg.allocated (by simp)⟩
  have hzero : ∀ cost : GateKind → Nat, ∀ w ∈ x ++ y, (operands a a 1).AtLevel cost 0 w := fun cost =>
    List.forall_mem_append.mpr ⟨hreg.atLevel (by simp), hreg.atLevel (by simp)⟩
  obtain ⟨hev, o, rfl, hvalue⟩ := hspec _ c x y out () hreg.wellFormed hall hrun
  constructor
  · intro as bs has hbs
    have hbits : [as, bs].map List.length = [x, y].map List.length := by simp [has, hbs, hx, hy]
    obtain ⟨input, hinput, heval⟩ := hreg.evaluates hev (serves_of_circuit h) hbits
    obtain ⟨rfl, rfl⟩ : x.map ((operands a a 1).value input) = as ∧
        y.map ((operands a a 1).value input) = bs := by simpa using hinput
    rw [heval, List.map_singleton, List.map_singleton, hvalue]
  · exact measures_of_run hreg hout (constantFree_operands a a 1) rfl hev hrun (hx ▸ hspends x y [o])
      fun cost hcost => hlevel cost _ c x y [o] () hcost hreg.wellFormed hx (hzero cost) hrun

theorem equal_circuit (h : (Request.equal a).circuit = .ok c) :
    (∀ as bs : List Bool, as.length = a → bs.length = a →
      c.evalBits [as, bs] = .ok [[decide (as = bs)]]) ∧
      c.Measures (a - 1) (Nat.clog 2 a) (Nat.clog 2 a + 2) := by
  have htest := test_circuit (a := a) (t := fun as bs => decide (as = bs))
    (f := fun cost => 0 + cost .xor + Nat.clog 2 a * cost .or + cost .inv) rfl rfl
    (fun c c' x y out u hc ha hrun => equal_spec hc ha hrun) (fun x y out => spends_equal)
    (fun cost c c' x y out u _ hc hx hlevel hrun => hx ▸ equal_atLevel hc hlevel hrun) h
  refine htest.imp_right fun hmeasures => ?_
  have hdepth : 1 + Nat.clog 2 a + 1 = Nat.clog 2 a + 2 := by omega
  simpa [GateKind.nonlinearCost, GateKind.depthCost, GateKind.isLinear, hdepth] using hmeasures

theorem notEqual_circuit (h : (Request.notEqual a).circuit = .ok c) :
    (∀ as bs : List Bool, as.length = a → bs.length = a →
      c.evalBits [as, bs] = .ok [[decide (as ≠ bs)]]) ∧
      c.Measures (a - 1) (Nat.clog 2 a) (Nat.clog 2 a + 1) := by
  have htest := test_circuit (a := a) (t := fun as bs => decide (as ≠ bs))
    (f := fun cost => 0 + cost .xor + Nat.clog 2 a * cost .or) rfl rfl
    (fun c c' x y out u hc ha hrun => notEqual_spec hc ha hrun) (fun x y out => spends_notEqual)
    (fun cost c c' x y out u hcost hc hx hlevel hrun => hx ▸ notEqual_atLevel hcost hc hlevel hrun) h
  refine htest.imp_right fun hmeasures => ?_
  simpa [GateKind.nonlinearCost, GateKind.depthCost, GateKind.isLinear, Nat.add_comm] using hmeasures

end Request

open Catalogue in
/-- **Equality is decided by a balanced tree.** Whatever a catalogue was asked before, it has a circuit
that tells whether a bundle is zero and circuits that tell whether two bundles are equal or differ, for
all widths that a bundle can have. Each has one conjunction or disjunction less than there are positions,
and its nonlinear depth is the logarithm of the width, rounded up. The gate that complements the result
and those that compare the positions come on top of that in the depth. -/
theorem equality_circuits_are_balanced (before : List Request) (a : Nat) :
    (1 ≤ a → a < wireLimit → ∀ r ∈ [Request.isZero a, .equal a, .notEqual a],
      ∃ c, ((afterAll before).serve r).result = .ok c) ∧
    (∀ c, ((afterAll before).serve (.isZero a)).result = .ok c →
      (∀ as : List Bool, as.length = a → c.evalBits [as] = .ok [[decide (Bits.toNat as = 0)]]) ∧
      c.Measures (a - 1) (Nat.clog 2 a) (Nat.clog 2 a + 1)) ∧
    (∀ c, ((afterAll before).serve (.equal a)).result = .ok c →
      (∀ as bs : List Bool, as.length = a → bs.length = a →
        c.evalBits [as, bs] = .ok [[decide (as = bs)]]) ∧
      c.Measures (a - 1) (Nat.clog 2 a) (Nat.clog 2 a + 2)) ∧
    ∀ c, ((afterAll before).serve (.notEqual a)).result = .ok c →
      (∀ as bs : List Bool, as.length = a → bs.length = a →
        c.evalBits [as, bs] = .ok [[decide (as ≠ bs)]]) ∧
      c.Measures (a - 1) (Nat.clog 2 a) (Nat.clog 2 a + 1) := by
  simp only [(holds_afterAll before).result_eq]
  refine ⟨fun ha halimit => ?_, fun c => Request.isZero_circuit, fun c => Request.equal_circuit,
    fun c => Request.notEqual_circuit⟩
  have hone : 1 < wireLimit := by decide
  have hunary : ∀ n ∈ [a, 1], n < wireLimit := by simp [halimit, hone]
  have hbinary : ∀ n ∈ [a, a, 1], n < wireLimit := by simp [halimit, hone]
  simp only [List.forall_mem_cons]
  exact ⟨Request.exists_circuit ha hunary, Request.exists_circuit ha hbinary,
    Request.exists_circuit ha hbinary, by simp⟩

/-- At a width that is no power of two, one wire is carried over in two of the three levels. -/
theorem equality_circuits_are_balanced_five :
    ∃ c, ((Catalogue.afterAll [.isZero 3]).serve (.equal 5)).result = .ok c ∧
      c.evalBits [[true, false, true, true, false], [true, false, true, true, true]] = .ok [[false]] ∧
      c.Measures 4 3 5 := by
  obtain ⟨hserved, -, hequal, -⟩ := equality_circuits_are_balanced [.isZero 3] 5
  obtain ⟨c, hc⟩ := hserved (by decide) (by decide) (.equal 5) (by simp)
  obtain ⟨hvalue, hmeasures⟩ := hequal c hc
  have hlog : Nat.clog 2 5 = 3 := by decide
  rw [hlog] at hmeasures
  exact ⟨c, hc, hvalue _ _ rfl rfl, hmeasures⟩

end BitCircuit
