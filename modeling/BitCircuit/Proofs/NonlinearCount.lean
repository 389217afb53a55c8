/-
# Counting nonlinear gates

What each step adds to the number of conjunctions and disjunctions (`Circuit.nonlinear`). A step that
appends a gate of such a kind adds one unless a wire it reads is a constant, and then none: what takes
its place is a copy, an old wire or a constant (`Build.gate_nonlinear`, `Build.gateTo_nonlinear`). All
other steps add none.

Only constants are folded: a gate that reads none is appended as it is asked for
(`Build.gate_unfolded`, `Build.gateTo_unfolded`). In a circuit without constants nothing is folded, and
steps on it make no constants but those they ask for. So for most constructions one number is both an
upper bound in all circuits and the exact count in these (`Build.Spends`).

Key definitions: `Circuit.nonlinear`, `Circuit.ConstantFree`, `Build.Spends`.
Key theorems: `Circuit.stats_nonlinear`, `Build.gate_unfolded`, `Build.gate_nonlinear`,
`Build.gateTo_nonlinear`, `Build.Spends.bind`, `Build.Spends.mapM`.
-/
import BitCircuit.Proofs.Depth
import BitCircuit.Proofs.NewWires

namespace BitCircuit
namespace Circuit

variable {c c' : Circuit} {kind : GateKind} {x y : Wire}

/-- The number of conjunctions and disjunctions. -/
def nonlinear (c : Circuit) : Nat :=
  c.gates.toList.countP fun g => !g.kind.isLinear

theorem nonlinear_eq_of_gates (h : c'.gates = c.gates) : c'.nonlinear = c.nonlinear := by
  rw [nonlinear, nonlinear, h]

theorem nonlinear_addConstant (v : Bool) : (c.addConstant v).nonlinear = c.nonlinear :=
  nonlinear_eq_of_gates (addConstant_eq v).1

theorem nonlinear_pushGate (g : Gate) :
    (c.pushGate g).nonlinear = c.nonlinear + g.kind.nonlinearCost := by
  have hgates : (c.pushGate g).gates.toList = c.gates.toList ++ [g] := by simp [pushGate]
  unfold nonlinear GateKind.nonlinearCost
  rw [hgates, List.countP_append, List.countP_singleton]
  cases g.kind.isLinear <;> rfl

/-- The nonlinear gates are the conjunctions and the disjunctions. -/
theorem countKind_and_or (c : Circuit) : c.countKind .and + c.countKind .or = c.nonlinear := by
  unfold countKind nonlinear
  rw [← Array.countP_toList, ← Array.countP_toList]
  induction c.gates.toList with
  | nil => rfl
  | cons g gs ih =>
    rw [List.countP_cons, List.countP_cons, List.countP_cons, ← ih]
    cases g.kind <;> simp [GateKind.isLinear] <;> omega

/-- The statistics report this number. -/
theorem stats_nonlinear (hc : c.WellFormed) : ∃ s, c.stats = .ok s ∧ s.nonlinear = c.nonlinear := by
  unfold stats
  rw [depthBy_eq hc GateKind.depthCost, depthBy_eq hc GateKind.nonlinearCost]
  exact ⟨_, rfl, c.countKind_and_or⟩

/-- A gate with two inputs folds exactly if one of them is a constant. -/
theorem fold?_eq_none_iff (hk : kind.isUnary = false) :
    c.fold? kind x y = none ↔ c.constantValue? x = none ∧ c.constantValue? y = none := by
  have hbinary : kind.requireBinary = .ok () := by simp [GateKind.requireBinary, hk]
  constructor
  · intro h
    rcases simplified_of_fold?_eq_none x hbinary h with hcopy | hxy
    · have hcopy : kind = .copy := hcopy
      rw [hcopy] at hk
      cases hk
    · exact hxy
  · intro h
    unfold fold?
    rw [h.1, h.2]

/-! ### Circuits without constants -/

/-- No wire is a constant. -/
def ConstantFree (c : Circuit) : Prop := ∀ w, c.constantValue? w = none

theorem ConstantFree.pushGate {g : Gate} (h : c.ConstantFree) (hout : c.Allocated g.out) :
    (c.pushGate g).ConstantFree := by
  intro w
  have hw := h w
  unfold constantValue? at hw ⊢
  rw [state?_pushGate hout]
  by_cases he : w = g.out
  · rw [if_pos he]
  · rw [if_neg he]
    exact hw

theorem ConstantFree.addWires {s : WireState} {n : Nat} (h : c.ConstantFree)
    (hs : ∀ v, s ≠ .constant v) : (c.addWires s n).ConstantFree := by
  intro w
  have hw := h w
  unfold constantValue? at hw ⊢
  rw [state?_addWires]
  by_cases he : w ∈ c.nextBundle n
  · rw [if_pos he]
    cases s with
    | constant v => exact absurd rfl (hs v)
    | _ => rfl
  · rw [if_neg he]
    exact hw

theorem constantFree_empty : Circuit.empty.ConstantFree := fun _ => rfl

theorem ConstantFree.withInput (h : c.ConstantFree) (n : Nat) : (c.withInput n).ConstantFree :=
  h.addWires (s := .input) (n := n) (by simp)

theorem ConstantFree.withOutput (h : c.ConstantFree) (n : Nat) : (c.withOutput n).ConstantFree :=
  h.addWires (s := .undriven) (n := n) (by simp)

end Circuit

namespace Build

variable {α β : Type} {c c' : Circuit} {kind : GateKind} {x y w out : Wire} {u : Unit} {n : Nat}

/-! ### Gates that are not folded -/

/-- **A gate that reads no constant is appended as it is**, on a new wire. -/
theorem gate_unfolded (hx : c.constantValue? x = none) (hy : c.constantValue? y = none)
    (h : (gate kind x y).exec c = (.ok w, c')) :
    (c.addWire .undriven).requireGate ⟨kind, x, y, w⟩ = .ok () ∧ w = c.nextWire ∧
      c' = (c.addWire .undriven).pushGate ⟨kind, x, y, w⟩ := by
  unfold gate at h
  obtain ⟨hk, -, -, h⟩ := exec_checks_eq_ok.mp h
  rw [exec_get_bind, (Circuit.fold?_eq_none_iff hk).mpr ⟨hx, hy⟩] at h
  obtain ⟨out, c₁, hnew, h⟩ := exec_bind_eq_ok.mp h
  obtain ⟨u, c₂, hdrive, h⟩ := exec_bind_eq_ok.mp h
  obtain ⟨rfl, rfl⟩ := exec_pure_eq_ok.mp h
  rw [exec_newWire] at hnew
  cases hnew
  obtain ⟨hgate, rfl⟩ := exec_drive_eq_ok.mp hdrive
  exact ⟨hgate, rfl, rfl⟩

/-- The same of a gate that drives a given wire. -/
theorem gateTo_unfolded (hx : c.constantValue? x = none) (hy : c.constantValue? y = none)
    (h : (gateTo kind x y out).exec c = (.ok u, c')) :
    c.requireGate ⟨kind, x, y, out⟩ = .ok () ∧ c' = c.pushGate ⟨kind, x, y, out⟩ := by
  unfold gateTo at h
  obtain ⟨hk, -, -, h⟩ := exec_checks_eq_ok.mp h
  rw [exec_get_bind, (Circuit.fold?_eq_none_iff hk).mpr ⟨hx, hy⟩] at h
  exact exec_drive_eq_ok.mp h

theorem invTo_unfolded (hx : c.constantValue? x = none) (h : (invTo x out).exec c = (.ok u, c')) :
    c.requireGate ⟨.inv, x, x, out⟩ = .ok () ∧ c' = c.pushGate ⟨.inv, x, x, out⟩ := by
  unfold invTo at h
  obtain ⟨-, h⟩ := exec_requireReadable_bind.mp h
  rw [exec_get_bind, hx] at h
  exact exec_drive_eq_ok.mp h

/-! ### Single steps -/

theorem drive_nonlinear {g : Gate} (h : (drive g).exec c = (.ok u, c')) :
    c'.nonlinear = c.nonlinear + g.kind.nonlinearCost := by
  obtain ⟨-, rfl⟩ := exec_drive_eq_ok.mp h
  exact Circuit.nonlinear_pushGate g

theorem newWire_drive_nonlinear
    (h : (newWire >>= fun out => drive ⟨kind, x, y, out⟩ >>= fun _ => pure out).exec c = (.ok w, c')) :
    c'.nonlinear = c.nonlinear + kind.nonlinearCost := by
  obtain ⟨out, c₁, hnew, h⟩ := exec_bind_eq_ok.mp h
  obtain ⟨u, c₂, hdrive, h⟩ := exec_bind_eq_ok.mp h
  obtain ⟨rfl, rfl⟩ := exec_pure_eq_ok.mp h
  rw [exec_newWire] at hnew
  cases hnew
  exact drive_nonlinear hdrive

theorem constant_nonlinear {v : Bool} (h : (constant v).exec c = (.ok w, c')) :
    c'.nonlinear = c.nonlinear := by
  rw [exec_constant] at h
  cases hv : c.constantWire? v with
  | some w' =>
    rw [hv] at h
    cases h
    rfl
  | none =>
    rw [hv] at h
    cases h
    exact Circuit.nonlinear_addConstant v

theorem constant_drive_nonlinear {v : Bool}
    (h : (constant v >>= fun w => drive ⟨.copy, w, w, out⟩).exec c = (.ok u, c')) :
    c'.nonlinear = c.nonlinear := by
  obtain ⟨w, c₁, hconst, h⟩ := exec_bind_eq_ok.mp h
  exact (drive_nonlinear h).trans (constant_nonlinear hconst)

theorem inv_nonlinear (h : (inv x).exec c = (.ok w, c')) : c'.nonlinear = c.nonlinear := by
  unfold inv at h
  obtain ⟨-, h⟩ := exec_requireReadable_bind.mp h
  rw [exec_get_bind] at h
  cases hv : c.constantValue? x with
  | some v =>
    rw [hv] at h
    exact constant_nonlinear h
  | none =>
    rw [hv] at h
    exact newWire_drive_nonlinear h

theorem invTo_nonlinear (h : (invTo x out).exec c = (.ok u, c')) : c'.nonlinear = c.nonlinear := by
  unfold invTo at h
  obtain ⟨-, h⟩ := exec_requireReadable_bind.mp h
  rw [exec_get_bind] at h
  cases hv : c.constantValue? x with
  | some v =>
    rw [hv] at h
    exact constant_drive_nonlinear h
  | none =>
    rw [hv] at h
    exact drive_nonlinear h

theorem copyTo_nonlinear (h : (copyTo x out).exec c = (.ok u, c')) : c'.nonlinear = c.nonlinear := by
  unfold copyTo at h
  split at h
  · obtain ⟨-, h⟩ := exec_requireReadable_bind.mp h
    obtain ⟨-, rfl⟩ := exec_requireWritable_eq_ok.mp h
    rfl
  · exact drive_nonlinear h

/-- **A gate counts unless it reads a constant.** -/
theorem gate_nonlinear (h : (gate kind x y).exec c = (.ok w, c')) :
    c'.nonlinear = c.nonlinear +
      if c.constantValue? x = none ∧ c.constantValue? y = none then kind.nonlinearCost else 0 := by
  unfold gate at h
  obtain ⟨hk, -, -, h⟩ := exec_checks_eq_ok.mp h
  rw [exec_get_bind] at h
  have hnone := Circuit.fold?_eq_none_iff (c := c) (x := x) (y := y) hk
  cases hf : c.fold? kind x y with
  | none =>
    rw [hf] at h
    rw [if_pos (hnone.mp hf)]
    exact newWire_drive_nonlinear h
  | some folded =>
    have hread : ¬ (c.constantValue? x = none ∧ c.constantValue? y = none) := fun hxy => by
      cases hf.symm.trans (hnone.mpr hxy)
    rw [hf] at h
    rw [if_neg hread, Nat.add_zero]
    cases folded with
    | constant v => exact constant_nonlinear h
    | same z =>
      obtain ⟨-, rfl⟩ := exec_pure_eq_ok.mp h
      rfl
    | inverted z => exact inv_nonlinear h

/-- The same of a gate that drives a given wire. -/
theorem gateTo_nonlinear (h : (gateTo kind x y out).exec c = (.ok u, c')) :
    c'.nonlinear = c.nonlinear +
      if c.constantValue? x = none ∧ c.constantValue? y = none then kind.nonlinearCost else 0 := by
  unfold gateTo at h
  obtain ⟨hk, -, -, h⟩ := exec_checks_eq_ok.mp h
  rw [exec_get_bind] at h
  have hnone := Circuit.fold?_eq_none_iff (c := c) (x := x) (y := y) hk
  cases hf : c.fold? kind x y with
  | none =>
    rw [hf] at h
    rw [if_pos (hnone.mp hf)]
    exact drive_nonlinear h
  | some folded =>
    have hread : ¬ (c.constantValue? x = none ∧ c.constantValue? y = none) := fun hxy => by
      cases hf.symm.trans (hnone.mpr hxy)
    rw [hf] at h
    rw [if_neg hread, Nat.add_zero]
    cases folded with
    | constant v => exact constant_drive_nonlinear h
    | same z =>
      dsimp only at h
      split at h
      · obtain ⟨-, rfl⟩ := exec_requireWritable_eq_ok.mp h
        rfl
      · exact drive_nonlinear h
    | inverted z => exact drive_nonlinear h

theorem gateTo_linear (hk : kind.nonlinearCost = 0) (h : (gateTo kind x y out).exec c = (.ok u, c')) :
    c'.nonlinear = c.nonlinear := by
  rw [gateTo_nonlinear h, hk, ite_self, Nat.add_zero]

/-! ### Steps with one count for all circuits -/

/-- The step adds at most `k`, and exactly `k` to a circuit without constants, which it leaves without
constants. What it returns has `Q`. -/
def Spends (step : Build α) (k : Nat) (Q : α → Prop) : Prop :=
  ∀ ⦃c : Circuit⦄ ⦃a : α⦄ ⦃c' : Circuit⦄, step.exec c = (.ok a, c') →
    Q a ∧ c'.nonlinear ≤ c.nonlinear + k ∧
      (c.ConstantFree → c'.ConstantFree ∧ c'.nonlinear = c.nonlinear + k)

namespace Spends

variable {Q : α → Prop} {R : β → Prop} {k m : Nat}

theorem pure {a : α} (h : Q a) : Spends (Pure.pure a) 0 Q := by
  intro c a' c' hrun
  obtain ⟨rfl, rfl⟩ := exec_pure_eq_ok.mp hrun
  exact ⟨h, Nat.le_refl _, fun hfree => ⟨hfree, rfl⟩⟩

theorem throw {e : Error} : Spends (throw e : Build α) k Q :=
  fun _ _ _ h => (exec_throw_eq_ok.mp h).elim

theorem bind {step : Build α} {f : α → Build β} (hstep : Spends step k Q)
    (hf : ∀ a, Q a → Spends (f a) m R) : Spends (step >>= f) (k + m) R := by
  intro c b c' hrun
  obtain ⟨a, c₁, h₁, h₂⟩ := exec_bind_eq_ok.mp hrun
  obtain ⟨ha, hle₁, hfree₁⟩ := hstep h₁
  obtain ⟨hb, hle₂, hfree₂⟩ := hf a ha h₂
  refine ⟨hb, by omega, fun hfree => ?_⟩
  obtain ⟨hfree', heq₁⟩ := hfree₁ hfree
  obtain ⟨hfree'', heq₂⟩ := hfree₂ hfree'
  exact ⟨hfree'', by omega⟩

/-- A step that adds nothing, and what comes after it. -/
theorem free_bind {step : Build α} {f : α → Build β} (hstep : Spends step 0 Q)
    (hf : ∀ a, Q a → Spends (f a) m R) : Spends (step >>= f) m R :=
  Nat.zero_add m ▸ hstep.bind hf

/-- A check in front of a step. -/
theorem checked {check : Except Error α} {f : α → Build β}
    (hf : ∀ a, check = .ok a → Spends (f a) k R) : Spends ((liftM check : Build α) >>= f) k R := by
  intro c b c' hrun
  obtain ⟨a, ha, h⟩ := exec_check_bind.mp hrun
  exact hf a ha h

theorem mono {step : Build α} {Q' : α → Prop} (h : Spends step k Q) (hQ : ∀ a, Q a → Q' a) :
    Spends step k Q' :=
  fun _ a _ hrun => ⟨hQ a (h hrun).1, (h hrun).2⟩

/-- One step for each entry of a list. -/
theorem mapM {f : α → Build β} (hf : ∀ a, Spends (f a) k fun _ => True) : ∀ {l : List α},
    Spends (l.mapM f) (l.length * k) fun bs => bs.length = l.length
  | [] => by
    rw [List.mapM_nil, List.length_nil, Nat.zero_mul]
    exact .pure rfl
  | a :: l => by
    rw [List.mapM_cons, List.length_cons, Nat.succ_mul, Nat.add_comm]
    refine .bind (hf a) fun b _ => ?_
    exact (Spends.mapM hf (l := l)).bind (m := 0) fun bs hbs => .pure (congrArg Nat.succ hbs)

theorem forM {f : α → Build Unit} (hf : ∀ a, Spends (f a) 0 fun _ => True) : ∀ {l : List α},
    Spends (l.forM f) 0 fun _ => True
  | [] => .pure trivial
  | a :: l => by
    rw [List.forM_eq_forM, List.forM_cons]
    exact .bind (hf a) fun _ _ => Spends.forM hf (l := l)

end Spends

theorem constantFree_drive {g : Gate} (hfree : c.ConstantFree) (h : (drive g).exec c = (.ok u, c')) :
    c'.ConstantFree := by
  obtain ⟨hg, rfl⟩ := exec_drive_eq_ok.mp h
  exact hfree.pushGate (Circuit.requireGate_eq_ok.mp hg).2.2.allocated

theorem spends_newWire_drive :
    Spends (newWire >>= fun out => drive ⟨kind, x, y, out⟩ >>= fun _ => pure out) kind.nonlinearCost
      fun _ => True := by
  intro c w c' h
  have hcount := newWire_drive_nonlinear h
  refine ⟨trivial, Nat.le_of_eq hcount, fun hfree => ⟨?_, hcount⟩⟩
  obtain ⟨out, c₁, hnew, h⟩ := exec_bind_eq_ok.mp h
  obtain ⟨u, c₂, hdrive, h⟩ := exec_bind_eq_ok.mp h
  obtain ⟨rfl, rfl⟩ := exec_pure_eq_ok.mp h
  rw [exec_newWire] at hnew
  cases hnew
  exact constantFree_drive (Circuit.addWire_eq (c := c) ▸ hfree.addWires (by simp)) hdrive

theorem spends_gate : Spends (gate kind x y) kind.nonlinearCost fun _ => True := by
  intro c w c' h
  have hcount := gate_nonlinear h
  refine ⟨trivial, ?_, fun hfree => ?_⟩
  · rw [hcount]
    split
    · exact Nat.le_refl _
    · exact Nat.le_add_right _ _
  · obtain ⟨hgate, -, rfl⟩ := gate_unfolded (hfree x) (hfree y) h
    have hwire : (c.addWire .undriven).ConstantFree :=
      Circuit.addWire_eq (c := c) ▸ hfree.addWires (by simp)
    refine ⟨hwire.pushGate (Circuit.requireGate_eq_ok.mp hgate).2.2.allocated, ?_⟩
    rw [hcount, if_pos ⟨hfree x, hfree y⟩]

theorem spends_gateTo (hk : kind.nonlinearCost = 0) : Spends (gateTo kind x y out) 0 fun _ => True := by
  intro c w c' h
  have hcount := gateTo_linear hk h
  refine ⟨trivial, Nat.le_of_eq hcount, fun hfree => ⟨?_, hcount⟩⟩
  obtain ⟨hgate, rfl⟩ := gateTo_unfolded (hfree x) (hfree y) h
  exact hfree.pushGate (Circuit.requireGate_eq_ok.mp hgate).2.2.allocated

theorem spends_inv : Spends (inv x) 0 fun _ => True := by
  intro c w c' h
  have hcount := inv_nonlinear h
  refine ⟨trivial, Nat.le_of_eq hcount, fun hfree => ⟨?_, hcount⟩⟩
  unfold inv at h
  obtain ⟨-, h⟩ := exec_requireReadable_bind.mp h
  rw [exec_get_bind, hfree x] at h
  exact ((spends_newWire_drive h).2.2 hfree).1

theorem spends_invTo : Spends (invTo x out) 0 fun _ => True := by
  intro c w c' h
  have hcount := invTo_nonlinear h
  refine ⟨trivial, Nat.le_of_eq hcount, fun hfree => ⟨?_, hcount⟩⟩
  obtain ⟨hgate, rfl⟩ := invTo_unfolded (hfree x) h
  exact hfree.pushGate (Circuit.requireGate_eq_ok.mp hgate).2.2.allocated

theorem spends_copyTo : Spends (copyTo x out) 0 fun _ => True := by
  intro c w c' h
  have hcount := copyTo_nonlinear h
  refine ⟨trivial, Nat.le_of_eq hcount, fun hfree => ⟨?_, hcount⟩⟩
  unfold copyTo at h
  split at h
  · obtain ⟨-, h⟩ := exec_requireReadable_bind.mp h
    obtain ⟨-, rfl⟩ := exec_requireWritable_eq_ok.mp h
    exact hfree
  · exact constantFree_drive hfree h

end Build
end BitCircuit
