/-
# Levels of wires

The level of a wire is what the statistics count on the way to it. It is fixed by the gates so far,
so it changes only where a wire is driven (`Circuit.Extends.level_eq`), and a wire that no gate drives
has level zero. A gate is its own cost above the wires it reads, also if constants are folded: what
takes its place is a copy, which costs nothing, an inverter in place of an exclusive or, or no gate
(`Build.gate_level`, `Build.gateTo_level`).

A wire that stays within a level does so while other wires are driven (`Circuit.Within`), so that an
operation is followed step by step, and the depth of a circuit is bounded by the levels of its outputs
(`Circuit.depthBy_le`).

Key definitions: `CountsGates`, `Circuit.level`, `Circuit.Within`, `Circuit.Shallow`.
Key theorems: `Circuit.Extends.level_eq`, `Build.gate_level`, `Build.gateTo_level`,
`Build.mapM_gate_within`, `Build.forM_gateTo_shallow`, `Circuit.depthBy_le`.
-/
import BitCircuit.Proofs.Depth
import BitCircuit.Proofs.NewWires

namespace BitCircuit

/-- The cost counts each gate at most once and a copy not at all, and an inverter only if it counts
exclusive ors. -/
structure CountsGates (cost : GateKind → Nat) : Prop where
  copy : cost .copy = 0
  le_one : ∀ kind, cost kind ≤ 1
  inv_le_xor : cost .inv ≤ cost .xor
  inv_le_nxor : cost .inv ≤ cost .nxor

theorem countsGates_depthCost : CountsGates GateKind.depthCost :=
  ⟨rfl, fun kind => by cases kind <;> decide, Nat.le_refl _, Nat.le_refl _⟩

theorem countsGates_nonlinearCost : CountsGates GateKind.nonlinearCost :=
  ⟨rfl, fun kind => by cases kind <;> decide, Nat.le_refl _, Nat.le_refl _⟩

variable {cost : GateKind → Nat}

/-- Gates that drive other wires leave the number of a wire alone. -/
theorem depth_foldl_push {w : Wire} : ∀ {gs : List Gate} {t : Levels}, (∀ g ∈ gs, g.out ≠ w) →
    (gs.foldl (Levels.push cost) t).depth w = t.depth w
  | [], _, _ => rfl
  | g :: gs, t, h => by
    obtain ⟨hg, hgs⟩ := List.forall_mem_cons.mp h
    rw [List.foldl_cons, depth_foldl_push hgs]
    exact Function.update_of_ne hg.symm _ _

namespace Circuit

variable {c c' : Circuit} {D D' : Set Wire} {w : Wire} {n m : Nat}

/-! ### The level of a wire -/

/-- What is counted on the way to a wire. -/
def level (c : Circuit) (cost : GateKind → Nat) (w : Wire) : Nat :=
  (levels cost c.gates.toList).depth w

/-- A wire that no gate drives has level zero. -/
theorem level_eq_zero (hc : c.WellFormed) (hw : c.state? w ≠ some .driven) : c.level cost w = 0 :=
  depth_foldl_push fun g hg hout => hw ((hc.driven_iff w).mpr ⟨g, hg, hout⟩)

theorem level_given (hc : c.WellFormed) (hw : c.Given w) : c.level cost w = 0 := by
  refine level_eq_zero hc fun hd => ?_
  exact hw.not_writable (writable_iff.mpr (.inr hd))

theorem level_pushGate (g : Gate) : (c.pushGate g).level cost w =
    if w = g.out then max (c.level cost g.x) (c.level cost g.y) + cost g.kind else c.level cost w := by
  have hgates : (c.pushGate g).gates.toList = c.gates.toList ++ [g] := by simp [pushGate]
  unfold level levels
  rw [hgates, List.foldl_append]
  show Function.update _ g.out _ w = _
  rw [Function.update_apply]
  rfl

/-- **Only wires that are driven change their level.** -/
theorem Extends.level_eq (h : c.Extends D c') (hw : c.Allocated w) (hD : w ∉ D) :
    c'.level cost w = c.level cost w := by
  obtain ⟨new, hnew, hout⟩ := h.gates
  unfold level levels
  rw [hnew, List.foldl_append]
  refine depth_foldl_push fun g hg he => ?_
  rcases hout g hg with hg | hg
  · exact hD (he ▸ hg)
  · exact hg (he.symm ▸ hw)

/-! ### Wires within a level -/

/-- The wire is at level `n` at most, and stays there while wires in `D` are driven. -/
structure Within (c : Circuit) (cost : GateKind → Nat) (D : Set Wire) (n : Nat) (w : Wire) : Prop
    extends c.Settled D w where
  level_le : c.level cost w ≤ n

theorem Within.evolves (hw : c.Within cost D n w) (h : c.Evolves D' c') (hD : D' ⊆ D) :
    c'.Within cost D n w := by
  refine ⟨hw.toSettled.evolves h, ?_⟩
  rcases hw.kept with hn | hg
  · rw [h.level_eq hw.allocated fun hm => hn (hD hm)]
    exact hw.level_le
  · rw [level_given h.wellFormed (h.given hg)]
    exact Nat.zero_le n

theorem Within.mono (hw : c.Within cost D n w) (h : n ≤ m) : c.Within cost D m w :=
  ⟨hw.toSettled, hw.level_le.trans h⟩

theorem within_given (hc : c.WellFormed) (hw : c.Given w) : c.Within cost D n w :=
  ⟨⟨hw.readable.allocated, .inr hw⟩, by rw [level_given hc hw]; exact Nat.zero_le n⟩

/-- All wires in `D` are at level `n` at most. -/
def Shallow (c : Circuit) (cost : GateKind → Nat) (D : Set Wire) (n : Nat) : Prop :=
  ∀ w ∈ D, c.Allocated w ∧ c.level cost w ≤ n

theorem Shallow.allocated (h : c.Shallow cost D n) : ∀ w ∈ D, c.Allocated w :=
  fun w hw => (h w hw).1

theorem Shallow.mono (h : c.Shallow cost D n) (hm : n ≤ m) : c.Shallow cost D m :=
  fun w hw => ⟨(h w hw).1, (h w hw).2.trans hm⟩

/-- Steps on new wires leave the others at their levels. -/
theorem Shallow.evolves (h : c.Shallow cost D n) (hev : c.Evolves ∅ c') : c'.Shallow cost D n := by
  intro w hw
  obtain ⟨ha, hle⟩ := h w hw
  refine ⟨hev.allocated ha, ?_⟩
  rw [hev.level_eq ha (Set.notMem_empty w)]
  exact hle

/-- A step that drives one wire has to keep only that one low. -/
theorem Shallow.drives {out : Wire} (h : c.Shallow cost D n) (hev : c.Evolves {out} c')
    (hout : c'.level cost out ≤ n) : c'.Shallow cost D n := by
  intro w hw
  obtain ⟨ha, hle⟩ := h w hw
  refine ⟨hev.allocated ha, ?_⟩
  by_cases he : w = out
  · exact he ▸ hout
  · rw [hev.level_eq ha he]
    exact hle

/-- What folds to an inverter is an exclusive or. -/
theorem inv_le_of_fold? {kind : GateKind} {x y : Wire} (hcost : CountsGates cost)
    (h : c.fold? kind x y = some (.inverted w)) : cost .inv ≤ cost kind := by
  have hwith : ∀ z v, kind.foldWith z v = some (.inverted w) → cost .inv ≤ cost kind := by
    intro z v hz
    cases kind with
    | xor => exact hcost.inv_le_xor
    | nxor => exact hcost.inv_le_nxor
    | inv | copy => cases hz
    | and | or => cases v <;> cases hz
  unfold fold? at h
  split at h
  · cases h
  · exact hwith _ _ h
  · exact hwith _ _ h
  · cases h

/-! ### The depth of a circuit -/

/-- **The depth is at most the level of the outputs.** -/
theorem depthBy_le {b : Bundle} {d : Nat} (hc : c.WellFormed) (houtputs : c.outputs = [b])
    (hb : c.Shallow cost {w | w ∈ b} n) (h : c.depthBy cost = .ok d) : d ≤ n := by
  rw [depthBy_eq hc cost, houtputs] at h
  obtain rfl := Except.ok.inj h
  have hall : ∀ k ∈ b.map (c.driverDepth (levels cost c.gates.toList)), k ≤ n := by
    intro k hk
    obtain ⟨w, hw, rfl⟩ := List.mem_map.mp hk
    unfold driverDepth
    split
    · exact (hb w hw).2
    · exact Nat.zero_le n
  obtain ⟨hmem, -⟩ := isGreatest_foldl_max (b.map (c.driverDepth (levels cost c.gates.toList))) 0
  rw [if_neg (by simp), List.flatten_singleton]
  rcases hmem with hzero | hmem
  · rw [hzero]
    exact Nat.zero_le n
  · exact hall _ hmem

/-- The statistics of a circuit whose outputs are low by both counts. -/
theorem stats_le {b : Bundle} {d k : Nat} (hc : c.WellFormed) (houtputs : c.outputs = [b])
    (hd : c.Shallow GateKind.depthCost {w | w ∈ b} d)
    (hk : c.Shallow GateKind.nonlinearCost {w | w ∈ b} k) :
    ∃ s, c.stats = .ok s ∧ s.depth ≤ d ∧ s.nonlinearDepth ≤ k := by
  have hdepth := depthBy_eq hc GateKind.depthCost
  have hnonlinear := depthBy_eq hc GateKind.nonlinearCost
  have hdle := depthBy_le hc houtputs hd hdepth
  have hkle := depthBy_le hc houtputs hk hnonlinear
  unfold stats
  rw [hdepth, hnonlinear]
  exact ⟨_, rfl, hdle, hkle⟩

end Circuit

namespace Build

variable {c c' : Circuit} {D : Set Wire} {kind : GateKind} {x y w out : Wire} {n : Nat} {u : Unit}

/-! ### Single gates -/

theorem drive_level {g : Gate} (h : (drive g).exec c = (.ok u, c')) :
    c'.level cost g.out = max (c.level cost g.x) (c.level cost g.y) + cost g.kind := by
  obtain ⟨-, rfl⟩ := exec_drive_eq_ok.mp h
  rw [Circuit.level_pushGate, if_pos rfl]

theorem drive_level_le {g : Gate} (hx : c.level cost g.x ≤ n) (hy : c.level cost g.y ≤ n)
    (h : (drive g).exec c = (.ok u, c')) : c'.level cost g.out ≤ n + cost g.kind := by
  rw [drive_level h]
  exact Nat.add_le_add_right (Nat.max_le.mpr ⟨hx, hy⟩) _

theorem newWire_drive_level (hx : c.level cost x ≤ n) (hy : c.level cost y ≤ n)
    (h : (newWire >>= fun out => drive ⟨kind, x, y, out⟩ >>= fun _ => pure out).exec c = (.ok w, c')) :
    c'.level cost w ≤ n + cost kind := by
  obtain ⟨out, c₁, hnew, h⟩ := exec_bind_eq_ok.mp h
  obtain ⟨u, c₂, hdrive, h⟩ := exec_bind_eq_ok.mp h
  obtain ⟨rfl, rfl⟩ := exec_pure_eq_ok.mp h
  rw [exec_newWire] at hnew
  cases hnew
  exact drive_level_le hx hy hdrive

theorem constant_level (hc : c.WellFormed) {v : Bool} (h : (constant v).exec c = (.ok w, c')) :
    c'.level cost w = 0 := by
  obtain ⟨hev, hs⟩ := constant_state hc h
  exact Circuit.level_given hev.wellFormed (.inr ⟨v, hs⟩)

theorem constant_drive_level (hcost : CountsGates cost) (hc : c.WellFormed) {v : Bool}
    (h : (constant v >>= fun w => drive ⟨.copy, w, w, out⟩).exec c = (.ok u, c')) :
    c'.level cost out = 0 := by
  obtain ⟨w, c₁, hconst, h⟩ := exec_bind_eq_ok.mp h
  have hw : c₁.level cost w = 0 := constant_level hc hconst
  rw [drive_level (g := ⟨.copy, w, w, out⟩) h, hw, hcost.copy]
  rfl

theorem inv_level (hc : c.WellFormed) (hx : c.level cost x ≤ n) (h : (inv x).exec c = (.ok w, c')) :
    c'.level cost w ≤ n + cost .inv := by
  unfold inv at h
  obtain ⟨-, h⟩ := exec_requireReadable_bind.mp h
  rw [exec_get_bind] at h
  cases hv : c.constantValue? x with
  | some v =>
    rw [hv] at h
    rw [constant_level hc h]
    exact Nat.zero_le _
  | none =>
    rw [hv] at h
    exact newWire_drive_level hx hx h

theorem invTo_level (hcost : CountsGates cost) (hc : c.WellFormed) (hx : c.level cost x ≤ n)
    (h : (invTo x out).exec c = (.ok u, c')) : c'.level cost out ≤ n + cost .inv := by
  unfold invTo at h
  obtain ⟨-, h⟩ := exec_requireReadable_bind.mp h
  rw [exec_get_bind] at h
  cases hv : c.constantValue? x with
  | some v =>
    rw [hv] at h
    rw [constant_drive_level hcost hc h]
    exact Nat.zero_le _
  | none =>
    rw [hv] at h
    exact drive_level_le (g := ⟨.inv, x, x, out⟩) hx hx h

theorem copyTo_level (hcost : CountsGates cost) (hx : c.level cost x ≤ n)
    (h : (copyTo x out).exec c = (.ok u, c')) : c'.level cost out ≤ n := by
  unfold copyTo at h
  split at h
  · rename_i he
    obtain ⟨-, h⟩ := exec_requireReadable_bind.mp h
    obtain ⟨-, rfl⟩ := exec_requireWritable_eq_ok.mp h
    exact he ▸ hx
  · have hle := drive_level_le (g := ⟨.copy, x, x, out⟩) hx hx h
    rwa [hcost.copy] at hle

/-- **A gate is its cost above the wires it reads**, or lower where constants are folded. -/
theorem gate_level (hcost : CountsGates cost) (hc : c.WellFormed) (hx : c.level cost x ≤ n)
    (hy : c.level cost y ≤ n) (h : (gate kind x y).exec c = (.ok w, c')) :
    c'.level cost w ≤ n + cost kind := by
  unfold gate at h
  obtain ⟨-, -, -, h⟩ := exec_checks_eq_ok.mp h
  rw [exec_get_bind] at h
  have hread {z : Wire} (hz : z = x ∨ z = y) : c.level cost z ≤ n := by
    rcases hz with rfl | rfl
    · exact hx
    · exact hy
  cases hf : c.fold? kind x y with
  | none =>
    rw [hf] at h
    exact newWire_drive_level hx hy h
  | some folded =>
    rw [hf] at h
    cases folded with
    | constant v =>
      rw [constant_level hc h]
      exact Nat.zero_le _
    | same z =>
      obtain ⟨rfl, rfl⟩ := exec_pure_eq_ok.mp h
      exact (hread (Circuit.mem_of_fold? hf (.inl rfl))).trans (Nat.le_add_right n _)
    | inverted z =>
      have hz := inv_level hc (hread (Circuit.mem_of_fold? hf (.inr rfl))) h
      exact hz.trans (Nat.add_le_add_left (Circuit.inv_le_of_fold? hcost hf) n)

/-- The same of a gate that drives a given wire, which may be one that it reads. -/
theorem gateTo_level (hcost : CountsGates cost) (hc : c.WellFormed) (hx : c.level cost x ≤ n)
    (hy : c.level cost y ≤ n) (h : (gateTo kind x y out).exec c = (.ok u, c')) :
    c'.level cost out ≤ n + cost kind := by
  unfold gateTo at h
  obtain ⟨-, -, -, h⟩ := exec_checks_eq_ok.mp h
  rw [exec_get_bind] at h
  have hread {z : Wire} (hz : z = x ∨ z = y) : c.level cost z ≤ n := by
    rcases hz with rfl | rfl
    · exact hx
    · exact hy
  cases hf : c.fold? kind x y with
  | none =>
    rw [hf] at h
    exact drive_level_le (g := ⟨kind, x, y, out⟩) hx hy h
  | some folded =>
    rw [hf] at h
    cases folded with
    | constant v =>
      rw [constant_drive_level hcost hc h]
      exact Nat.zero_le _
    | same z =>
      have hz := hread (Circuit.mem_of_fold? hf (.inl rfl))
      have hout : c'.level cost out ≤ n := by
        dsimp only at h
        split at h
        · rename_i he
          obtain ⟨-, rfl⟩ := exec_requireWritable_eq_ok.mp h
          exact he ▸ hz
        · have hle := drive_level_le (g := ⟨.copy, z, z, out⟩) hz hz h
          rwa [hcost.copy] at hle
      exact hout.trans (Nat.le_add_right n _)
    | inverted z =>
      have hz := hread (Circuit.mem_of_fold? hf (.inr rfl))
      have hle := drive_level_le (g := ⟨.inv, z, z, out⟩) hz hz h
      exact hle.trans (Nat.add_le_add_left (Circuit.inv_le_of_fold? hcost hf) n)

theorem newBundle_shallow {b : Bundle} {k : Nat} (hc : c.WellFormed)
    (h : (newBundle k).exec c = (.ok b, c')) : c'.Shallow cost {w | w ∈ b} 0 := by
  obtain ⟨-, rfl, rfl⟩ := Circuit.newBundle_eq_ok h
  intro w hw
  have hnew : w ∈ c.nextBundle k := hw
  have hs : (c.addWires .undriven k).state? w = some .undriven := by
    rw [Circuit.state?_addWires, if_pos hnew]
  refine ⟨Circuit.allocated_iff.mpr ⟨_, hs⟩, Nat.le_of_eq (Circuit.level_eq_zero (hc.addWires k) ?_)⟩
  simp [hs]

/-! ### Many gates -/

theorem gate_within (hcost : CountsGates cost) (hc : c.WellFormed) (hD : ∀ w ∈ D, c.Allocated w)
    (hx : c.Within cost D n x) (hy : c.Within cost D n y) (h : (gate kind x y).exec c = (.ok w, c')) :
    c.Evolves ∅ c' ∧ c'.Within cost D (n + cost kind) w := by
  have hw := gate_spec hc h
  refine ⟨hw.toEvolves, hw.settled hD ?_, gate_level hcost hc hx.level_le hy.level_le h⟩
  simp [hx.toSettled, hy.toSettled]

theorem inv_within (hc : c.WellFormed) (hD : ∀ w ∈ D, c.Allocated w)
    (hx : c.Within cost D n x) (h : (inv x).exec c = (.ok w, c')) :
    c.Evolves ∅ c' ∧ c'.Within cost D (n + cost .inv) w := by
  have hw := inv_spec hc h
  exact ⟨hw.toEvolves, hw.settled hD (by simp), inv_level hc hx.level_le h⟩

/-- One step for each entry of a list, each finding a wire within some level from wires within
another. -/
theorem mapM_within {α : Type} {f : α → Build Wire} {r : α → List Wire} {m : Nat}
    (hf : ∀ a c c' w, c.WellFormed → (∀ w ∈ D, c.Allocated w) → (∀ x ∈ r a, c.Within cost D n x) →
      (f a).exec c = (.ok w, c') → c.Evolves ∅ c' ∧ c'.Within cost D m w) :
    ∀ {l : List α} {c c' : Circuit} {ws : Bundle}, c.WellFormed → (∀ w ∈ D, c.Allocated w) →
    (∀ a ∈ l, ∀ x ∈ r a, c.Within cost D n x) → (l.mapM f).exec c = (.ok ws, c') →
    c.Evolves ∅ c' ∧ ∀ w ∈ ws, c'.Within cost D m w
  | [], c, c', ws, hc, _, _, h => by
    rw [List.mapM_nil] at h
    obtain ⟨rfl, rfl⟩ := exec_pure_eq_ok.mp h
    exact ⟨.refl hc ∅, by simp⟩
  | a :: l, c, c', ws, hc, hD, hr, h => by
    obtain ⟨ha, hl⟩ := List.forall_mem_cons.mp hr
    rw [List.mapM_cons] at h
    obtain ⟨w, c₁, hw, h⟩ := exec_bind_eq_ok.mp h
    obtain ⟨ws', c₂, hws, h⟩ := exec_bind_eq_ok.mp h
    obtain ⟨rfl, rfl⟩ := exec_pure_eq_ok.mp h
    obtain ⟨hev, hwithin⟩ := hf a c c₁ w hc hD ha hw
    obtain ⟨hev', hrest⟩ := mapM_within hf hev.wellFormed (hev.all_allocated hD)
      (fun b hb x hx => (hl b hb x hx).evolves hev (Set.empty_subset D)) hws
    exact ⟨hev.trans_same hev',
      List.forall_mem_cons.mpr ⟨hwithin.evolves hev' (Set.empty_subset D), hrest⟩⟩

theorem mapM_gate_within {l : List (Wire × Wire)} {ws : Bundle} (hcost : CountsGates cost)
    (hc : c.WellFormed) (hD : ∀ w ∈ D, c.Allocated w)
    (hl : ∀ q ∈ l, c.Within cost D n q.1 ∧ c.Within cost D n q.2)
    (h : (l.mapM fun (x, y) => gate kind x y).exec c = (.ok ws, c')) :
    c.Evolves ∅ c' ∧ ∀ w ∈ ws, c'.Within cost D (n + cost kind) w := by
  refine mapM_within (n := n) (r := fun q => [q.1, q.2]) (fun q c c' w hc hD hq h => ?_) hc hD
    (fun q hq x hx => ?_) h
  · exact gate_within hcost hc hD (hq q.1 (by simp)) (hq q.2 (by simp)) h
  · rcases List.mem_pair.mp hx with rfl | rfl
    · exact (hl q hq).1
    · exact (hl q hq).2

theorem mapM_inv_within {b ws : Bundle} (hc : c.WellFormed) (hD : ∀ w ∈ D, c.Allocated w)
    (hb : ∀ w ∈ b, c.Within cost D n w) (h : (b.mapM inv).exec c = (.ok ws, c')) :
    c.Evolves ∅ c' ∧ ∀ w ∈ ws, c'.Within cost D (n + cost .inv) w := by
  refine mapM_within (n := n) (r := fun x => [x]) (fun x c c' w hc hD hx h => ?_) hc hD (fun x hx y hy => ?_) h
  · exact inv_within hc hD (hx x (by simp)) h
  · rw [List.mem_singleton.mp hy]
    exact hb x hx

/-- Gates to wires in `D` keep all of them low. -/
theorem forM_gateTo_shallow {m : Nat} (hcost : CountsGates cost) (hm : n + cost kind ≤ m) :
    ∀ {l : List ((Wire × Wire) × Wire)} {c c' : Circuit} {u : Unit}, c.WellFormed →
    (∀ q ∈ l, q.2 ∈ D) → (∀ q ∈ l, c.Within cost D n q.1.1 ∧ c.Within cost D n q.1.2) →
    c.Shallow cost D m → (l.forM fun ((x, y), out) => gateTo kind x y out).exec c = (.ok u, c') →
    c'.Shallow cost D m
  | [], c, c', u, _, _, _, hlow, h => by
    obtain ⟨-, rfl⟩ := exec_pure_eq_ok.mp h
    exact hlow
  | ((x, y), out) :: l, c, c', u, hc, hD, hl, hlow, h => by
    obtain ⟨hout, hDl⟩ := List.forall_mem_cons.mp hD
    obtain ⟨⟨hx, hy⟩, hrest⟩ := List.forall_mem_cons.mp hl
    rw [List.forM_eq_forM, List.forM_cons] at h
    obtain ⟨u₁, c₁, hgate, h⟩ := exec_bind_eq_ok.mp h
    have hev := (gateTo_spec hc hgate).toEvolves
    have hlevel := gateTo_level hcost hc hx.level_le hy.level_le hgate
    have hsub : {out} ⊆ D := Set.singleton_subset_iff.mpr hout
    exact forM_gateTo_shallow hcost hm hev.wellFormed hDl
      (fun q hq => (hrest q hq).imp (·.evolves hev hsub) (·.evolves hev hsub))
      (hlow.drives hev (hlevel.trans hm)) h

end Build
end BitCircuit
