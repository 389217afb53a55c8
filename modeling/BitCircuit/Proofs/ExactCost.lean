/-
# Exact costs

Only constants are folded: a gate that reads none is appended as it is asked for
(`Build.gate_unfolded`, `Build.gateTo_unfolded`). So a wire that such a gate drives is no constant
either, and its level is exactly the cost of the gate above the higher of the wires that were read.

Steps are followed by what they append (`Circuit.Appends`): gates of some total cost, which drive
new wires and others that were blank (`Circuit.Blank`). Then every wire that had one stays at its level
(`Circuit.AtLevel.appends`), and the costs of steps in a row add up (`Circuit.Appends.trans`). If all
wires of the result end at one level, that is the depth of the circuit
(`Circuit.depthBy_of_atLevel`).

Key definitions: `Circuit.AtLevel`, `Circuit.weight`, `Circuit.Appends`, `Circuit.Blank`.

Key theorems: `Build.gate_appends`, `Build.gateTo_appends`, `Build.mapM_gate_appends`,
`Build.forM_appends`, `Circuit.depthBy_of_atLevel`.
-/
import BitCircuit.Proofs.Finished
import BitCircuit.Proofs.Level
import BitCircuit.Proofs.NonlinearCount

namespace BitCircuit

variable {cost : GateKind → Nat}

namespace Circuit

variable {c c' : Circuit} {D : Set Wire} {w : Wire} {n : Nat}

/-- The wire has a value, which is no constant, and exactly `n` is counted on the way to it. -/
structure AtLevel (c : Circuit) (cost : GateKind → Nat) (n : Nat) (w : Wire) : Prop where
  readable : c.Readable w
  unfixed : c.constantValue? w = none
  level_eq : c.level cost w = n

/-- Inputs are at level zero. -/
theorem atLevel_input (hc : c.WellFormed) (hw : c.state? w = some .input) : c.AtLevel cost 0 w := by
  have hgiven : c.Given w := .inl hw
  refine ⟨hgiven.readable, ?_, level_given hc hgiven⟩
  simp [constantValue?, hw]

/-- The wires of registered inputs are. -/
theorem Registers.atLevel {ins outs : List Bundle} {b : Bundle} (h : c.Registers ins outs) (hb : b ∈ ins) :
    ∀ w ∈ b, c.AtLevel cost 0 w := by
  intro w hw
  refine atLevel_input h.wellFormed ((h.wellFormed.input_iff w).mpr ?_)
  rw [h.inputs]
  exact List.mem_flatten.mpr ⟨b, hb, hw⟩

/-- A wire that is not driven again stays at its level. -/
theorem AtLevel.evolves (h : c.AtLevel cost n w) (hev : c.Evolves D c') (hw : w ∉ D) :
    c'.AtLevel cost n w := by
  have ha : c.Allocated w := h.readable.allocated
  refine ⟨hev.readable h.readable, hev.grows.constantValue? ha h.unfixed, ?_⟩
  rw [hev.level_eq ha hw]
  exact h.level_eq

/-- What a gate drives that was appended as it is. -/
theorem atLevel_pushGate {g : Gate} {m : Nat} (hout : c.Allocated g.out) (hx : c.level cost g.x = n)
    (hy : c.level cost g.y = m) : (c.pushGate g).AtLevel cost (max n m + cost g.kind) g.out := by
  have hs : (c.pushGate g).state? g.out = some .driven := by
    rw [state?_pushGate hout, if_pos rfl]
  refine ⟨readable_iff.mpr ⟨_, hs, by simp⟩, ?_, ?_⟩
  · simp [constantValue?, hs]
  · rw [level_pushGate, if_pos rfl, hx, hy]

/-! ### What steps append -/

/-- The cost of all gates. -/
def weight (c : Circuit) (cost : GateKind → Nat) : Nat :=
  (c.gates.toList.map fun g => cost g.kind).sum

theorem weight_pushGate (g : Gate) : (c.pushGate g).weight cost = c.weight cost + cost g.kind := by
  have hgates : (c.pushGate g).gates.toList = c.gates.toList ++ [g] := by simp [pushGate]
  unfold weight
  rw [hgates, List.map_append, List.sum_append, List.map_singleton, List.sum_singleton]

/-- The gates of one kind are counted by the cost that counts them. -/
theorem weight_eq_countKind (c : Circuit) (kind : GateKind) :
    c.weight (fun k => if k = kind then 1 else 0) = c.countKind kind := by
  unfold weight countKind
  rw [← Array.countP_toList]
  induction c.gates.toList with
  | nil => rfl
  | cons g gs ih =>
    rw [List.map_cons, List.sum_cons, List.countP_cons, ih, Nat.add_comm]
    simp

/-- The circuit has grown by gates that cost `k` in all. They drive new wires and those in `D`, none of
which had a value, and make no constants. -/
structure Appends (c : Circuit) (cost : GateKind → Nat) (D : Set Wire) (k : Nat) (c' : Circuit) :
    Prop extends c.Evolves D c' where
  blank : ∀ w ∈ D, ¬ c.Readable w
  constantFree : c.ConstantFree → c'.ConstantFree
  weight_eq : c'.weight cost = c.weight cost + k

namespace Appends

variable {c₁ : Circuit} {D' : Set Wire} {k m : Nat}

theorem refl (hc : c.WellFormed) : c.Appends cost ∅ 0 c :=
  ⟨.refl hc ∅, by simp, id, rfl⟩

/-- The costs of steps in a row add up. -/
theorem trans (h : c.Appends cost D k c₁) (h' : c₁.Appends cost D' m c') :
    c.Appends cost (D ∪ D') (k + m) c' := by
  refine ⟨(h.toEvolves.mono Set.subset_union_left).trans_same (h'.toEvolves.mono Set.subset_union_right),
    ?_, fun hfree => h'.constantFree (h.constantFree hfree), ?_⟩
  · rintro w (hw | hw)
    · exact h.blank w hw
    · exact fun hr => h'.blank w hw (h.readable hr)
  · rw [h'.weight_eq, h.weight_eq, Nat.add_assoc]

/-- A step after gates on new wires drives no more than it does alone. -/
theorem after (h : c.Appends cost ∅ k c₁) (h' : c₁.Appends cost D m c') :
    c.Appends cost D (k + m) c' := by
  have hall := h.trans h'
  rwa [Set.empty_union] at hall

/-- Wires that the circuit did not have need not be named. -/
theorem narrow (h : c.Appends cost D k c') (hc : c.WellFormed) (hD' : D' ⊆ D)
    (hD : ∀ w ∈ D, w ∈ D' ∨ ¬ c.Allocated w) : c.Appends cost D' k c' :=
  ⟨(Evolves.refl hc D').trans h.toEvolves hD, fun w hw => h.blank w (hD' hw), h.constantFree,
    h.weight_eq⟩

/-- A wire without a value that is not driven has none afterwards. -/
theorem undriven (h : c.Appends cost D k c') (hc : c.WellFormed) (hw : c.state? w = some .undriven)
    (hD : w ∉ D) : c'.state? w = some .undriven := by
  rcases h.state w _ hw with hs | ⟨-, hs⟩
  · exact hs
  · obtain ⟨g, hg, rfl⟩ := (h.wellFormed.driven_iff w).mp hs
    obtain ⟨new, hnew, hout⟩ := h.gates
    rw [hnew] at hg
    rcases List.mem_append.mp hg with hg | hg
    · rw [(hc.driven_iff _).mpr ⟨g, hg, rfl⟩] at hw
      cases hw
    · rcases hout g hg with hm | hm
      · exact absurd hm hD
      · exact absurd (allocated_iff.mpr ⟨_, hw⟩) hm

/-- Bundles that were made for the steps that drive them need not be named. -/
theorem spawned {b : Bundle} (h : c.Appends cost ∅ 0 c₁) (hc : c.WellFormed)
    (hfresh : ∀ w ∈ b, ¬ c.Allocated w) (h' : c₁.Appends cost {w | w ∈ b} k c') :
    c.Appends cost ∅ k c' := by
  have hall := h.after h'
  rw [Nat.zero_add] at hall
  exact hall.narrow hc (Set.empty_subset _) fun w hw => .inr (hfresh w hw)

end Appends

/-- Distinct wires that no gate has driven yet. -/
structure Blank (c : Circuit) (b : Bundle) : Prop where
  nodup : b.Nodup
  undriven : ∀ w ∈ b, c.state? w = some .undriven

namespace Blank

variable {b b' : Bundle} {k : Nat}

theorem sublist (h : c.Blank b) (hs : b'.Sublist b) : c.Blank b' :=
  ⟨h.nodup.sublist hs, fun w hw => h.undriven w (hs.subset hw)⟩

theorem reverse (h : c.Blank b) : c.Blank b.reverse :=
  ⟨List.nodup_reverse.mpr h.nodup, fun w hw => h.undriven w (List.mem_reverse.mp hw)⟩

/-- Wires stay blank while others are driven. -/
theorem appends (h : c.Blank b) (hc : c.WellFormed) (h' : c.Appends cost D k c')
    (hD : ∀ w ∈ b, w ∉ D) : c'.Blank b :=
  ⟨h.nodup, fun w hw => h'.undriven hc (h.undriven w hw) (hD w hw)⟩

theorem appends_empty (h : c.Blank b) (hc : c.WellFormed) (h' : c.Appends cost ∅ k c') : c'.Blank b :=
  h.appends hc h' fun w _ => Set.notMem_empty w

end Blank

/-- **A wire that has a value stays at its level.** -/
theorem AtLevel.appends {k : Nat} (h : c.AtLevel cost n w) (h' : c.Appends cost D k c') :
    c'.AtLevel cost n w :=
  h.evolves h'.toEvolves fun hw => h'.blank w hw h.readable

/-- The same of all wires of a bundle. -/
theorem Appends.atLevel {b : Bundle} {k : Nat} (h : c.Appends cost D k c')
    (hb : ∀ w ∈ b, c.AtLevel cost n w) : ∀ w ∈ b, c'.AtLevel cost n w :=
  fun w hw => (hb w hw).appends h

/-! ### The depth of a circuit -/

/-- An output wire at a level contributes that level. -/
theorem driverDepth_of_atLevel (hc : c.WellFormed) (hw : c.AtLevel cost n w) :
    c.driverDepth (levels cost c.gates.toList) w = n := by
  unfold driverDepth
  by_cases hd : c.state? w = some .driven
  · rw [if_pos hd]
    exact hw.level_eq
  · rw [if_neg hd, ← hw.level_eq, level_eq_zero hc hd]

/-- **The depth is the level that all outputs have.** -/
theorem depthBy_of_atLevel {b : Bundle} (hc : c.WellFormed) (houtputs : c.outputs = [b]) (hne : b ≠ [])
    (hb : ∀ w ∈ b, c.AtLevel cost n w) : c.depthBy cost = .ok n := by
  have hall : ∀ k ∈ b.map (c.driverDepth (levels cost c.gates.toList)), k = n := by
    intro k hk
    obtain ⟨w, hw, rfl⟩ := List.mem_map.mp hk
    exact driverDepth_of_atLevel hc (hb w hw)
  obtain ⟨hmem, hle⟩ := isGreatest_foldl_max (b.map (c.driverDepth (levels cost c.gates.toList))) 0
  rw [depthBy_eq hc cost, houtputs, if_neg (by simp), List.flatten_singleton]
  rcases hmem with hzero | hmem
  · -- nothing is above zero, so the outputs are at level zero
    obtain ⟨w, hw⟩ := List.exists_mem_of_ne_nil b hne
    have hmax := hle (.inr (List.mem_map_of_mem hw))
    rw [driverDepth_of_atLevel hc (hb w hw), hzero] at hmax
    rw [hzero, Nat.le_zero.mp hmax]
  · rw [hall _ hmem]

/-- The statistics report the two depths and the numbers of gates. -/
theorem stats_of_depths {d k : Nat} (hd : c.depthBy GateKind.depthCost = .ok d)
    (hk : c.depthBy GateKind.nonlinearCost = .ok k) :
    ∃ s, c.stats = .ok s ∧ s.depth = d ∧ s.nonlinearDepth = k ∧ s.count = c.countKind := by
  unfold stats
  rw [hd, hk]
  exact ⟨_, rfl, rfl, rfl, rfl⟩

end Circuit

namespace Build

variable {c c' : Circuit} {kind : GateKind} {x y w out : Wire} {n m : Nat} {u : Unit}

/-! ### Gates -/

/-- **A gate costs what it does and is exactly so far above the wires it reads**, if none of them is a
constant. -/
theorem gate_appends (hc : c.WellFormed) (hx : c.AtLevel cost n x) (hy : c.AtLevel cost m y)
    (h : (gate kind x y).exec c = (.ok w, c')) :
    c.Appends cost ∅ (cost kind) c' ∧ c'.AtLevel cost (max n m + cost kind) w := by
  have hev := (gate_spec hc h).toEvolves
  have hfree := fun hfree => ((spends_gate h).2.2 hfree).1
  obtain ⟨hgate, rfl, rfl⟩ := gate_unfolded hx.unfixed hy.unfixed h
  have hout := (Circuit.requireGate_eq_ok.mp hgate).2.2.allocated
  refine ⟨⟨hev, by simp, hfree, Circuit.weight_pushGate _⟩, ?_⟩
  exact Circuit.atLevel_pushGate (g := ⟨kind, x, y, c.nextWire⟩) hout hx.level_eq hy.level_eq

/-- The same of a gate that drives a given wire. -/
theorem gateTo_appends (hc : c.WellFormed) (hx : c.AtLevel cost n x) (hy : c.AtLevel cost m y)
    (hout : c.state? out = some .undriven) (h : (gateTo kind x y out).exec c = (.ok u, c')) :
    c.Appends cost {out} (cost kind) c' ∧ c'.AtLevel cost (max n m + cost kind) out := by
  have hev := (gateTo_spec hc h).toEvolves
  obtain ⟨hgate, rfl⟩ := gateTo_unfolded hx.unfixed hy.unfixed h
  have halloc := (Circuit.requireGate_eq_ok.mp hgate).2.2.allocated
  refine ⟨⟨hev, ?_, fun hfree => hfree.pushGate halloc, Circuit.weight_pushGate _⟩, ?_⟩
  · rintro w rfl hr
    obtain ⟨s, hs, hne⟩ := Circuit.readable_iff.mp hr
    exact hne (Option.some.inj (hs.symm.trans hout))
  · exact Circuit.atLevel_pushGate (g := ⟨kind, x, y, out⟩) halloc hx.level_eq hy.level_eq

theorem invTo_atLevel (hx : c.AtLevel cost n x) (h : (invTo x out).exec c = (.ok u, c')) :
    c'.AtLevel cost (n + cost .inv) out := by
  obtain ⟨hgate, rfl⟩ := invTo_unfolded hx.unfixed h
  have hout := (Circuit.requireGate_eq_ok.mp hgate).2.2.allocated
  have hlevel := Circuit.atLevel_pushGate (g := ⟨.inv, x, x, out⟩) hout hx.level_eq hx.level_eq
  rwa [Nat.max_self] at hlevel

/-- A copy costs nothing, also if the wire is there already. -/
theorem copyTo_atLevel (hcost : cost .copy = 0) (hx : c.AtLevel cost n x)
    (h : (copyTo x out).exec c = (.ok u, c')) : c'.AtLevel cost n out := by
  unfold copyTo at h
  split at h
  · rename_i he
    obtain ⟨-, h⟩ := exec_requireReadable_bind.mp h
    obtain ⟨-, rfl⟩ := exec_requireWritable_eq_ok.mp h
    exact he ▸ hx
  · obtain ⟨hgate, rfl⟩ := exec_drive_eq_ok.mp h
    have hout := (Circuit.requireGate_eq_ok.mp hgate).2.2.allocated
    have hlevel := Circuit.atLevel_pushGate (g := ⟨.copy, x, x, out⟩) hout hx.level_eq hx.level_eq
    rwa [Nat.max_self, hcost, Nat.add_zero] at hlevel

/-! ### Many gates -/

/-- Gates on pairs of wires. -/
theorem mapM_gate_appends : ∀ {l : List (Wire × Wire)} {c c' : Circuit} {ws : Bundle}, c.WellFormed →
    (∀ q ∈ l, c.AtLevel cost n q.1 ∧ c.AtLevel cost m q.2) →
    (l.mapM fun (x, y) => gate kind x y).exec c = (.ok ws, c') →
    c.Appends cost ∅ (l.length * cost kind) c' ∧
      ∀ w ∈ ws, c'.AtLevel cost (max n m + cost kind) w
  | [], c, c', ws, hc, _, h => by
    rw [List.mapM_nil] at h
    obtain ⟨rfl, rfl⟩ := exec_pure_eq_ok.mp h
    rw [List.length_nil, Nat.zero_mul]
    exact ⟨.refl hc, by simp⟩
  | (x, y) :: l, c, c', ws, hc, hl, h => by
    obtain ⟨⟨hx, hy⟩, hrest⟩ := List.forall_mem_cons.mp hl
    rw [List.mapM_cons] at h
    obtain ⟨w, c₁, hw, h⟩ := exec_bind_eq_ok.mp h
    obtain ⟨ws', c₂, hws, h⟩ := exec_bind_eq_ok.mp h
    obtain ⟨rfl, rfl⟩ := exec_pure_eq_ok.mp h
    obtain ⟨happ, hlevel⟩ := gate_appends hc hx hy hw
    obtain ⟨happ', hlevels⟩ := mapM_gate_appends happ.wellFormed
      (fun q hq => (hrest q hq).imp (·.appends happ) (·.appends happ)) hws
    refine ⟨?_, List.forall_mem_cons.mpr ⟨hlevel.appends happ', hlevels⟩⟩
    rw [List.length_cons, Nat.succ_mul, Nat.add_comm]
    exact happ.after happ'

/-- One step for each entry of a list, each driving a bundle of its own. What the steps read (`P`) has a
value, so it stays as it is. -/
theorem forM_appends {ι : Type} {f : ι → Build Unit} {B : ι → Bundle} {P : Circuit → Prop} {k : Nat}
    (hP : ∀ {c c' : Circuit} {D : Set Wire} {k : Nat}, c.Appends cost D k c' → P c → P c')
    {js : List ι} (hf : ∀ j ∈ js, ∀ (c c' : Circuit) (u : Unit), c.WellFormed → P c → c.Blank (B j) →
      (f j).exec c = (.ok u, c') →
      c.Appends cost {w | w ∈ B j} k c' ∧ ∀ w ∈ B j, c'.AtLevel cost n w)
    {c c' : Circuit} {u : Unit} (hc : c.WellFormed) (hPc : P c) (hblank : c.Blank (js.flatMap B))
    (h : (js.forM f).exec c = (.ok u, c')) :
    c.Appends cost {w | w ∈ js.flatMap B} (js.length * k) c' ∧
      ∀ w ∈ js.flatMap B, c'.AtLevel cost n w := by
  induction js generalizing c with
  | nil =>
    obtain ⟨-, rfl⟩ := exec_pure_eq_ok.mp h
    rw [List.length_nil, Nat.zero_mul]
    exact ⟨by simpa using .refl hc, by simp⟩
  | cons j js ih =>
    rw [List.flatMap_cons] at hblank ⊢
    have hdisj := (List.nodup_append.mp hblank.nodup).2.2
    rw [List.forM_eq_forM, List.forM_cons] at h
    obtain ⟨u₁, c₁, hj, h⟩ := exec_bind_eq_ok.mp h
    obtain ⟨happ, hlevel⟩ := hf j List.mem_cons_self c c₁ u₁ hc hPc
      (hblank.sublist (List.sublist_append_left _ _)) hj
    have hblanks : c₁.Blank (js.flatMap B) :=
      (hblank.sublist (List.sublist_append_right _ _)).appends hc happ fun w hw hm => hdisj w hm w hw rfl
    obtain ⟨happ', hlevels⟩ := ih (fun j hj => hf j (List.mem_cons_of_mem _ hj)) happ.wellFormed
      (hP happ hPc) hblanks h
    constructor
    · have hall := happ.trans happ'
      rw [List.length_cons, Nat.succ_mul, Nat.add_comm]
      simpa [Set.union_def] using hall
    · exact List.forall_mem_append.mpr ⟨fun w hw => (hlevel w hw).appends happ', hlevels⟩

/-- One step for each wire of a bundle, all of them free. -/
theorem forM_inStep_appends {ι : Type} {f : ι × Wire → Build Unit} {P : Circuit → Prop} {xs : List ι}
    {out : Bundle} {l : List (ι × Wire)} (hl : inStep xs out = .ok l)
    (hP : ∀ {c c' : Circuit} {D : Set Wire} {k : Nat}, c.Appends cost D k c' → P c → P c')
    (hf : ∀ q ∈ l, ∀ (c c' : Circuit) (u : Unit), c.WellFormed → P c →
      c.state? q.2 = some .undriven → (f q).exec c = (.ok u, c') →
      c.Appends cost {q.2} 0 c' ∧ c'.AtLevel cost n q.2)
    {c c' : Circuit} {u : Unit} (hc : c.WellFormed) (hPc : P c) (hblank : c.Blank out)
    (h : (l.forM f).exec c = (.ok u, c')) :
    c.Appends cost {w | w ∈ out} 0 c' ∧ ∀ w ∈ out, c'.AtLevel cost n w := by
  obtain ⟨hlen, rfl⟩ := inStep_eq_ok.mp hl
  have hout : (xs.zip out).flatMap (fun q => [q.2]) = out := by
    rw [← List.map_eq_flatMap, List.map_snd_zip hlen.ge]
  have hall := forM_appends (B := fun q => [q.2]) (n := n) (k := 0) hP (fun q hq c c' u hc hPc hb hq' => ?_)
    hc hPc (hout.symm ▸ hblank) h
  · rwa [hout, Nat.mul_zero] at hall
  · obtain ⟨happ, hlevel⟩ := hf q hq c c' u hc hPc (hb.undriven _ List.mem_cons_self) hq'
    exact ⟨by simpa using happ, by simpa using hlevel⟩

/-- A new bundle is blank. -/
theorem newBundle_appends {b : Bundle} (hc : c.WellFormed) (h : (newBundle n).exec c = (.ok b, c')) :
    c.Appends cost ∅ 0 c' ∧ c'.Blank b ∧ b.length = n ∧ ∀ w ∈ b, ¬ c.Allocated w := by
  obtain ⟨hspawns, hlen⟩ := newBundle_spec hc h
  obtain ⟨-, rfl, rfl⟩ := Circuit.newBundle_eq_ok h
  refine ⟨⟨hspawns.toEvolves, by simp, fun hfree => hfree.addWires (by simp), rfl⟩,
    ⟨hspawns.nodup, fun w hw => ?_⟩, hlen, hspawns.fresh⟩
  rw [Circuit.state?_addWires, if_pos hw]

end Build
end BitCircuit
