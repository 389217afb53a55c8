/-
# The nonlinear cost of AES

No wire of a circuit of the cipher is a constant, so each of its gates is there and counts. The only
conjunctions are those of the substitution, 34 for a byte, and every bit of a substitute is exactly four
of them above the bits of the byte: the network is run on the levels of its signals (`network_andLevel`).
Sums change neither count nor level, so the 128 wires of the state stay at one level through the rows, the
columns and the round keys, and every round takes all of them four levels up (`Build.innerRound_appends`).

Key definitions: `GateKind.SumsFree`, `Aes.andLevel`.

Key theorems: `Aes.network_andLevel`, `Build.substituteByte_appends`, `Build.mixColumns_appends`,
`Build.encrypt_appends`, `aes_circuits_count_conjunctions`.
-/
import BitCircuit.Proofs.Aes.Cipher
import BitCircuit.Proofs.Aes.Discipline
import BitCircuit.Proofs.ExactCost
import BitCircuit.Proofs.Feasibility

namespace BitCircuit

/-- Sums cost nothing, whether complemented or not. -/
structure GateKind.SumsFree (cost : GateKind → Nat) : Prop where
  xor : cost .xor = 0
  nxor : cost .nxor = 0

namespace Aes

variable {cost : GateKind → Nat}

/-! ### The network on levels -/

/-- The level of a gate, from the levels of what it reads, if a conjunction costs `p` and nothing else
costs anything. -/
def andLevel (p : Nat) (kind : GateKind) (x y : Nat) : Nat :=
  max x y + if kind = .and then p else 0

/-- Levels in conjunctions, above a common level and at another price of a conjunction. -/
theorem andLevel_scale (p n : Nat) (kind : GateKind) (x y : Nat) :
    n + andLevel 1 kind x y * p = andLevel p kind (n + x * p) (n + y * p) := by
  have hmax : n + max x y * p = max (n + x * p) (n + y * p) := by
    rw [Nat.add_max_add_left, Nat.mul_max_mul_right]
  unfold andLevel
  by_cases hkind : kind = .and
  · rw [if_pos hkind, if_pos hkind, Nat.succ_mul, ← Nat.add_assoc, hmax]
  · rw [if_neg hkind, if_neg hkind, Nat.add_zero, Nat.add_zero, hmax]

/-- **Every output of the network is four conjunctions above its inputs.** -/
theorem network_andLevel (p n : Nat) :
    network (andLevel p) (List.replicate 8 n) = .ok (List.replicate 8 (n + 4 * p)) := by
  have hfour : network (andLevel 1) (List.replicate 8 0) = .ok (List.replicate 8 4) := by
    apply ok_of_toOption
    decide +kernel
  have hrun := network_map (fun k => n + k * p) (andLevel_scale p n) hfour
  simpa using hrun

theorem networkGates_kinds : ∀ g ∈ networkGates, g.kind = .xor ∨ g.kind = .and := by
  decide

theorem outputGates_kinds : ∀ q ∈ outputGates, q.1.kind = .xor ∨ q.1.kind = .nxor := by
  decide

/-- Sums and conjunctions cost what the conjunctions do. -/
theorem sum_cost (hcost : GateKind.SumsFree cost) {gs : List NetworkGate}
    (hkinds : ∀ g ∈ gs, g.kind = .xor ∨ g.kind = .and) :
    (gs.map fun g => cost g.kind).sum = gs.countP (fun g => g.kind = .and) * cost .and := by
  induction gs with
  | nil => simp
  | cons g gs ih =>
    obtain ⟨hg, hgs⟩ := List.forall_mem_cons.mp hkinds
    rw [List.map_cons, List.sum_cons, List.countP_cons, ih hgs, Nat.add_mul, Nat.add_comm]
    rcases hg with hg | hg
    · simp [hg, hcost.xor]
    · simp [hg]

end Aes

/-- Each wire is at the level in its place. -/
def Circuit.AtLevels (c : Circuit) (cost : GateKind → Nat) (ws : Bundle) (ks : List Nat) : Prop :=
  List.Forall₂ (fun w k => c.AtLevel cost k w) ws ks

theorem Circuit.AtLevels.appends {cost : GateKind → Nat} {c c' : Circuit} {D : Set Wire} {m : Nat}
    {ws : Bundle} {ks : List Nat} (h : c.AtLevels cost ws ks) (h' : c.Appends cost D m c') :
    c'.AtLevels cost ws ks :=
  List.Forall₂.imp (fun _ _ hk => hk.appends h') h

namespace Build

open Aes

variable {cost : GateKind → Nat} {c c' : Circuit} {n : Nat} {u : Unit} {a b out state : Bundle}
  {signals signals' : Array Wire} {levels levels' : Array Nat}

/-! ### The network in a circuit -/

theorem atLevel_entry {i k : Nat} {w : Wire} (hs : c.AtLevels cost signals.toList levels.toList)
    (hw : entry signals i = .ok w) (hk : entry levels i = .ok k) : c.AtLevel cost k w := by
  obtain ⟨hi, rfl⟩ := List.getElem?_eq_some_iff.mp (entry_eq_ok.mp hw)
  obtain ⟨hi', rfl⟩ := List.getElem?_eq_some_iff.mp (entry_eq_ok.mp hk)
  exact List.Forall₂.get hs hi hi'

theorem addSignal_appends {op : GateKind → Nat → Nat → Nat} {g : NetworkGate}
    (hop : ∀ x y, op g.kind x y = max x y + cost g.kind) (hc : c.WellFormed)
    (hs : c.AtLevels cost signals.toList levels.toList) (hadd : addValue op levels g = .ok levels')
    (h : (addSignal signals g).exec c = (.ok signals', c')) :
    c.Appends cost ∅ (cost g.kind) c' ∧ c'.AtLevels cost signals'.toList levels'.toList := by
  obtain ⟨v, hv, rfl⟩ := addValue_eq_ok.mp hadd
  obtain ⟨j, k, hj, hk, rfl⟩ := value_eq_ok.mp hv
  unfold addSignal at h
  obtain ⟨x, hx, h⟩ := exec_check_bind.mp h
  obtain ⟨y, hy, h⟩ := exec_check_bind.mp h
  obtain ⟨w, c₁, hw, h⟩ := exec_bind_eq_ok.mp h
  obtain ⟨rfl, rfl⟩ := exec_pure_eq_ok.mp h
  obtain ⟨happ, hlevel⟩ := gate_appends hc (atLevel_entry hs hx hj) (atLevel_entry hs hy hk) hw
  refine ⟨happ, ?_⟩
  rw [Array.toList_push, Array.toList_push, hop]
  exact List.rel_append (hs.appends happ) (.cons hlevel .nil)

/-- The gates of a circuit follow the run on levels. -/
theorem foldlM_addSignal_appends {op : GateKind → Nat → Nat → Nat} : ∀ {gs : List NetworkGate}
    {signals signals' : Array Wire} {levels levels' : Array Nat} {c : Circuit},
    (∀ g ∈ gs, ∀ x y, op g.kind x y = max x y + cost g.kind) → c.WellFormed →
    c.AtLevels cost signals.toList levels.toList → gs.foldlM (addValue op) levels = .ok levels' →
    (gs.foldlM addSignal signals).exec c = (.ok signals', c') →
    c.Appends cost ∅ (gs.map fun g => cost g.kind).sum c' ∧
      c'.AtLevels cost signals'.toList levels'.toList
  | [], signals, signals', levels, levels', c, _, hc, hs, hrun, h => by
    cases hrun
    obtain ⟨rfl, rfl⟩ := exec_pure_eq_ok.mp h
    exact ⟨.refl hc, hs⟩
  | g :: gs, signals, signals', levels, levels', c, hop, hc, hs, hrun, h => by
    obtain ⟨hg, hgs⟩ := List.forall_mem_cons.mp hop
    rw [List.foldlM_cons] at hrun h
    obtain ⟨levels₁, hadd, hrun⟩ := bind_eq_ok.mp hrun
    obtain ⟨signals₁, c₁, hsignal, h⟩ := exec_bind_eq_ok.mp h
    obtain ⟨happ, hs₁⟩ := addSignal_appends hg hc hs hadd hsignal
    obtain ⟨happ', hs'⟩ := foldlM_addSignal_appends hgs happ.wellFormed hs₁ hrun h
    rw [List.map_cons, List.sum_cons]
    exact ⟨happ.after happ', hs'⟩

theorem levels_byteAt {byte : Bundle} {j : Nat} (hstate : ∀ w ∈ state, c.AtLevel cost n w)
    (h : byteAt state j = .ok byte) : ∀ w ∈ byte, c.AtLevel cost n w :=
  fun w hw => hstate w (mem_of_slice h w hw)

section

variable (hcost : GateKind.SumsFree cost)
include hcost

/-- The gates before the output: 34 conjunctions, after which the output is four of them up. -/
theorem networkGates_appends (hc : c.WellFormed) (hlen : a.length = 8)
    (ha : ∀ w ∈ a, c.AtLevel cost n w)
    (h : (networkGates.foldlM addSignal a.reverse.toArray).exec c = (.ok signals, c')) :
    c.Appends cost ∅ (34 * cost .and) c' ∧
      ∃ levels : Array Nat, c'.AtLevels cost signals.toList levels.toList ∧
        ∀ q ∈ outputGates, q.1.value (andLevel (cost .and)) levels = .ok (n + 4 * cost .and) := by
  obtain ⟨levels, hlevels, houts⟩ := bind_eq_ok.mp (network_andLevel (cost .and) n)
  obtain ⟨level, hlevel, heq⟩ := exists_of_mapM_eq_ok houts
  have hop : ∀ g ∈ networkGates, ∀ x y, andLevel (cost .and) g.kind x y = max x y + cost g.kind := by
    intro g hg x y
    rcases networkGates_kinds g hg with hk | hk
    · simp [andLevel, hk, hcost.xor]
    · simp [andLevel, hk]
  have hstart : c.AtLevels cost a.reverse (List.replicate 8 n).reverse := by
    unfold Circuit.AtLevels
    rw [List.forall₂_reverse_iff, ← hlen, ← List.map_const', List.forall₂_map_right_iff]
    exact List.forall₂_same.mpr ha
  have hcount : networkGates.countP (fun g => g.kind = .and) = 34 := by decide
  obtain ⟨happ, hs⟩ := foldlM_addSignal_appends hop hc hstart hlevels h
  rw [sum_cost hcost networkGates_kinds, hcount] at happ
  refine ⟨happ, levels, hs, fun q hq => ?_⟩
  have hmem : level q ∈ List.replicate 8 (n + 4 * cost .and) := heq ▸ List.mem_map_of_mem hq
  rw [← List.eq_of_mem_replicate hmem]
  exact hlevel q hq

/-- A gate of the output, which drives a given wire. -/
theorem outputGate_appends {q : NetworkGate × Nat} {o : Wire} {k : Nat} (hq : q ∈ outputGates)
    (hs : c.AtLevels cost signals.toList levels.toList)
    (hlevel : q.1.value (andLevel (cost .and)) levels = .ok k) (ho : out.wireAt q.2 = .ok o)
    (hblank : c.state? o = some .undriven) (hc : c.WellFormed)
    (h : (do
      let x ← entry signals q.1.x
      let y ← entry signals q.1.y
      gateTo q.1.kind x y (← out.wireAt q.2) : Build Unit).exec c = (.ok u, c')) :
    c.Appends cost {o} 0 c' ∧ c'.AtLevel cost k o := by
  obtain ⟨x, hx, h⟩ := exec_check_bind.mp h
  obtain ⟨y, hy, h⟩ := exec_check_bind.mp h
  obtain ⟨o', ho', h⟩ := exec_check_bind.mp h
  obtain rfl : o = o' := Except.ok.inj (ho.symm.trans ho')
  obtain ⟨i, j, hi, hj, rfl⟩ := value_eq_ok.mp hlevel
  obtain ⟨happ, hgate⟩ := gateTo_appends hc (atLevel_entry hs hx hi) (atLevel_entry hs hy hj) hblank h
  have hfree : cost q.1.kind = 0 ∧ andLevel (cost .and) q.1.kind i j = max i j := by
    rcases outputGates_kinds q hq with hk | hk
    · exact hk ▸ ⟨hcost.xor, rfl⟩
    · exact hk ▸ ⟨hcost.nxor, rfl⟩
  rw [hfree.1] at happ hgate
  rw [hfree.2]
  exact ⟨happ, hgate⟩

/-- **Substituting a byte takes 34 conjunctions**, and the substitute is four of them above the byte. -/
theorem substituteByte_appends (hc : c.WellFormed) (ha : ∀ w ∈ a, c.AtLevel cost n w)
    (hout : c.Blank out) (h : (substituteByte a out).exec c = (.ok u, c')) :
    c.Appends cost {w | w ∈ out} (34 * cost .and) c' ∧
      ∀ w ∈ out, c'.AtLevel cost (n + 4 * cost .and) w := by
  unfold substituteByte at h
  obtain ⟨u₁, halen, h⟩ := exec_check_bind.mp h
  obtain ⟨u₂, holen, h⟩ := exec_check_bind.mp h
  obtain ⟨-, -, h⟩ := exec_check_bind.mp h
  obtain ⟨signals, c₁, hsignals, h⟩ := exec_bind_eq_ok.mp h
  obtain ⟨wire, hwire, hwires⟩ := map_outputGates (requireWidth_eq_ok.mp holen)
  obtain ⟨happ, levels, hs, hlevel⟩ :=
    networkGates_appends hcost hc (requireWidth_eq_ok.mp halen) ha hsignals
  have hblank : c₁.Blank (outputGates.flatMap fun q => [wire q]) := by
    rw [← List.map_eq_flatMap, hwires]
    exact (hout.appends_empty hc happ).reverse
  have hlast := forM_appends (B := fun q => [wire q]) (n := n + 4 * cost .and) (k := 0)
    (P := fun c => c.AtLevels cost signals.toList levels.toList) (fun happ hs => hs.appends happ)
    (fun q hq c c' u hc hs hb hq' => ?_) happ.wellFormed hs hblank h
  · rw [Nat.mul_zero, ← List.map_eq_flatMap, hwires] at hlast
    refine ⟨?_, fun w hw => hlast.2 w (List.mem_reverse.mpr hw)⟩
    simpa using happ.after hlast.1
  · obtain ⟨happ, hgate⟩ := outputGate_appends hcost hq hs (hlevel q hq) (hwire q hq)
      (hb.undriven _ List.mem_cons_self) hc hq'
    exact ⟨by simpa using happ, by simpa using hgate⟩

/-! ### Mixed columns -/

theorem xorBundles_appends {m : Nat} {ws : Bundle} (hc : c.WellFormed) (ha : ∀ w ∈ a, c.AtLevel cost n w)
    (hb : ∀ w ∈ b, c.AtLevel cost m w) (h : (xorBundles a b).exec c = (.ok ws, c')) :
    c.Appends cost ∅ 0 c' ∧ ∀ w ∈ ws, c'.AtLevel cost (max n m) w := by
  unfold xorBundles at h
  obtain ⟨l, hl, h⟩ := exec_check_bind.mp h
  have hpairs : ∀ q ∈ l, c.AtLevel cost n q.1 ∧ c.AtLevel cost m q.2 := fun q hq =>
    (mem_of_inStep hl q hq).imp (ha q.1) (hb q.2)
  have hall := mapM_gate_appends hc hpairs h
  rwa [hcost.xor, Nat.mul_zero, Nat.add_zero] at hall

/-- Sums of wires at one level stay at it. -/
theorem xorLevel_appends {ws : Bundle} (hc : c.WellFormed) (ha : ∀ w ∈ a, c.AtLevel cost n w)
    (hb : ∀ w ∈ b, c.AtLevel cost n w) (h : (xorBundles a b).exec c = (.ok ws, c')) :
    c.Appends cost ∅ 0 c' ∧ ∀ w ∈ ws, c'.AtLevel cost n w := by
  have hall := xorBundles_appends hcost hc ha hb h
  rwa [Nat.max_self] at hall

theorem xorGate_appends {x y w : Wire} (hc : c.WellFormed) (hx : c.AtLevel cost n x)
    (hy : c.AtLevel cost n y) (h : (gate .xor x y).exec c = (.ok w, c')) :
    c.Appends cost ∅ 0 c' ∧ c'.AtLevel cost n w := by
  have hall := gate_appends hc hx hy h
  rwa [hcost.xor, Nat.max_self, Nat.add_zero] at hall

theorem doubleByte_appends {ws : Bundle} (hc : c.WellFormed) (ha : ∀ w ∈ a, c.AtLevel cost n w)
    (h : (doubleByte a).exec c = (.ok ws, c')) :
    c.Appends cost ∅ 0 c' ∧ ∀ w ∈ ws, c'.AtLevel cost n w := by
  unfold doubleByte at h
  split at h
  · rename_i b0 b1 b2 b3 b4 b5 b6 b7
    obtain ⟨d1, c₁, hd1, h⟩ := exec_bind_eq_ok.mp h
    obtain ⟨d3, c₂, hd3, h⟩ := exec_bind_eq_ok.mp h
    obtain ⟨d4, c₃, hd4, h⟩ := exec_bind_eq_ok.mp h
    obtain ⟨rfl, rfl⟩ := exec_pure_eq_ok.mp h
    obtain ⟨happ₁, h1⟩ := xorGate_appends hcost hc (ha b0 (by simp)) (ha b7 (by simp)) hd1
    have ha₁ := happ₁.atLevel ha
    obtain ⟨happ₂, h3⟩ := xorGate_appends hcost happ₁.wellFormed (ha₁ b2 (by simp)) (ha₁ b7 (by simp)) hd3
    have ha₂ := happ₂.atLevel ha₁
    obtain ⟨happ₃, h4⟩ := xorGate_appends hcost happ₂.wellFormed (ha₂ b3 (by simp)) (ha₂ b7 (by simp)) hd4
    have ha₃ := happ₃.atLevel ha₂
    refine ⟨(happ₁.after happ₂).after happ₃, ?_⟩
    simp only [List.forall_mem_cons] at ha₃ ⊢
    obtain ⟨h0, hb1, h2, hb3, hb4, h5, h6, h7, -⟩ := ha₃
    exact ⟨h7, (h1.appends happ₂).appends happ₃, hb1, h3.appends happ₃, h4, hb4, h5, h6, by simp⟩
  · cases h

theorem mixByte_appends {pair parity : Bundle} (hc : c.WellFormed) (ha : ∀ w ∈ a, c.AtLevel cost n w)
    (hpair : ∀ w ∈ pair, c.AtLevel cost n w) (hparity : ∀ w ∈ parity, c.AtLevel cost n w)
    (hout : c.Blank out) (h : (mixByte a pair parity out).exec c = (.ok u, c')) :
    c.Appends cost {w | w ∈ out} 0 c' ∧ ∀ w ∈ out, c'.AtLevel cost n w := by
  unfold mixByte at h
  obtain ⟨doubled, c₁, hdoubled, h⟩ := exec_bind_eq_ok.mp h
  obtain ⟨ap, hap, h⟩ := exec_check_bind.mp h
  obtain ⟨apd, hapd, h⟩ := exec_check_bind.mp h
  obtain ⟨l, hl, h⟩ := exec_check_bind.mp h
  obtain ⟨happ, hdoubled⟩ := doubleByte_appends hcost hc hpair hdoubled
  have hread : ∀ w ∈ a ++ parity ++ doubled, c₁.AtLevel cost n w := by
    simp only [List.forall_mem_append]
    exact ⟨⟨happ.atLevel ha, happ.atLevel hparity⟩, hdoubled⟩
  have hlast := forM_inStep_appends (n := n) hl
    (P := fun c => ∀ w ∈ a ++ parity ++ doubled, c.AtLevel cost n w)
    (fun happ hread => happ.atLevel hread) (fun q hq c c' u hc hread hb hq' => ?_)
    happ.wellFormed hread (hout.appends_empty hc happ) h
  · exact ⟨happ.after hlast.1, hlast.2⟩
  · obtain ⟨hqapd, -⟩ := mem_of_inStep hl q hq
    obtain ⟨hqap, hqd⟩ := mem_of_inStep hapd q.1 hqapd
    obtain ⟨hqa, hqp⟩ := mem_of_inStep hap q.1.1 hqap
    obtain ⟨w, c₂, hw, hq'⟩ := exec_bind_eq_ok.mp hq'
    obtain ⟨happ, hlevel⟩ := xorGate_appends hcost hc (hread _ (by simp [hqa])) (hread _ (by simp [hqp])) hw
    have hgate := gateTo_appends happ.wellFormed hlevel ((hread _ (by simp [hqd])).appends happ)
      (happ.undriven hc hb (Set.notMem_empty _)) hq'
    rw [hcost.xor, Nat.max_self, Nat.add_zero] at hgate
    exact ⟨happ.after hgate.1, hgate.2⟩

/-- Bytes of a column, each with the sum that it needs and the place it goes to. -/
theorem mixBytes_appends {parity : Bundle} {parts : List (Bundle × Bundle × Nat)} (hc : c.WellFormed)
    (hparity : ∀ w ∈ parity, c.AtLevel cost n w)
    (hparts : ∀ q ∈ parts, (∀ w ∈ q.1, c.AtLevel cost n w) ∧ ∀ w ∈ q.2.1, c.AtLevel cost n w)
    (hout : c.Blank (parts.flatMap fun q => block out q.2.2))
    (h : (parts.forM fun (a, pair, j) => do
      mixByte a pair parity (← byteAt out j) : Build Unit).exec c = (.ok u, c')) :
    c.Appends cost {w | w ∈ parts.flatMap fun q => block out q.2.2} 0 c' ∧
      ∀ w ∈ parts.flatMap fun q => block out q.2.2, c'.AtLevel cost n w := by
  have hall := forM_appends (B := fun q => block out q.2.2) (n := n) (k := 0)
    (P := fun c => (∀ w ∈ parity, c.AtLevel cost n w) ∧
      ∀ q ∈ parts, (∀ w ∈ q.1, c.AtLevel cost n w) ∧ ∀ w ∈ q.2.1, c.AtLevel cost n w)
    (fun happ hread => ⟨happ.atLevel hread.1, fun q hq => (hread.2 q hq).imp happ.atLevel happ.atLevel⟩)
    (fun q hq c c' u hc hread hb hq' => ?_) hc ⟨hparity, hparts⟩ hout h
  · rwa [Nat.mul_zero] at hall
  · obtain ⟨o, ho, hq'⟩ := exec_check_bind.mp hq'
    rw [← eq_block_of_byteAt ho] at hb ⊢
    obtain ⟨ha, hpair⟩ := hread.2 q hq
    exact mixByte_appends hcost hc ha hpair hread.1 hb hq'

theorem mixColumn_appends {column : Nat} (hc : c.WellFormed) (hstate : ∀ w ∈ state, c.AtLevel cost n w)
    (hout : c.Blank (columnOf (block out) column))
    (h : (mixColumn state out column).exec c = (.ok u, c')) :
    c.Appends cost {w | w ∈ columnOf (block out) column} 0 c' ∧
      ∀ w ∈ columnOf (block out) column, c'.AtLevel cost n w := by
  unfold mixColumn at h
  obtain ⟨a0, ha0, h⟩ := exec_check_bind.mp h
  obtain ⟨a1, ha1, h⟩ := exec_check_bind.mp h
  obtain ⟨a2, ha2, h⟩ := exec_check_bind.mp h
  obtain ⟨a3, ha3, h⟩ := exec_check_bind.mp h
  obtain ⟨u0, c₁, hu0, h⟩ := exec_bind_eq_ok.mp h
  obtain ⟨u1, c₂, hu1, h⟩ := exec_bind_eq_ok.mp h
  obtain ⟨u2, c₃, hu2, h⟩ := exec_bind_eq_ok.mp h
  obtain ⟨u3, c₄, hu3, h⟩ := exec_bind_eq_ok.mp h
  obtain ⟨parity, c₅, hparity, h⟩ := exec_bind_eq_ok.mp h
  -- the sums of neighbours and of the column
  obtain ⟨happ₁, hl0⟩ := xorLevel_appends hcost hc (levels_byteAt hstate ha0) (levels_byteAt hstate ha1) hu0
  have hs₁ := happ₁.atLevel hstate
  obtain ⟨happ₂, hl1⟩ := xorLevel_appends hcost happ₁.wellFormed (levels_byteAt hs₁ ha1)
    (levels_byteAt hs₁ ha2) hu1
  have hs₂ := happ₂.atLevel hs₁
  obtain ⟨happ₃, hl2⟩ := xorLevel_appends hcost happ₂.wellFormed (levels_byteAt hs₂ ha2)
    (levels_byteAt hs₂ ha3) hu2
  have hs₃ := happ₃.atLevel hs₂
  obtain ⟨happ₄, hl3⟩ := xorLevel_appends hcost happ₃.wellFormed (levels_byteAt hs₃ ha3)
    (levels_byteAt hs₃ ha0) hu3
  have hs₄ := happ₄.atLevel hs₃
  have hl0₄ := happ₄.atLevel (happ₃.atLevel (happ₂.atLevel hl0))
  have hl1₄ := happ₄.atLevel (happ₃.atLevel hl1)
  have hl2₄ := happ₄.atLevel hl2
  obtain ⟨happ₅, hl⟩ := xorLevel_appends hcost happ₄.wellFormed hl0₄ hl2₄ hparity
  have hs₅ := happ₅.atLevel hs₄
  have happ := (((happ₁.after happ₂).after happ₃).after happ₄).after happ₅
  -- the bytes, one after the other
  have hbytes : (([(a0, u0, 4 * column), (a1, u1, 4 * column + 1), (a2, u2, 4 * column + 2),
      (a3, u3, 4 * column + 3)] : List (Bundle × Bundle × Nat)).forM fun (a, pair, j) => do
        mixByte a pair parity (← byteAt out j) : Build Unit).exec c₅ = (.ok u, c') := by
    simpa using h
  have hcolumn : ([(a0, u0, 4 * column), (a1, u1, 4 * column + 1), (a2, u2, 4 * column + 2),
      (a3, u3, 4 * column + 3)] : List (Bundle × Bundle × Nat)).flatMap (fun q => block out q.2.2) =
      columnOf (block out) column := by
    simp [columnOf]
  have hmixed := mixBytes_appends hcost happ.wellFormed hl ?_ (hcolumn ▸ hout.appends_empty hc happ) hbytes
  · rw [hcolumn] at hmixed
    exact ⟨happ.after hmixed.1, hmixed.2⟩
  · simp only [List.forall_mem_cons]
    exact ⟨⟨levels_byteAt hs₅ ha0, happ₅.atLevel hl0₄⟩, ⟨levels_byteAt hs₅ ha1, happ₅.atLevel hl1₄⟩,
      ⟨levels_byteAt hs₅ ha2, happ₅.atLevel hl2₄⟩, ⟨levels_byteAt hs₅ ha3, happ₅.atLevel hl3⟩, by simp⟩

/-- **Mixing columns costs nothing** and leaves the level of the state. -/
theorem mixColumns_appends (hc : c.WellFormed) (hstate : ∀ w ∈ state, c.AtLevel cost n w)
    (hout : c.Blank out) (h : (mixColumns state out).exec c = (.ok u, c')) :
    c.Appends cost {w | w ∈ out} 0 c' ∧ ∀ w ∈ out, c'.AtLevel cost n w := by
  unfold mixColumns at h
  obtain ⟨-, -, h⟩ := exec_check_bind.mp h
  obtain ⟨u₂, hlen, h⟩ := exec_check_bind.mp h
  obtain ⟨-, -, h⟩ := exec_check_bind.mp h
  have hblocks : (List.range 4).flatMap (columnOf (block out)) = out := by
    rw [flatMap_columnOf, flatMap_block (n := 16) (requireWidth_eq_ok.mp hlen)]
  have hall := forM_appends (B := columnOf (block out)) (n := n) (k := 0)
    (P := fun c => ∀ w ∈ state, c.AtLevel cost n w) (fun happ hread => happ.atLevel hread)
    (fun column _ c c' u hc hread hb hrun => mixColumn_appends hcost hc hread hb hrun) hc hstate
    (hblocks.symm ▸ hout) h
  rwa [hblocks, Nat.mul_zero] at hall

/-! ### Rounds -/

/-- **Substituting a state takes 34 conjunctions for each of its sixteen bytes.** -/
theorem substituteAndShift_appends {shifted : Bundle} (hc : c.WellFormed)
    (hstate : ∀ w ∈ state, c.AtLevel cost n w)
    (h : (substituteAndShift state).exec c = (.ok shifted, c')) :
    c.Appends cost ∅ (16 * (34 * cost .and)) c' ∧
      ∀ w ∈ shifted, c'.AtLevel cost (n + 4 * cost .and) w := by
  unfold substituteAndShift at h
  obtain ⟨substituted, c₁, hnew, h⟩ := exec_bind_eq_ok.mp h
  obtain ⟨u, c₂, hbytes, h⟩ := exec_bind_eq_ok.mp h
  obtain ⟨hrows, rfl⟩ := exec_check_eq_ok.mp h
  obtain ⟨happ, hblank, hlen, hfresh⟩ := newBundle_appends hc hnew
  have hblocks : (List.range 16).flatMap (block substituted) = substituted := flatMap_block (n := 16) hlen
  have hall := forM_appends (B := block substituted) (n := n + 4 * cost .and) (k := 34 * cost .and)
    (P := fun c => ∀ w ∈ state, c.AtLevel cost n w) (fun happ hread => happ.atLevel hread)
    (fun j _ c c' u hc hread hb hrun => ?_) happ.wellFormed (happ.atLevel hstate)
    (hblocks.symm ▸ hblank) hbytes
  · rw [hblocks, List.length_range] at hall
    refine ⟨happ.spawned hc hfresh hall.1, ?_⟩
    rw [shiftRows_eq_ok hlen] at hrows
    cases hrows
    intro w hw
    obtain ⟨j, -, hw⟩ := List.mem_flatMap.mp hw
    exact hall.2 w (mem_of_mem_block hw)
  · obtain ⟨byte, hbyte, hrun⟩ := exec_check_bind.mp hrun
    obtain ⟨o, ho, hrun⟩ := exec_check_bind.mp hrun
    rw [← eq_block_of_byteAt ho] at hb ⊢
    exact substituteByte_appends hcost hc (levels_byteAt hread hbyte) hb hrun

/-- **A round takes the state four conjunctions up.** -/
theorem innerRound_appends {expandedKey next : Bundle} {r : Nat} (hc : c.WellFormed)
    (hkey : ∀ w ∈ expandedKey, c.AtLevel cost 0 w) (hstate : ∀ w ∈ state, c.AtLevel cost n w)
    (h : (innerRound expandedKey state r).exec c = (.ok next, c')) :
    c.Appends cost ∅ (16 * (34 * cost .and)) c' ∧
      ∀ w ∈ next, c'.AtLevel cost (n + 4 * cost .and) w := by
  unfold innerRound at h
  obtain ⟨shifted, c₁, hshift, h⟩ := exec_bind_eq_ok.mp h
  obtain ⟨mixed, c₂, hnew, h⟩ := exec_bind_eq_ok.mp h
  obtain ⟨u, c₃, hmix, h⟩ := exec_bind_eq_ok.mp h
  obtain ⟨key, hround, h⟩ := exec_check_bind.mp h
  obtain ⟨happ₁, hshifted⟩ := substituteAndShift_appends hcost hc hstate hshift
  obtain ⟨happ₂, hblank, -, hfresh⟩ := newBundle_appends happ₁.wellFormed hnew
  obtain ⟨happ₃, hmixed⟩ := mixColumns_appends hcost happ₂.wellFormed (happ₂.atLevel hshifted) hblank hmix
  have happ := happ₁.after (happ₂.spawned happ₁.wellFormed hfresh happ₃)
  have hkeyed : ∀ w ∈ key, c₃.AtLevel cost 0 w := fun w hw =>
    happ.atLevel hkey w (mem_of_slice hround w hw)
  obtain ⟨happ₄, hnext⟩ := xorBundles_appends hcost happ.wellFormed hmixed hkeyed h
  rw [Nat.max_zero] at hnext
  exact ⟨happ.after happ₄, hnext⟩

/-- Rounds in a row. -/
theorem foldlM_innerRound_appends {expandedKey : Bundle} : ∀ {rs : List Nat} {state last : Bundle}
    {c : Circuit} {n : Nat}, c.WellFormed → (∀ w ∈ expandedKey, c.AtLevel cost 0 w) →
    (∀ w ∈ state, c.AtLevel cost n w) →
    (rs.foldlM (innerRound expandedKey) state).exec c = (.ok last, c') →
    c.Appends cost ∅ (rs.length * (16 * (34 * cost .and))) c' ∧
      ∀ w ∈ last, c'.AtLevel cost (n + rs.length * (4 * cost .and)) w
  | [], state, last, c, n, hc, _, hstate, h => by
    obtain ⟨rfl, rfl⟩ := exec_pure_eq_ok.mp h
    rw [List.length_nil, Nat.zero_mul, Nat.zero_mul]
    exact ⟨.refl hc, hstate⟩
  | r :: rs, state, last, c, n, hc, hkey, hstate, h => by
    rw [List.foldlM_cons] at h
    obtain ⟨next, c₁, hround, h⟩ := exec_bind_eq_ok.mp h
    obtain ⟨happ, hnext⟩ := innerRound_appends hcost hc hkey hstate hround
    obtain ⟨happ', hlast⟩ := foldlM_innerRound_appends happ.wellFormed (happ.atLevel hkey) hnext h
    have hsum : ∀ k, (rs.length + 1) * k = k + rs.length * k := fun k => by
      rw [Nat.succ_mul, Nat.add_comm]
    rw [List.length_cons, hsum, hsum, ← Nat.add_assoc]
    exact ⟨happ.after happ', hlast⟩

/-- The last round, which does not mix, drives the ciphertext. -/
theorem lastRound_appends {expandedKey ciphertext : Bundle} {r : Nat} (hc : c.WellFormed)
    (hkey : ∀ w ∈ expandedKey, c.AtLevel cost 0 w) (hstate : ∀ w ∈ state, c.AtLevel cost n w)
    (hout : c.Blank ciphertext)
    (h : (do
      let shifted ← substituteAndShift state
      let key ← roundKey expandedKey r
      (← inStep (← inStep shifted key) ciphertext).forM fun ((s, k), o) =>
        gateTo .xor s k o : Build Unit).exec c = (.ok u, c')) :
    c.Appends cost {w | w ∈ ciphertext} (16 * (34 * cost .and)) c' ∧
      ∀ w ∈ ciphertext, c'.AtLevel cost (n + 4 * cost .and) w := by
  obtain ⟨shifted, c₁, hshift, h⟩ := exec_bind_eq_ok.mp h
  obtain ⟨key, hround, h⟩ := exec_check_bind.mp h
  obtain ⟨sk, hsk, h⟩ := exec_check_bind.mp h
  obtain ⟨l, hl, h⟩ := exec_check_bind.mp h
  obtain ⟨happ, hshifted⟩ := substituteAndShift_appends hcost hc hstate hshift
  have hkeyed : ∀ w ∈ key, c₁.AtLevel cost 0 w := fun w hw =>
    happ.atLevel hkey w (mem_of_slice hround w hw)
  have hlast := forM_inStep_appends (n := n + 4 * cost .and) hl
    (P := fun c => (∀ w ∈ shifted, c.AtLevel cost (n + 4 * cost .and) w) ∧ ∀ w ∈ key, c.AtLevel cost 0 w)
    (fun happ hread => ⟨happ.atLevel hread.1, happ.atLevel hread.2⟩)
    (fun q hq c c' u hc hread hb hq' => ?_) happ.wellFormed ⟨hshifted, hkeyed⟩ (hout.appends_empty hc happ) h
  · exact ⟨happ.after hlast.1, hlast.2⟩
  · obtain ⟨hqsk, -⟩ := mem_of_inStep hl q hq
    obtain ⟨hqs, hqk⟩ := mem_of_inStep hsk q.1 hqsk
    have hgate := gateTo_appends hc (hread.1 _ hqs) (hread.2 _ hqk) hb hq'
    rwa [hcost.xor, Nat.max_zero, Nat.add_zero] at hgate

/-- **The cipher takes 16 times 34 conjunctions a round**, and its result is four of them a round above
message and key. -/
theorem encrypt_appends {message expandedKey ciphertext : Bundle} {rounds : Nat} (hrounds : 1 ≤ rounds)
    (hlen : expandedKey.length = 128 * (rounds + 1)) (hc : c.WellFormed)
    (hmessage : ∀ w ∈ message, c.AtLevel cost 0 w) (hkey : ∀ w ∈ expandedKey, c.AtLevel cost 0 w)
    (hout : c.Blank ciphertext) (h : (encrypt message expandedKey ciphertext).exec c = (.ok u, c')) :
    c.Appends cost {w | w ∈ ciphertext} (rounds * (16 * (34 * cost .and))) c' ∧
      ∀ w ∈ ciphertext, c'.AtLevel cost (rounds * (4 * cost .and)) w := by
  have hnumber : expandedKey.length / 128 - 1 = rounds := by omega
  unfold encrypt at h
  obtain ⟨-, -, h⟩ := exec_check_bind.mp h
  obtain ⟨-, -, h⟩ := exec_check_bind.mp h
  obtain ⟨-, -, h⟩ := exec_check_bind.mp h
  obtain ⟨-, -, h⟩ := exec_check_bind.mp h
  rw [hnumber] at h
  obtain ⟨first, hfirst, h⟩ := exec_check_bind.mp h
  obtain ⟨start, c₁, hstart, h⟩ := exec_bind_eq_ok.mp h
  obtain ⟨state, c₂, hstate, h⟩ := exec_bind_eq_ok.mp h
  obtain ⟨happ₁, hlevel⟩ := xorLevel_appends hcost hc hmessage
    (fun w hw => hkey w (mem_of_slice hfirst w hw)) hstart
  obtain ⟨happ₂, hlevels⟩ := foldlM_innerRound_appends hcost happ₁.wellFormed (happ₁.atLevel hkey) hlevel hstate
  have happ := happ₁.after happ₂
  obtain ⟨happ₃, hlast⟩ := lastRound_appends hcost happ.wellFormed (happ.atLevel hkey) hlevels
    (hout.appends_empty hc happ) h
  -- the last round makes them all
  obtain ⟨r, rfl⟩ : ∃ r, rounds = r + 1 := Nat.exists_eq_add_of_le' hrounds
  have hsum : ∀ k, (r + 1) * k = r * k + k := fun k => Nat.succ_mul r k
  rw [List.length_range', Nat.add_sub_cancel, Nat.zero_add, ← hsum] at hlast
  rw [List.length_range', Nat.add_sub_cancel, Nat.zero_add] at happ
  rw [hsum (16 * _)]
  exact ⟨happ.after happ₃, hlast⟩

end

end Build

namespace Request

open Build

variable {rounds : Nat} {c : Circuit}

/-! ### Circuits of requests -/

/-- No wire of a result has been driven before the operation starts. -/
theorem blank_operands {a b n : Nat} {x y out : Bundle}
    (hreg : (operands a b n).Registers [x, y] [out]) : (operands a b n).Blank out := by
  refine ⟨by simpa using hreg.nodup, fun w hw => ?_⟩
  have hregistered : w ∈ (operands a b n).outputs.flatten ++ (operands a b n).temps.flatten := by
    rw [hreg.outputs]
    exact List.mem_append_left _ (by simpa using hw)
  rcases Circuit.writable_iff.mp (hreg.wellFormed.writable w hregistered) with hs | hs
  · exact hs
  · obtain ⟨g, hg, -⟩ := (hreg.wellFormed.driven_iff w).mp hs
    cases hg

/-- A circuit of the cipher is what it makes of a message and an expanded key. -/
theorem run_of_aes (h : (Request.aes rounds).circuit = .ok c) :
    1 ≤ rounds ∧ ∃ x y out, y.length = 128 * (rounds + 1) ∧ out.length = 128 ∧
      (operands 128 (128 * (rounds + 1)) 128).Registers [x, y] [out] ∧
      (encrypt x y out).exec (operands 128 (128 * (rounds + 1)) 128) = (.ok (), c) := by
  obtain ⟨⟨hrounds, hsize⟩, hfits⟩ := valid_of_circuit h
  have hbundles : (Request.aes rounds).bundles = [128, 128 * (rounds + 1), 128] := if_pos hsize
  have hfit : 128 * (rounds + 1) < wireLimit :=
    hfits _ (List.mem_append_left _ (by simp [hbundles]))
  obtain ⟨x, y, out, -, hy, hout, hinputs, houtputs, hexec⟩ :=
    exec_buildBinary encrypt (a := 128) (n := 128) (by decide) hfit (by decide)
  refine ⟨hrounds, x, y, out, hy, hout, ⟨wellFormed_operands _ _ _, hinputs, houtputs⟩, ?_⟩
  rw [← hexec, ← exec_aes hsize]
  exact exec_of_circuit h

/-- **The circuit of the cipher**, by any count in which sums are free. -/
theorem aes_appends (h : (Request.aes rounds).circuit = .ok c) :
    c.ConstantFree ∧ ∃ out, out ≠ [] ∧ c.WellFormed ∧ c.outputs = [out] ∧
      ∀ cost, GateKind.SumsFree cost → c.weight cost = rounds * (16 * (34 * cost .and)) ∧
        ∀ w ∈ out, c.AtLevel cost (rounds * (4 * cost .and)) w := by
  obtain ⟨hrounds, x, y, out, hy, hout, hreg, hrun⟩ := run_of_aes h
  have happends := fun (cost : GateKind → Nat) (hcost : GateKind.SumsFree cost) =>
    encrypt_appends hcost hrounds hy hreg.wellFormed (hreg.atLevel (by simp)) (hreg.atLevel (by simp))
      (blank_operands hreg) hrun
  obtain ⟨happ, -⟩ := happends (fun _ => 0) ⟨rfl, rfl⟩
  have hfree := ((Circuit.constantFree_empty.withInput 128).withInput (128 * (rounds + 1))).withOutput 128
  refine ⟨happ.constantFree hfree, out, ne_nil_of_pos hout (by decide),
    happ.wellFormed, happ.outputs.trans hreg.outputs, fun cost hcost => ?_⟩
  obtain ⟨happ, hlevel⟩ := happends cost hcost
  have hzero : (operands 128 (128 * (rounds + 1)) 128).weight cost = 0 := rfl
  exact ⟨by rw [happ.weight_eq, hzero, Nat.zero_add], hlevel⟩

end Request

open Catalogue in
/-- **The nonlinear cost of the cipher.** Whatever a catalogue was asked before, there is room for a
circuit of every number of rounds up to the one whose gates fill their list, and an expanded key that is
too long for a bundle is refused. Whichever circuit there is, no wire of it is a constant, it has 544
conjunctions a round, those of sixteen substitutions, and no disjunction, and its nonlinear depth is
exactly four a round. -/
theorem aes_circuits_count_conjunctions (before : List Request) (rounds : Nat) :
    ((∃ c, ((afterAll before).serve (.aes rounds)).result = .ok c ∧ c.HasRoom) ↔
      1 ≤ rounds ∧ 2640 * rounds - 336 ≤ gateRoom) ∧
    (wireLimit ≤ 128 * (rounds + 1) → 128 * (rounds + 1) < sizeLimit →
      ((afterAll before).serve (.aes rounds)).result = .error (.tooLarge (128 * (rounds + 1)))) ∧
    ∀ c, ((afterAll before).serve (.aes rounds)).result = .ok c →
      c.ConstantFree ∧ ∃ s, c.stats = .ok s ∧ s.count .and = 544 * rounds ∧ s.count .or = 0 ∧
        s.nonlinearDepth = 4 * rounds := by
  rw [(holds_afterAll before).result_eq]
  refine ⟨Request.aes_hasRoom_iff, Request.circuit_aes_too_large, fun c hc => ?_⟩
  obtain ⟨hfree, out, hne, hwf, houtputs, hcounts⟩ := Request.aes_appends hc
  obtain ⟨-, hlevel⟩ := hcounts GateKind.nonlinearCost ⟨rfl, rfl⟩
  obtain ⟨s, hs, -, hdepth, hcount⟩ := Circuit.stats_of_depths (Circuit.depthBy_eq hwf _)
    (Circuit.depthBy_of_atLevel hwf houtputs hne hlevel)
  have hone : GateKind.nonlinearCost .and = 1 := rfl
  refine ⟨hfree, s, hs, ?_, ?_, ?_⟩
  · rw [hcount, ← c.weight_eq_countKind, (hcounts _ ⟨rfl, rfl⟩).1, if_pos rfl]
    omega
  · rw [hcount, ← c.weight_eq_countKind, (hcounts _ ⟨rfl, rfl⟩).1, if_neg (by decide)]
    omega
  · rw [hdepth, hone]
    omega

/-- AES-128, after a circuit of fewer rounds was asked for. -/
theorem aes_circuits_count_conjunctions_ten :
    ∃ c s, ((Catalogue.afterAll [.aes 3]).serve (.aes 10)).result = .ok c ∧ c.HasRoom ∧
      c.stats = .ok s ∧ s.count .and = 5440 ∧ s.count .or = 0 ∧ s.nonlinearDepth = 40 := by
  obtain ⟨hserved, -, hcost⟩ := aes_circuits_count_conjunctions [.aes 3] 10
  obtain ⟨c, hc, hroom⟩ := hserved.mpr ⟨by decide, by decide⟩
  obtain ⟨-, s, hs, hand, hor, hdepth⟩ := hcost c hc
  exact ⟨c, s, hc, hroom, hs, hand, hor, hdepth⟩

/-- With an expanded key of `2 ^ 60` bits there is no circuit whose conjunctions could be counted. -/
theorem no_aes_conjunctions_at_limit :
    1 ≤ 9007199254740991 ∧ 128 * (9007199254740991 + 1) < sizeLimit ∧
      ¬ ∃ c s, (Catalogue.empty.serve (.aes 9007199254740991)).result = .ok c ∧ c.stats = .ok s ∧
        s.count .and = 544 * 9007199254740991 := by
  refine ⟨by decide, by decide, ?_⟩
  rintro ⟨c, s, hc, -⟩
  rw [Catalogue.holds_empty.result_eq, Request.circuit_aes_too_large (by decide) (by decide)] at hc
  cases hc

end BitCircuit
