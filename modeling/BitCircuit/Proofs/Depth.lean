/-
# Depth is the length of a longest chain

Gates form a chain if each reads what the one before it has put on a wire and no gate between the two
drives that wire again. The statistics are taken in one pass that keeps a number for each wire and for
the deepest gate so far. After any number of gates the number of a wire is the largest count on the
chains that end at its last driver, and chains that end at an earlier driver are forgotten
(`Measures.concat`, `measures_levels`). So the depth of a circuit is a maximum over chains, whatever
temporaries were driven several times (`stats_measure_depth`).

A gate with one input has it in both places, in every circuit that can be built
(`Reachable.repeatsInput`), so that the pass looks at the wires a gate reads and at no others.

Key definitions: `Feeds`, `GateChain`, `LastDriver`, `chainCounts`, `Levels`, `Measures`,
`Circuit.chainsMeasured`.
Key theorems: `mem_chainCounts_concat`, `Measures.concat`, `measures_levels`, `Circuit.depthBy_eq`,
`stats_measure_depth`.
-/
import Mathlib.Data.List.Induction
import Mathlib.Order.Bounds.Basic
import BitCircuit.Circuit.Stats
import BitCircuit.Proofs.Evaluation
import BitCircuit.Proofs.Reachable

namespace BitCircuit

variable {gs : List Gate} {g : Gate} {w : Wire} {j k n : Nat} {ks : List Nat} {p : GateKind → Bool}
  {cost : GateKind → Nat}

/-! ### Chains -/

/-- The gate at position `k` reads what the one at `j` has put on a wire. -/
def Feeds (gs : List Gate) (j k : Nat) : Prop :=
  j < k ∧ ∃ g h, gs[j]? = some g ∧ gs[k]? = some h ∧ g.out ∈ h.reads ∧
    ∀ i m, j < i → i < k → gs[i]? = some m → m.out ≠ g.out

/-- The positions `ks` of a chain of gates that ends at position `k`. -/
inductive GateChain (gs : List Gate) : List Nat → Nat → Prop
  /-- A single gate. -/
  | first {k : Nat} : k < gs.length → GateChain gs [k] k
  /-- A gate that reads what the last one has driven. -/
  | next {ks : List Nat} {j k : Nat} : GateChain gs ks j → Feeds gs j k → GateChain gs (ks ++ [k]) k

/-- The number of gates with `p` at the positions `ks`. -/
def countAt (p : GateKind → Bool) (gs : List Gate) (ks : List Nat) : Nat :=
  ks.countP fun k => gs[k]?.any fun g => p g.kind

/-- The counts of all chains that end at position `k`. -/
def chainCounts (p : GateKind → Bool) (gs : List Gate) (k : Nat) : Set Nat :=
  {n | ∃ ks, GateChain gs ks k ∧ countAt p gs ks = n}

/-- The last gate that drives the wire is at position `k`. -/
def LastDriver (gs : List Gate) (w : Wire) (k : Nat) : Prop :=
  (∃ g, gs[k]? = some g ∧ g.out = w) ∧ ∀ i m, k < i → gs[i]? = some m → m.out ≠ w

/-! ### One gate more -/

theorem LastDriver.lt (h : LastDriver gs w k) : k < gs.length := by
  obtain ⟨⟨g, hg, -⟩, -⟩ := h
  exact (List.getElem?_eq_some_iff.mp hg).1

/-- A new gate is the last driver of the wire it drives and of no other. -/
theorem lastDriver_concat : LastDriver (gs ++ [g]) w k ↔
    g.out = w ∧ k = gs.length ∨ g.out ≠ w ∧ LastDriver gs w k := by
  have hnew : (gs ++ [g])[gs.length]? = some g := by simp
  have hold : ∀ i, i < gs.length → (gs ++ [g])[i]? = gs[i]? := fun i hi => List.getElem?_append_left hi
  constructor
  · intro h
    have hk := h.lt
    rw [List.length_append, List.length_singleton] at hk
    obtain ⟨⟨g', hg', hout⟩, hlater⟩ := h
    by_cases hlast : k = gs.length
    · subst hlast
      rw [hnew] at hg'
      obtain rfl := Option.some.inj hg'
      exact .inl ⟨hout, rfl⟩
    · have hlt : k < gs.length := by omega
      rw [hold k hlt] at hg'
      refine .inr ⟨hlater _ g hlt hnew, ⟨g', hg', hout⟩, fun i m hi hm => ?_⟩
      have hilt : i < gs.length := (List.getElem?_eq_some_iff.mp hm).1
      exact hlater i m hi ((hold i hilt).trans hm)
  · intro h
    rcases h with ⟨hout, rfl⟩ | ⟨hne, ⟨g', hg', hout⟩, hlater⟩
    · refine ⟨⟨g, hnew, hout⟩, fun i m hi hm => ?_⟩
      have hilt := (List.getElem?_eq_some_iff.mp hm).1
      rw [List.length_append, List.length_singleton] at hilt
      omega
    · have hlt : k < gs.length := (List.getElem?_eq_some_iff.mp hg').1
      refine ⟨⟨g', (hold k hlt).trans hg', hout⟩, fun i m hi hm => ?_⟩
      by_cases hilt : i < gs.length
      · exact hlater i m hi ((hold i hilt).symm.trans hm)
      · obtain rfl : i = gs.length := by
          have := (List.getElem?_eq_some_iff.mp hm).1
          rw [List.length_append, List.length_singleton] at this
          omega
        rw [hnew] at hm
        obtain rfl := Option.some.inj hm
        exact hne

/-- A wire that some gate drives has a last driver. -/
theorem exists_lastDriver (h : ∃ g ∈ gs, g.out = w) : ∃ k, LastDriver gs w k := by
  induction gs using List.reverseRecOn with
  | nil =>
    obtain ⟨g, hg, -⟩ := h
    cases hg
  | append_singleton gs g ih =>
    by_cases hout : g.out = w
    · exact ⟨gs.length, lastDriver_concat.mpr (.inl ⟨hout, rfl⟩)⟩
    · obtain ⟨g', hg', hout'⟩ := h
      have hmem : g' ∈ gs := by
        rcases List.mem_append.mp hg' with hg' | hg'
        · exact hg'
        · exact absurd (List.mem_singleton.mp hg' ▸ hout') hout
      obtain ⟨k, hk⟩ := ih ⟨g', hmem, hout'⟩
      exact ⟨k, lastDriver_concat.mpr (.inr ⟨hout, hk⟩)⟩

/-- Between the gates that were there nothing changes. -/
theorem feeds_concat_of_lt (hk : k < gs.length) : Feeds (gs ++ [g]) j k ↔ Feeds gs j k := by
  have hold : ∀ i, i ≤ k → (gs ++ [g])[i]? = gs[i]? := fun i hi => List.getElem?_append_left (by omega)
  unfold Feeds
  refine and_congr_right fun hjk => ?_
  rw [hold j (by omega), hold k (by omega)]
  refine exists_congr fun a => exists_congr fun b => and_congr_right fun _ => and_congr_right fun _ =>
    and_congr_right fun _ => ?_
  refine forall_congr' fun i => forall_congr' fun m => imp_congr_right fun _ => imp_congr_right fun hi => ?_
  rw [hold i (by omega)]

/-- A new gate is fed by the last drivers of the wires it reads. -/
theorem feeds_concat_length :
    Feeds (gs ++ [g]) j gs.length ↔ ∃ w ∈ g.reads, LastDriver gs w j := by
  have hnew : (gs ++ [g])[gs.length]? = some g := by simp
  have hold : ∀ i, i < gs.length → (gs ++ [g])[i]? = gs[i]? := fun i hi => List.getElem?_append_left hi
  constructor
  · intro h
    obtain ⟨hj, a, b, ha, hb, hread, hlater⟩ := h
    rw [hnew] at hb
    obtain rfl := Option.some.inj hb
    refine ⟨a.out, hread, ⟨a, (hold j hj).symm.trans ha, rfl⟩, fun i m hi hm => ?_⟩
    have hilt : i < gs.length := (List.getElem?_eq_some_iff.mp hm).1
    exact hlater i m hi hilt ((hold i hilt).trans hm)
  · intro h
    obtain ⟨w, hread, hlast⟩ := h
    have hj := hlast.lt
    obtain ⟨⟨a, ha, rfl⟩, hlater⟩ := hlast
    refine ⟨hj, a, g, (hold j hj).trans ha, hnew, hread, fun i m hi hilt hm => ?_⟩
    exact hlater i m hi ((hold i hilt).symm.trans hm)

theorem GateChain.last_lt (h : GateChain gs ks k) : k < gs.length := by
  cases h with
  | first hk => exact hk
  | next _ hfeeds =>
    obtain ⟨-, -, b, -, hb, -⟩ := hfeeds
    exact (List.getElem?_eq_some_iff.mp hb).1

theorem GateChain.lt (h : GateChain gs ks k) : ∀ i ∈ ks, i < gs.length := by
  induction h with
  | first hk => simpa using hk
  | next hchain hfeeds ih =>
    intro i hi
    rcases List.mem_append.mp hi with hi | hi
    · exact ih i hi
    · rw [List.mem_singleton.mp hi]
      exact (GateChain.next hchain hfeeds).last_lt

/-- The chains that do not end at the new gate are those there were. -/
theorem gateChain_concat_of_lt (hk : k < gs.length) : GateChain (gs ++ [g]) ks k ↔ GateChain gs ks k := by
  constructor
  · intro h
    induction h with
    | first _ => exact .first hk
    | next _ hfeeds ih =>
      have hfeeds' := (feeds_concat_of_lt hk).mp hfeeds
      exact .next (ih (hfeeds'.1.trans hk)) hfeeds'
  · intro h
    induction h with
    | first _ => exact .first (by simp; omega)
    | next hchain hfeeds ih => exact .next (ih hchain.last_lt) ((feeds_concat_of_lt hk).mpr hfeeds)

theorem countAt_concat (h : GateChain gs ks k) : countAt p (gs ++ [g]) ks = countAt p gs ks := by
  refine List.countP_congr fun i hi => ?_
  rw [List.getElem?_append_left (h.lt i hi)]

theorem countAt_append_length (h : GateChain gs ks k) :
    countAt p (gs ++ [g]) (ks ++ [gs.length]) = countAt p gs ks + (p g.kind).toNat := by
  rw [← countAt_concat (g := g) h]
  unfold countAt
  rw [List.countP_append]
  cases hp : p g.kind <;> simp [hp]

theorem chainCounts_concat_of_lt (hk : k < gs.length) :
    chainCounts p (gs ++ [g]) k = chainCounts p gs k := by
  ext n
  refine exists_congr fun ks => ?_
  rw [gateChain_concat_of_lt hk]
  exact and_congr_right fun hchain => by rw [countAt_concat hchain]

/-- **The chains that end at a new gate**: the gate alone, and the chains that end at a last driver of a
wire it reads, with the gate added. -/
theorem mem_chainCounts_concat : n ∈ chainCounts p (gs ++ [g]) gs.length ↔
    ∃ m, n = m + (p g.kind).toNat ∧
      (m = 0 ∨ ∃ w ∈ g.reads, ∃ j, LastDriver gs w j ∧ m ∈ chainCounts p gs j) := by
  have halone : countAt p (gs ++ [g]) [gs.length] = (p g.kind).toNat := by
    cases hp : p g.kind <;> simp [countAt, hp]
  constructor
  · intro h
    obtain ⟨ks, hchain, rfl⟩ := h
    generalize hlast : gs.length = last at hchain
    cases hchain with
    | first _ => exact ⟨0, by rw [← hlast, halone, Nat.zero_add], .inl rfl⟩
    | next hchain hfeeds =>
      subst hlast
      obtain ⟨w, hread, hdriver⟩ := feeds_concat_length.mp hfeeds
      have hchain' := (gateChain_concat_of_lt hdriver.lt).mp hchain
      exact ⟨_, countAt_append_length hchain', .inr ⟨w, hread, _, hdriver, _, hchain', rfl⟩⟩
  · intro h
    obtain ⟨m, rfl, rfl | ⟨w, hread, j, hdriver, ks, hchain, rfl⟩⟩ := h
    · exact ⟨[gs.length], .first (by simp), by rw [halone, Nat.zero_add]⟩
    · have hchain' := (gateChain_concat_of_lt (g := g) hdriver.lt).mpr hchain
      have hfeeds := feeds_concat_length.mpr ⟨w, hread, hdriver⟩
      exact ⟨_, .next hchain' hfeeds, countAt_append_length hchain⟩

/-! ### The pass over the gates -/

/-- The depth of each wire so far, and the largest depth any gate has reached. -/
structure Levels where
  depth : Wire → Nat
  deepest : Nat

/-- The depth of a gate on wires of these depths. -/
def Levels.gateDepth (cost : GateKind → Nat) (t : Levels) (g : Gate) : Nat :=
  max (t.depth g.x) (t.depth g.y) + cost g.kind

/-- One gate. -/
def Levels.push (cost : GateKind → Nat) (t : Levels) (g : Gate) : Levels :=
  ⟨Function.update t.depth g.out (t.gateDepth cost g), max t.deepest (t.gateDepth cost g)⟩

/-- All gates. -/
def levels (cost : GateKind → Nat) (gs : List Gate) : Levels :=
  gs.foldl (Levels.push cost) ⟨fun _ => 0, 0⟩

/-- The numbers after some gates are maxima over chains: that of a driven wire over the chains that end
at its last driver, and the deepest one over all. -/
structure Measures (p : GateKind → Bool) (gs : List Gate) (t : Levels) : Prop where
  undriven : ∀ w, (∀ g ∈ gs, g.out ≠ w) → t.depth w = 0
  driven : ∀ w k, LastDriver gs w k → IsGreatest (chainCounts p gs k) (t.depth w)
  deepest : IsGreatest (insert 0 {n | ∃ k, n ∈ chainCounts p gs k}) t.deepest

theorem measures_nil : Measures p [] ⟨fun _ => 0, 0⟩ := by
  have hnone : ∀ n k, n ∉ chainCounts p [] k := by
    intro n k h
    obtain ⟨ks, hchain, -⟩ := h
    exact absurd hchain.last_lt (by simp)
  refine ⟨fun _ _ => rfl, fun w k h => absurd h.lt (by simp), by simp, fun n hn => ?_⟩
  rcases hn with rfl | ⟨k, hn⟩
  · exact Nat.le_refl 0
  · exact absurd hn (hnone n k)

variable {t : Levels}

/-- A wire has no depth, or that of a chain which ends at its last driver. -/
theorem Measures.depth_cases (h : Measures p gs t) (w : Wire) :
    t.depth w = 0 ∨ ∃ j, LastDriver gs w j ∧ t.depth w ∈ chainCounts p gs j := by
  by_cases hdriven : ∃ g ∈ gs, g.out = w
  · obtain ⟨j, hj⟩ := exists_lastDriver hdriven
    exact .inr ⟨j, hj, (h.driven w j hj).1⟩
  · exact .inl (h.undriven w fun g hg hout => hdriven ⟨g, hg, hout⟩)

theorem mem_reads_iff (hin : g.RepeatsInput) : w ∈ g.reads ↔ w = g.x ∨ w = g.y := by
  unfold Gate.reads
  by_cases hk : g.kind.isUnary = true
  · simp [hk, ← hin hk]
  · simp [hk]

/-- **The depth of a new gate is the largest count on the chains that end at it.** -/
theorem Measures.isGreatest_gateDepth (h : Measures p gs t) (hin : g.RepeatsInput)
    (hcost : ∀ kind, cost kind = (p kind).toNat) :
    IsGreatest (chainCounts p (gs ++ [g]) gs.length) (t.gateDepth cost g) := by
  unfold Levels.gateDepth
  rw [hcost]
  constructor
  · -- the deeper one of the wires it reads
    obtain ⟨w, hread, hmax⟩ : ∃ w ∈ g.reads, max (t.depth g.x) (t.depth g.y) = t.depth w := by
      by_cases hle : t.depth g.x ≤ t.depth g.y
      · exact ⟨g.y, (mem_reads_iff hin).mpr (.inr rfl), Nat.max_eq_right hle⟩
      · exact ⟨g.x, (mem_reads_iff hin).mpr (.inl rfl), Nat.max_eq_left (by omega)⟩
    rw [hmax]
    refine mem_chainCounts_concat.mpr ⟨_, rfl, ?_⟩
    rcases h.depth_cases w with hzero | ⟨j, hj, hmem⟩
    · exact .inl hzero
    · exact .inr ⟨w, hread, j, hj, hmem⟩
  · intro n hn
    obtain ⟨m, rfl, rfl | ⟨w, hread, j, hj, hm⟩⟩ := mem_chainCounts_concat.mp hn
    · omega
    · have hle : m ≤ t.depth w := (h.driven w j hj).2 hm
      have hmax : t.depth w ≤ max (t.depth g.x) (t.depth g.y) := by
        rcases (mem_reads_iff hin).mp hread with rfl | rfl
        · exact Nat.le_max_left _ _
        · exact Nat.le_max_right _ _
      omega

/-- **One gate keeps the numbers maxima.** -/
theorem Measures.concat (h : Measures p gs t) (hin : g.RepeatsInput)
    (hcost : ∀ kind, cost kind = (p kind).toNat) : Measures p (gs ++ [g]) (t.push cost g) := by
  have hgate := h.isGreatest_gateDepth hin hcost
  refine ⟨fun w hw => ?_, fun w k hk => ?_, ?_, fun n hn => ?_⟩
  · have hne : w ≠ g.out := fun he => hw g (by simp) he.symm
    show Function.update t.depth g.out (t.gateDepth cost g) w = 0
    rw [Function.update_of_ne hne]
    exact h.undriven w fun g' hg' => hw g' (List.mem_append_left _ hg')
  · show IsGreatest _ (Function.update t.depth g.out (t.gateDepth cost g) w)
    rcases lastDriver_concat.mp hk with ⟨rfl, rfl⟩ | ⟨hne, hold⟩
    · rw [Function.update_self]
      exact hgate
    · rw [Function.update_of_ne hne.symm, chainCounts_concat_of_lt hold.lt]
      exact h.driven w k hold
  · show max t.deepest (t.gateDepth cost g) ∈ _
    by_cases hle : t.deepest ≤ t.gateDepth cost g
    · rw [Nat.max_eq_right hle]
      exact .inr ⟨_, hgate.1⟩
    · rw [Nat.max_eq_left (by omega)]
      rcases h.deepest.1 with hzero | ⟨k, ks, hchain, hcount⟩
      · exact .inl hzero
      · refine .inr ⟨k, ?_⟩
        rw [chainCounts_concat_of_lt hchain.last_lt]
        exact ⟨ks, hchain, hcount⟩
  · show n ≤ max t.deepest (t.gateDepth cost g)
    rcases hn with rfl | ⟨k, hn⟩
    · exact Nat.zero_le _
    · have hk : k < (gs ++ [g]).length := by
        obtain ⟨ks, hchain, -⟩ := hn
        exact hchain.last_lt
      rw [List.length_append, List.length_singleton] at hk
      by_cases hlast : k = gs.length
      · subst hlast
        have hle : n ≤ t.gateDepth cost g := hgate.2 hn
        omega
      · rw [chainCounts_concat_of_lt (by omega)] at hn
        have hle : n ≤ t.deepest := h.deepest.2 (.inr ⟨k, hn⟩)
        omega

/-- **The pass measures chains**, over any number of gates. -/
theorem measures_levels (hcost : ∀ kind, cost kind = (p kind).toNat) (hin : ∀ g ∈ gs, g.RepeatsInput) :
    Measures p gs (levels cost gs) := by
  -- the pass goes from left to right, so the induction adds the last gate
  induction gs using List.reverseRecOn with
  | nil => exact measures_nil
  | append_singleton gs g ih =>
    have hbefore : Measures p gs (levels cost gs) := ih fun g' hg' => hin g' (List.mem_append_left _ hg')
    unfold levels at hbefore ⊢
    rw [List.foldl_append]
    exact hbefore.concat (hin g (by simp)) hcost

/-! ### The table -/

theorem DepthTable.push_valueTable (hx : g.x.index < n) (hy : g.y.index < n) (hout : g.out.index < n) :
    DepthTable.push cost ⟨valueTable n t.depth, t.deepest⟩ g =
      .ok ⟨valueTable n (t.push cost g).depth, (t.push cost g).deepest⟩ := by
  unfold DepthTable.push
  refine bind_eq_ok.mpr ⟨t.depth g.x, entry_valueTable hx, ?_⟩
  refine bind_eq_ok.mpr ⟨t.depth g.y, entry_valueTable hy, ?_⟩
  exact bind_eq_ok.mpr ⟨_, setEntry_valueTable hout, rfl⟩

variable (cost) in
theorem DepthTable.foldlM_push_valueTable : ∀ (gs : List Gate) (t : Levels),
    (∀ g ∈ gs, g.x.index < n ∧ g.y.index < n ∧ g.out.index < n) →
    gs.foldlM (DepthTable.push cost) ⟨valueTable n t.depth, t.deepest⟩ =
      .ok ⟨valueTable n (gs.foldl (Levels.push cost) t).depth, (gs.foldl (Levels.push cost) t).deepest⟩
  | [], _, _ => rfl
  | g :: gs, t, h => by
    obtain ⟨⟨hx, hy, hout⟩, hgs⟩ := List.forall_mem_cons.mp h
    rw [List.foldlM_cons, push_valueTable hx hy hout]
    exact foldlM_push_valueTable gs _ hgs

namespace Circuit

variable {c : Circuit}

/-- The number that an output wire contributes. -/
def driverDepth (c : Circuit) (t : Levels) (w : Wire) : Nat :=
  if c.state? w = some .driven then t.depth w else 0

theorem outputDepth_valueTable (hw : c.Allocated w) :
    c.outputDepth (valueTable c.wires.size t.depth) w = .ok (c.driverDepth t w) := by
  obtain ⟨s, hs⟩ := allocated_iff.mp hw
  have hstate : entry c.wires w.index = .ok s := by
    unfold state? at hs
    unfold entry
    rw [hs]
  unfold outputDepth driverDepth
  rw [hstate, hs]
  by_cases hdriven : s = .driven
  · simp only [hdriven, ↓reduceIte]
    exact entry_valueTable hw
  · have hne : some s ≠ some WireState.driven := fun he => hdriven (Option.some.inj he)
    rw [if_neg hne]
    exact if_neg hdriven

/-- The depth is that of the deepest gate, or of the deepest output if there are outputs. -/
theorem depthBy_eq (hc : c.WellFormed) (cost : GateKind → Nat) : c.depthBy cost = .ok
    (if c.outputs.isEmpty then (levels cost c.gates.toList).deepest
      else (c.outputs.flatten.map (c.driverDepth (levels cost c.gates.toList))).foldl max 0) := by
  have hzero : Array.replicate c.wires.size 0 = valueTable c.wires.size fun _ => 0 := by
    apply Array.ext
    · simp [valueTable]
    · intro i _ _
      simp [valueTable]
  have hgates := DepthTable.foldlM_push_valueTable cost c.gates.toList ⟨fun _ => 0, 0⟩
    fun g hg => hc.gate_allocated hg
  rw [Array.foldlM_toList] at hgates
  unfold depthBy
  rw [hzero, hgates]
  by_cases hempty : c.outputs.isEmpty = true
  · rw [if_pos hempty]
    exact if_pos hempty
  · rw [if_neg hempty]
    refine (if_neg hempty).trans (bind_eq_ok.mpr ⟨_, mapM_eq_ok fun w hw => ?_, rfl⟩)
    exact outputDepth_valueTable (hc.writable w (List.mem_append_left _ hw)).allocated

/-! ### The depth of a circuit -/

/-- The counts of the chains at which depth is measured: those that end at the last driver of an output
wire, or all if no output bundle is registered. -/
def chainsMeasured (c : Circuit) (p : GateKind → Bool) : Set Nat :=
  {n | ∃ ks k, GateChain c.gates.toList ks k ∧ countAt p c.gates.toList ks = n ∧
    (c.outputs ≠ [] → ∃ w ∈ c.outputs.flatten, LastDriver c.gates.toList w k)}

/-- The largest number of a list is one of its entries. -/
theorem isGreatest_foldl_max : ∀ (l : List Nat) (a : Nat), IsGreatest (insert a {n | n ∈ l}) (l.foldl max a)
  | [], a => by simp
  | b :: l, a => by
    obtain ⟨hmem, hle⟩ := isGreatest_foldl_max l (max a b)
    have hab : max a b ≤ l.foldl max (max a b) := hle (.inl rfl)
    refine ⟨?_, fun n hn => ?_⟩
    · rcases hmem with heq | hmem
      · rw [List.foldl_cons, heq]
        by_cases hba : b ≤ a
        · exact .inl (Nat.max_eq_left hba)
        · exact .inr (by simp [Nat.max_eq_right (Nat.le_of_not_le hba)])
      · exact .inr (List.mem_cons_of_mem b hmem)
    · rw [List.foldl_cons]
      rcases hn with rfl | hn
      · omega
      · rcases List.mem_cons.mp hn with rfl | hn
        · omega
        · exact hle (.inr hn)

/-- **The depth of a circuit is the largest count on the chains it is measured at.** -/
theorem depthBy_isGreatest (hc : c.WellFormed) (hin : ∀ g ∈ c.gates.toList, g.RepeatsInput)
    (hcost : ∀ kind, cost kind = (p kind).toNat) :
    ∃ d, c.depthBy cost = .ok d ∧ IsGreatest (insert 0 (c.chainsMeasured p)) d := by
  refine ⟨_, depthBy_eq hc cost, ?_⟩
  have hm : Measures p c.gates.toList (levels cost c.gates.toList) := measures_levels hcost hin
  by_cases hempty : c.outputs = []
  · have hall : c.chainsMeasured p = {n | ∃ k, n ∈ chainCounts p c.gates.toList k} := by
      ext n
      constructor
      · intro h
        obtain ⟨ks, k, hchain, hcount, -⟩ := h
        exact ⟨k, ks, hchain, hcount⟩
      · intro h
        obtain ⟨k, ks, hchain, hcount⟩ := h
        exact ⟨ks, k, hchain, hcount, fun hne => absurd hempty hne⟩
    rw [if_pos (List.isEmpty_iff.mpr hempty), hall]
    exact hm.deepest
  · rw [if_neg (by simpa using hempty)]
    obtain ⟨hmem, hle⟩ := isGreatest_foldl_max
      (c.outputs.flatten.map (c.driverDepth (levels cost c.gates.toList))) 0
    refine ⟨?_, fun n hn => ?_⟩
    · rcases hmem with hzero | hmem
      · exact .inl hzero
      · obtain ⟨w, hw, hdepth⟩ := List.mem_map.mp hmem
        rw [← hdepth]
        unfold driverDepth
        by_cases hdriven : c.state? w = some .driven
        · rw [if_pos hdriven]
          obtain ⟨k, hk⟩ := exists_lastDriver ((hc.driven_iff w).mp hdriven)
          obtain ⟨ks, hchain, hcount⟩ := (hm.driven w k hk).1
          exact .inr ⟨ks, k, hchain, hcount, fun _ => ⟨w, hw, hk⟩⟩
        · rw [if_neg hdriven]
          exact .inl rfl
    · rcases hn with rfl | ⟨ks, k, hchain, hcount, hout⟩
      · exact Nat.zero_le _
      · obtain ⟨w, hw, hk⟩ := hout hempty
        have hdriven : c.state? w = some .driven := by
          obtain ⟨⟨g, hg, hgw⟩, -⟩ := hk
          exact (hc.driven_iff w).mpr ⟨g, List.mem_of_getElem? hg, hgw⟩
        have hdepth : c.driverDepth (levels cost c.gates.toList) w = (levels cost c.gates.toList).depth w :=
          if_pos hdriven
        have hbound : n ≤ (levels cost c.gates.toList).depth w := (hm.driven w k hk).2 ⟨ks, hchain, hcount⟩
        exact hbound.trans (hle (.inr (List.mem_map.mpr ⟨w, hw, hdepth⟩)))

/-- The gates of the six kinds are all gates. -/
theorem length_eq_sum_countP : ∀ gs : List Gate, gs.length =
    gs.countP (·.kind = .xor) + gs.countP (·.kind = .nxor) + gs.countP (·.kind = .and) +
      gs.countP (·.kind = .or) + gs.countP (·.kind = .inv) + gs.countP (·.kind = .copy)
  | [] => rfl
  | g :: gs => by
    have ih := length_eq_sum_countP gs
    simp only [List.countP_cons, List.length_cons]
    cases g.kind <;> simp <;> omega

end Circuit

/-! ### Circuits that can be built -/

theorem repeatsInput_pushGate {c : Circuit} (h : ∀ g ∈ c.gates.toList, g.RepeatsInput)
    (hin : g.RepeatsInput) : ∀ g' ∈ (c.pushGate g).gates.toList, g'.RepeatsInput := by
  have hgates : (c.pushGate g).gates.toList = c.gates.toList ++ [g] := by simp [Circuit.pushGate]
  intro g' hg'
  rw [hgates] at hg'
  rcases List.mem_append.mp hg' with hg' | hg'
  · exact h g' hg'
  · rw [List.mem_singleton.mp hg']
    exact hin

/-- The steps of operations append only gates that have their one input twice. -/
theorem upheld_repeatsInput : Upheld (fun c => ∀ g ∈ c.gates.toList, g.RepeatsInput) Set.univ where
  step := by
    intro c c' hs h
    cases hs with
    | wires n => exact h
    | temps n => exact h
    | constant v _ =>
      rw [(Circuit.addConstant_eq (c := c) v).1]
      exact h
    | gate g _ _ hin _ => exact repeatsInput_pushGate h hin
  fresh _ _ := Set.mem_univ _

/-- A gate with one input has it in both places, also where it was replayed from another circuit. -/
theorem Reachable.repeatsInput {c : Circuit} (h : Reachable c) : ∀ g ∈ c.gates.toList, g.RepeatsInput := by
  induction h with
  | empty => simp [Circuit.empty]
  | call call _ _ ih ihtemplate =>
    by_cases ht : call.template? = none
    · exact (Call.keeps_of_template?_eq_none upheld_repeatsInput (fun _ _ h => h) (fun _ _ h => h) ht _ ih).1
    · cases call with
      | instantiate template ins outs =>
        refine (Build.keeps_replay upheld_repeatsInput template (fun c g _ hg h => ?_) ins outs _ ih).1
        obtain ⟨t, ht, hkind, hsame⟩ := hg
        refine repeatsInput_pushGate h fun hunary => hsame ?_
        exact ihtemplate template rfl t ht (hkind ▸ hunary)
      | _ => exact absurd rfl ht

/-- **The statistics measure the depth of the data flow.** They are taken of every circuit that can be
built. The counts are the numbers of gates of each kind and of all gates; and the two depths are the
largest numbers of gates other than copies, and of conjunctions and disjunctions, on a chain that ends
at the last gate driving an output wire, or on any chain if no output bundle is registered. Without such
a chain they are zero. -/
theorem stats_measure_depth {c : Circuit} (hc : Reachable c) :
    ∃ s, c.stats = .ok s ∧
      (∀ kind, s.count kind = (c.gates.toList.filter fun g => g.kind = kind).length) ∧
      s.gates = c.gates.size ∧
      IsGreatest (insert 0 (c.chainsMeasured fun kind => kind != .copy)) s.depth ∧
      IsGreatest (insert 0 (c.chainsMeasured fun kind => kind == .and || kind == .or)) s.nonlinearDepth := by
  have hwf := hc.wellFormed
  have hin := hc.repeatsInput
  have hcost : ∀ kind : GateKind, kind.depthCost = (kind != .copy).toNat := by
    intro kind
    cases kind <;> rfl
  have hcost' : ∀ kind : GateKind, kind.nonlinearCost = (kind == .and || kind == .or).toNat := by
    intro kind
    cases kind <;> rfl
  obtain ⟨d, hd, hdepth⟩ := Circuit.depthBy_isGreatest hwf hin hcost
  obtain ⟨d', hd', hnonlinear⟩ := Circuit.depthBy_isGreatest hwf hin hcost'
  have hcount : ∀ kind, c.countKind kind = c.gates.toList.countP (·.kind = kind) := fun kind => by
    unfold Circuit.countKind
    rw [← Array.countP_toList]
  unfold Circuit.stats
  rw [hd, hd']
  refine ⟨_, rfl, fun kind => ?_, ?_, hdepth, hnonlinear⟩
  · show c.countKind kind = _
    rw [hcount, List.countP_eq_length_filter]
  · show c.countKind .xor + c.countKind .nxor + c.countKind .and + c.countKind .or + c.countKind .inv +
      c.countKind .copy = c.gates.size
    simp only [hcount]
    rw [← Array.length_toList]
    exact (Circuit.length_eq_sum_countP _).symm

/-- A temporary is driven twice by conjunctions and then by an exclusive or, which is what the output
copies: the chain of conjunctions is forgotten. -/
theorem stats_measure_depth_overwritten :
    ∃ (c : Circuit) (s : Stats), Reachable c ∧ c.stats = .ok s ∧ s.gates = 4 ∧ s.count .and = 2 ∧
      s.depth = 1 ∧ IsGreatest (insert 0 (c.chainsMeasured fun kind => kind != .copy)) 1 ∧
      s.nonlinearDepth = 0 := by
  have hc : Reachable (Call.afterAll [.addInput 2, .addTemps 1, .addOutput 1, .gateTo .and ⟨0⟩ ⟨1⟩ ⟨2⟩,
      .gateTo .and ⟨2⟩ ⟨0⟩ ⟨2⟩, .gateTo .xor ⟨0⟩ ⟨1⟩ ⟨2⟩, .copyTo ⟨2⟩ ⟨3⟩]) :=
    reachable_afterAll (by simp [Call.template?])
  obtain ⟨s, hs, hcount, hgates, hdepth, -⟩ := stats_measure_depth hc
  have hread : ((Call.afterAll [.addInput 2, .addTemps 1, .addOutput 1, .gateTo .and ⟨0⟩ ⟨1⟩ ⟨2⟩,
      .gateTo .and ⟨2⟩ ⟨0⟩ ⟨2⟩, .gateTo .xor ⟨0⟩ ⟨1⟩ ⟨2⟩, .copyTo ⟨2⟩ ⟨3⟩]).stats.map
        fun s => (s.depth, s.nonlinearDepth)) = .ok (1, 0) := by
    decide +kernel
  rw [hs] at hread
  obtain ⟨hone, hzero⟩ := Prod.mk.inj (Except.ok.inj hread)
  rw [hone] at hdepth
  exact ⟨_, s, hc, hs, hgates.trans (by decide), (hcount _).trans (by decide), hone, hdepth, hzero⟩

end BitCircuit
