/-
# Shallow adders have logarithmic depth

Joining two spans puts the carry one conjunction and one exclusive or above those of its parts, and
what they propagate one conjunction above. This is all that the network and the tree need
(`Circuit.SpanWithin`, `Build.joined_within`): after `k` levels a carry has risen by `k` such pairs of
gates, whichever spans were joined and whichever gates were folded. The network has a level for each
stride below the number of spans, the tree one for each time this number can be halved, and both are
the same logarithm (`length_strides_le`, `Build.JoinsLevels.reduce_levels`).

Before the spans there is one gate for each position, to subtract with an inverter in front of it, and
after them one exclusive or (`sumLevel`). If only conjunctions and disjunctions count, inverters and
exclusive ors are free.

Key definitions: `Circuit.SpanWithin`, `sumLevel`, `carryLevels`, `Request.depthBounds`.
Key theorems: `Build.koggeStone_within`, `Build.topCarry_within`, `Build.lookahead_shallow`,
`adders_have_logarithmic_depth`.
-/
import BitCircuit.Proofs.Feasibility
import BitCircuit.Proofs.Catalogue
import BitCircuit.Proofs.Integer.Reduce
import BitCircuit.Proofs.Level

namespace BitCircuit

variable {cost : GateKind → Nat}

/-- As many strides as it takes to double `d` up to `n`. -/
theorem length_strides_le (n d : Nat) : ∀ k, n ≤ d * 2 ^ k → (strides n d).length ≤ k := by
  fun_induction strides n d with
  | case1 d hd ih =>
    intro k hk
    cases k with
    | zero =>
      rw [pow_zero, Nat.mul_one] at hk
      omega
    | succ k =>
      have hnext : n ≤ 2 * d * 2 ^ k := by
        rw [Nat.mul_comm 2 d, Nat.mul_assoc, ← pow_succ']
        exact hk
      have hrest := ih k hnext
      rw [List.length_cons]
      omega
  | case2 d hd =>
    intro k _
    exact Nat.zero_le k

theorem length_strides_one_le (n : Nat) : (strides n 1).length ≤ Nat.clog 2 n := by
  refine length_strides_le n 1 _ ?_
  rw [Nat.one_mul]
  exact Nat.le_pow_clog (by decide) n

/-- The cost of what is put in front of the second operand. -/
def Direction.entryCost (cost : GateKind → Nat) : Direction → Nat
  | .addition => 0
  | .subtraction => cost .inv

/-- The level that the bits of a sum of some width stay within, if its operands are at level `n`. -/
def sumLevel (cost : GateKind → Nat) (dir : Direction) (n width : Nat) : Nat :=
  n + dir.entryCost cost + 1 + Nat.clog 2 (width - 1) * (1 + cost .xor) + cost .xor

/-- The span is within the levels that it can have reached after `k` joins from level `n`. -/
structure Circuit.SpanWithin (c : Circuit) (cost : GateKind → Nat) (D : Set Wire) (n k : Nat)
    (s : Span) : Prop where
  generate : c.Within cost D (n + k * (1 + cost .xor)) s.generate
  propagate : c.Within cost D (n + k) s.propagate

namespace Circuit.SpanWithin

variable {c c' : Circuit} {D : Set Wire} {n k k' : Nat} {s : Span}

theorem evolves {D' : Set Wire} (h : c.SpanWithin cost D n k s) (hev : c.Evolves D' c')
    (hD : D' ⊆ D) : c'.SpanWithin cost D n k s :=
  ⟨h.generate.evolves hev hD, h.propagate.evolves hev hD⟩

theorem mono (h : c.SpanWithin cost D n k s) (hk : k ≤ k') : c.SpanWithin cost D n k' s := by
  refine ⟨h.generate.mono ?_, h.propagate.mono (Nat.add_le_add_left hk n)⟩
  exact Nat.add_le_add_left (Nat.mul_le_mul_right _ hk) n

end Circuit.SpanWithin

namespace Build

variable {c c' : Circuit} {D : Set Wire} {n k : Nat} {u : Unit}

/-! ### Joining spans -/

/-- **Two spans joined are one level up**, with what follows. -/
theorem joined_within {hi lo : Span} {skip : Bool} {unused : Wire} {α : Type}
    {f : Wire → Wire → Build α} {a : α} (hcost : CountsGates cost) (hc : c.WellFormed)
    (hD : ∀ w ∈ D, c.Allocated w) (hhi : c.SpanWithin cost D n k hi) (hlo : c.SpanWithin cost D n k lo)
    (hunused : c.Within cost D (n + k) unused)
    (h : (gate .and hi.propagate lo.generate >>= fun t => gate .xor hi.generate t >>= fun g =>
      propagateBoth skip unused lo hi >>= fun p => f g p).exec c = (.ok a, c')) :
    ∃ g p c₁, c.Evolves ∅ c₁ ∧ c₁.SpanWithin cost D n (k + 1) ⟨g, p⟩ ∧
      (f g p).exec c₁ = (.ok a, c') := by
  obtain ⟨t, c₁, ht, h⟩ := exec_bind_eq_ok.mp h
  obtain ⟨g, c₂, hgate, h⟩ := exec_bind_eq_ok.mp h
  obtain ⟨p, c₃, hboth, hf⟩ := exec_bind_eq_ok.mp h
  have hand : cost .and ≤ 1 := hcost.le_one .and
  have hrise : n + k ≤ n + k * (1 + cost .xor) :=
    Nat.add_le_add_left (Nat.le_mul_of_pos_right k (by omega)) n
  obtain ⟨hev₁, ht⟩ := gate_within hcost hc hD (hhi.propagate.mono hrise) hlo.generate ht
  have hhi₁ := hhi.generate.evolves hev₁ (Set.empty_subset D)
  obtain ⟨hev₂, hg⟩ := gate_within hcost hev₁.wellFormed (hev₁.all_allocated hD)
    (hhi₁.mono (Nat.le_add_right _ (cost .and))) ht hgate
  have hev : c.Evolves ∅ c₂ := hev₁.trans_same hev₂
  have hcarry : n + k * (1 + cost .xor) + cost .and + cost .xor ≤ n + (k + 1) * (1 + cost .xor) := by
    rw [Nat.succ_mul]
    omega
  cases skip with
  | true =>
    obtain ⟨rfl, rfl⟩ := exec_pure_eq_ok.mp hboth
    have hp := (hunused.evolves hev (Set.empty_subset D)).mono (Nat.le_succ (n + k))
    exact ⟨g, _, _, hev, ⟨hg.mono hcarry, hp⟩, hf⟩
  | false =>
    obtain ⟨hev₃, hp⟩ := gate_within hcost hev.wellFormed (hev.all_allocated hD)
      (hhi.propagate.evolves hev (Set.empty_subset D)) (hlo.propagate.evolves hev (Set.empty_subset D))
      hboth
    have hg₃ := (hg.mono hcarry).evolves hev₃ (Set.empty_subset D)
    exact ⟨g, p, c₃, hev.trans_same hev₃, ⟨hg₃, hp.mono (by omega)⟩, hf⟩

/-- A level of the network, whatever is joined to what. -/
theorem joinStride_within (hcost : CountsGates cost) : ∀ {his los below out : List Span}
    {c c' : Circuit}, c.WellFormed → (∀ w ∈ D, c.Allocated w) →
    (∀ s ∈ his, c.SpanWithin cost D n k s) → (∀ s ∈ los, c.SpanWithin cost D n k s) →
    (joinStride his los below).exec c = (.ok out, c') →
    c.Evolves ∅ c' ∧ ∀ s ∈ out, c'.SpanWithin cost D n (k + 1) s
  | [], los, below, out, c, c', hc, _, _, _, h => by
    rw [joinStride.eq_2 _ _ _ (by simp)] at h
    obtain ⟨rfl, rfl⟩ := exec_pure_eq_ok.mp h
    exact ⟨.refl hc ∅, by simp⟩
  | hi :: his, [], below, out, c, c', hc, _, hhis, _, h => by
    rw [joinStride.eq_2 _ _ _ (by simp)] at h
    obtain ⟨rfl, rfl⟩ := exec_pure_eq_ok.mp h
    exact ⟨.refl hc ∅, fun s hs => (hhis s hs).mono (Nat.le_succ k)⟩
  | hi :: his, lo :: los, below, out, c, c', hc, hD, hhis, hlos, h => by
    obtain ⟨hhi, hhis⟩ := List.forall_mem_cons.mp hhis
    obtain ⟨hlo, hlos⟩ := List.forall_mem_cons.mp hlos
    rw [joinStride] at h
    obtain ⟨g, p, c₁, hev, hjoined, h⟩ := joined_within hcost hc hD hhi hlo hhi.propagate h
    obtain ⟨rest, c₂, hrest, h⟩ := exec_bind_eq_ok.mp h
    obtain ⟨rfl, rfl⟩ := exec_pure_eq_ok.mp h
    obtain ⟨hev', hspans⟩ := joinStride_within hcost hev.wellFormed (hev.all_allocated hD)
      (fun s hs => (hhis s hs).evolves hev (Set.empty_subset D))
      (fun s hs => (hlos s hs).evolves hev (Set.empty_subset D)) hrest
    exact ⟨hev.trans_same hev',
      List.forall_mem_cons.mpr ⟨hjoined.evolves hev' (Set.empty_subset D), hspans⟩⟩

/-- All levels of the network. -/
theorem joinStrides_within (hcost : CountsGates cost) : ∀ {ds : List Nat} {k : Nat}
    {spans out : List Span} {c c' : Circuit}, c.WellFormed → (∀ w ∈ D, c.Allocated w) →
    (∀ s ∈ spans, c.SpanWithin cost D n k s) →
    (ds.foldlM (fun top d => joinStride top (top.drop d) (top.drop (2 * d))) spans).exec c =
      (.ok out, c') →
    c.Evolves ∅ c' ∧ ∀ s ∈ out, c'.SpanWithin cost D n (k + ds.length) s
  | [], k, spans, out, c, c', hc, _, hspans, h => by
    obtain ⟨rfl, rfl⟩ := exec_pure_eq_ok.mp h
    exact ⟨.refl hc ∅, hspans⟩
  | d :: ds, k, spans, out, c, c', hc, hD, hspans, h => by
    rw [List.foldlM_cons] at h
    obtain ⟨joined, c₁, hjoin, h⟩ := exec_bind_eq_ok.mp h
    obtain ⟨hev, hjoined⟩ := joinStride_within hcost hc hD hspans
      (fun s hs => hspans s (List.mem_of_mem_drop hs)) hjoin
    obtain ⟨hev', hout⟩ := joinStrides_within hcost hev.wellFormed (hev.all_allocated hD) hjoined h
    refine ⟨hev.trans_same hev', fun s hs => (hout s hs).mono ?_⟩
    rw [List.length_cons]
    omega

/-- **The carries of the network rise logarithmically.** -/
theorem koggeStone_within {spans : List Span} {carries : Bundle} (hcost : CountsGates cost)
    (hc : c.WellFormed) (hD : ∀ w ∈ D, c.Allocated w) (hspans : ∀ s ∈ spans, c.SpanWithin cost D n 0 s)
    (h : (koggeStone spans).exec c = (.ok carries, c')) :
    c.Evolves ∅ c' ∧ ∀ w ∈ carries,
      c'.Within cost D (n + Nat.clog 2 spans.length * (1 + cost .xor)) w := by
  unfold koggeStone at h
  obtain ⟨top, c₁, hstrides, h⟩ := exec_bind_eq_ok.mp h
  obtain ⟨rfl, rfl⟩ := exec_pure_eq_ok.mp h
  obtain ⟨hev, htop⟩ := joinStrides_within hcost hc hD
    (fun s hs => hspans s (List.mem_reverse.mp hs)) hstrides
  refine ⟨hev, fun w hw => ?_⟩
  obtain ⟨s, hs, rfl⟩ := List.mem_map.mp hw
  have hle : 0 + (strides spans.length 1).length ≤ Nat.clog 2 spans.length := by
    rw [Nat.zero_add]
    exact length_strides_one_le _
  exact ((htop s (List.mem_reverse.mp hs)).mono hle).generate

/-- Joining neighbours in the tree. -/
theorem joinSpans_levels (hcost : CountsGates cost) (D : Set Wire) (n : Nat) :
    JoinsLevels D (fun _ k c s => c.SpanWithin cost D n k s) joinSpans where
  kept hs hev := hs.evolves hev subset_rfl
  carried hs := hs.mono (Nat.le_succ _)
  joined hc hD hlo hhi h := by
    obtain ⟨g, p, c₁, hev, hjoined, h⟩ := joined_within hcost hc hD hhi hlo hlo.propagate h
    obtain ⟨rfl, rfl⟩ := exec_pure_eq_ok.mp h
    exact ⟨hev.of_empty D, hjoined⟩

/-- **The carry of the tree rises logarithmically.** -/
theorem topCarry_within {spans : List Span} {w : Wire} (hcost : CountsGates cost) (hc : c.WellFormed)
    (hD : ∀ w ∈ D, c.Allocated w) (hspans : ∀ s ∈ spans, c.SpanWithin cost D n 0 s)
    (h : (topCarry spans).exec c = (.ok w, c')) :
    c'.Within cost D (n + Nat.clog 2 spans.length * (1 + cost .xor)) w := by
  unfold topCarry at h
  obtain ⟨top, c₁, hreduce, h⟩ := exec_bind_eq_ok.mp h
  obtain ⟨rfl, rfl⟩ := exec_pure_eq_ok.mp h
  cases spans with
  | nil => exact (exec_throw_eq_ok.mp hreduce).elim
  | cons first rest =>
    obtain ⟨hfirst, hrest⟩ := List.forall_mem_cons.mp hspans
    obtain ⟨-, htop⟩ := (joinSpans_levels hcost D n).reduce_levels hc hD hfirst hrest hreduce
    rw [Nat.zero_add] at htop
    exact htop.generate

/-! ### The adder -/

theorem extend_within {enc : Encoding} {width : Nat} {a x : Bundle} (hc : c.WellFormed)
    (ha : ∀ w ∈ a, c.Within cost D n w) (h : (extend enc width a).exec c = (.ok x, c')) :
    c.Evolves ∅ c' ∧ x.length = width ∧ ∀ w ∈ x, c'.Within cost D n w := by
  obtain ⟨hev, hlen, hx⟩ := extend_wires hc h
  refine ⟨hev, hlen, fun w hw => ?_⟩
  rcases hx w hw with hmem | hgiven
  · exact (ha w hmem).evolves hev (Set.empty_subset D)
  · exact Circuit.within_given hev.wellFormed hgiven

theorem addend_within {dir : Direction} {y y' : Bundle} (hc : c.WellFormed)
    (hD : ∀ w ∈ D, c.Allocated w) (hy : ∀ w ∈ y, c.Within cost D n w)
    (h : (addend dir y).exec c = (.ok y', c')) :
    c.Evolves ∅ c' ∧ ∀ w ∈ y', c'.Within cost D (n + dir.entryCost cost) w := by
  cases dir with
  | addition =>
    obtain ⟨rfl, rfl⟩ := exec_pure_eq_ok.mp h
    exact ⟨.refl hc ∅, hy⟩
  | subtraction => exact mapM_inv_within hc hD hy h

/-- What the positions generate is one gate above the columns. -/
theorem generateBits_within {dir : Direction} {columns : List (Wire × Wire)} {g : Bundle}
    (hcost : CountsGates cost) (hc : c.WellFormed) (hD : ∀ w ∈ D, c.Allocated w)
    (hcol : ∀ q ∈ columns, c.Within cost D n q.1 ∧ c.Within cost D n q.2)
    (h : (generateBits dir columns).exec c = (.ok g, c')) :
    c.Evolves ∅ c' ∧ ∀ w ∈ g, c'.Within cost D (n + 1) w := by
  unfold generateBits at h
  obtain ⟨ands, c₁, hrun, h⟩ := exec_bind_eq_ok.mp h
  obtain ⟨hev, hall⟩ := mapM_gate_within hcost hc hD
    (fun q hq => hcol q (List.dropLast_subset _ hq)) hrun
  have hands : ∀ w ∈ ands, c₁.Within cost D (n + 1) w := fun w hw =>
    (hall w hw).mono (Nat.add_le_add_left (hcost.le_one .and) n)
  clear hrun hall
  split at h
  · rename_i x y tail first rest _
    -- a subtraction has a disjunction in the place of the lowest conjunction
    obtain ⟨o, c₂, hor, h⟩ := exec_bind_eq_ok.mp h
    obtain ⟨rfl, rfl⟩ := exec_pure_eq_ok.mp h
    obtain ⟨hx, hy⟩ := hcol (x, y) List.mem_cons_self
    obtain ⟨hev₂, ho⟩ := gate_within hcost hev.wellFormed (hev.all_allocated hD)
      (hx.evolves hev (Set.empty_subset D)) (hy.evolves hev (Set.empty_subset D)) hor
    refine ⟨hev.trans_same hev₂, List.forall_mem_cons.mpr ⟨?_, fun w hw => ?_⟩⟩
    · exact ho.mono (Nat.add_le_add_left (hcost.le_one .or) n)
    · exact (hands w (List.mem_cons_of_mem first hw)).evolves hev₂ (Set.empty_subset D)
  · obtain ⟨rfl, rfl⟩ := exec_pure_eq_ok.mp h
    exact ⟨hev, hands⟩

/-- The lowest sum bit is at most an inverter above what its position propagates. -/
theorem driveLowest_shallow {dir : Direction} {targets : List (Option Wire)} {p : Bundle} {m : Nat}
    (hcost : CountsGates cost) (hc : c.WellFormed) (hD : ∀ t ∈ targets, ∀ w ∈ t, w ∈ D)
    (hp : ∀ w ∈ p, c.Within cost D n w) (hm : n + dir.entryCost cost ≤ m) (hlow : c.Shallow cost D m)
    (h : (driveLowest dir targets p).exec c = (.ok u, c')) :
    c.Evolves D c' ∧ c'.Shallow cost D m := by
  unfold driveLowest at h
  split at h
  · obtain ⟨-, rfl⟩ := exec_pure_eq_ok.mp h
    exact ⟨.refl hc D, hlow⟩
  · rename_i out targets p₀ ps
    have hout : {out} ⊆ D := Set.singleton_subset_iff.mpr (hD _ List.mem_cons_self out rfl)
    have hp₀ := (hp p₀ List.mem_cons_self).level_le
    cases dir with
    | addition =>
      have hev := (copyTo_spec hc h).toEvolves
      exact ⟨hev.mono hout, hlow.drives hev ((copyTo_level hcost hp₀ h).trans hm)⟩
    | subtraction =>
      have hev := (invTo_spec hc h).toEvolves
      exact ⟨hev.mono hout, hlow.drives hev ((invTo_level hcost hc hp₀ h).trans hm)⟩
  · exact (exec_throw_eq_ok.mp h).elim

/-- The other sum bits are an exclusive or above the carries. -/
theorem driveUpper_shallow {sink : Sink} {p : Bundle} {spans : List Span} {m : Nat}
    (hcost : CountsGates cost) (hc : c.WellFormed) (hD : ∀ w ∈ sink.wires, w ∈ D)
    (hp : ∀ w ∈ p, c.Within cost D n w) (hspans : ∀ s ∈ spans, c.SpanWithin cost D n 0 s)
    (hm : n + Nat.clog 2 spans.length * (1 + cost .xor) + cost .xor ≤ m) (hlow : c.Shallow cost D m)
    (h : (driveUpper p spans sink).exec c = (.ok u, c')) : c'.Shallow cost D m := by
  have hrise : n ≤ n + Nat.clog 2 spans.length * (1 + cost .xor) := Nat.le_add_right n _
  have hp := fun w hw => (hp w hw).mono hrise
  unfold driveUpper at h
  split at h
  · rename_i out
    obtain ⟨carries, c₁, hcarries, h⟩ := exec_bind_eq_ok.mp h
    obtain ⟨pc, hpc, h⟩ := exec_check_bind.mp h
    obtain ⟨l, hl, h⟩ := exec_check_bind.mp h
    obtain ⟨-, rfl⟩ := inStep_eq_ok.mp hpc
    obtain ⟨-, rfl⟩ := inStep_eq_ok.mp hl
    obtain ⟨hev, hcarries⟩ := koggeStone_within hcost hc hlow.allocated hspans hcarries
    refine forM_gateTo_shallow hcost hm hev.wellFormed (fun q hq => ?_) (fun q hq => ?_)
      (hlow.evolves hev) h
    · exact hD _ (List.mem_of_mem_tail (List.of_mem_zip hq).2)
    · obtain ⟨hq₁, hq₂⟩ := List.of_mem_zip (List.of_mem_zip hq).1
      exact ⟨(hp _ (List.mem_of_mem_tail hq₁)).evolves hev (Set.empty_subset D), hcarries _ hq₂⟩
  · obtain ⟨-, rfl⟩ := exec_pure_eq_ok.mp h
    exact hlow
  · rename_i position out _
    obtain ⟨carry, c₁, hcarry, h⟩ := exec_bind_eq_ok.mp h
    obtain ⟨top, htop, h⟩ := exec_check_bind.mp h
    have hev : c.Evolves ∅ c₁ := (keeps_topCarry (c.upheld_evolves ∅) spans).evolves hc hcarry
    have hw := topCarry_within hcost hc hlow.allocated hspans hcarry
    have htop := (hp top (mem_of_wireAt htop)).evolves hev (Set.empty_subset D)
    have hlevel := gateTo_level hcost hev.wellFormed htop.level_le hw.level_le h
    exact (hlow.evolves hev).drives (gateTo_spec hev.wellFormed h).toEvolves (hlevel.trans hm)

/-- **A shallow adder puts its results within a logarithmic level** above its operands, in any circuit
and to any width. -/
theorem lookahead_shallow {a b : Bundle} (sink : Sink) {enc : Encoding} {dir : Direction} {width : Nat}
    (hcost : CountsGates cost) (hc : c.WellFormed) (hwidth : sink.width = .ok width)
    (ha : ∀ w ∈ a ++ b, c.Within cost {w | w ∈ sink.wires} n w)
    (hlow : c.Shallow cost {w | w ∈ sink.wires} (sumLevel cost dir n width))
    (h : (lookahead a b sink enc dir).exec c = (.ok u, c')) :
    c'.Shallow cost {w | w ∈ sink.wires} (sumLevel cost dir n width) := by
  obtain ⟨haa, hab⟩ := List.forall_mem_append.mp ha
  unfold lookahead at h
  obtain ⟨width', hwidth', h⟩ := exec_check_bind.mp h
  obtain rfl : width = width' := Except.ok.inj (hwidth.symm.trans hwidth')
  obtain ⟨x, c₁, hx, h⟩ := exec_bind_eq_ok.mp h
  obtain ⟨y, c₂, hy, h⟩ := exec_bind_eq_ok.mp h
  obtain ⟨y', c₃, hy', h⟩ := exec_bind_eq_ok.mp h
  obtain ⟨columns, hcolumns, h⟩ := exec_check_bind.mp h
  obtain ⟨p, c₄, hp, h⟩ := exec_bind_eq_ok.mp h
  obtain ⟨g, c₅, hg, h⟩ := exec_bind_eq_ok.mp h
  obtain ⟨u₁, c₆, hlowest, h⟩ := exec_bind_eq_ok.mp h
  obtain ⟨spans, hspans, h⟩ := exec_check_bind.mp h
  obtain ⟨hlen, rfl⟩ := inStep_eq_ok.mp hcolumns
  obtain ⟨hlen', rfl⟩ := inStep_eq_ok.mp hspans
  have hnone := Set.empty_subset {w | w ∈ sink.wires}
  -- the operands at the width of the sink
  obtain ⟨hev₁, hxlen, hx⟩ := extend_within hc haa hx
  obtain ⟨hev₂, -, hy⟩ := extend_within hev₁.wellFormed
    (fun w hw => (hab w hw).evolves hev₁ hnone) hy
  have hlow₂ := (hlow.evolves hev₁).evolves hev₂
  obtain ⟨hev₃, hy'⟩ := addend_within hev₂.wellFormed hlow₂.allocated hy hy'
  have hlow₃ := hlow₂.evolves hev₃
  have hcol : ∀ q ∈ x.zip y', c₃.Within cost {w | w ∈ sink.wires} (n + dir.entryCost cost) q.1 ∧
      c₃.Within cost {w | w ∈ sink.wires} (n + dir.entryCost cost) q.2 := by
    intro q hq
    obtain ⟨hqx, hqy⟩ := List.of_mem_zip hq
    have hxq := ((hx _ hqx).evolves hev₂ hnone).evolves hev₃ hnone
    exact ⟨hxq.mono (Nat.le_add_right n _), hy' _ hqy⟩
  -- what the positions propagate and generate
  have hplen := length_of_mapM hp
  obtain ⟨hev₄, hp⟩ := mapM_gate_within hcost hev₃.wellFormed hlow₃.allocated hcol hp
  have hlow₄ := hlow₃.evolves hev₄
  obtain ⟨hev₅, hg⟩ := generateBits_within hcost hev₄.wellFormed hlow₄.allocated
    (fun q hq => (hcol q hq).imp (·.evolves hev₄ hnone) (·.evolves hev₄ hnone)) hg
  have hp : ∀ w ∈ p, c₅.Within cost {w | w ∈ sink.wires} (n + dir.entryCost cost + 1) w := fun w hw =>
    ((hp w hw).mono (Nat.add_le_add_left (hcost.le_one .xor) _)).evolves hev₅ hnone
  have hspan : (g.zip p.dropLast).length = width - 1 := by
    rw [List.length_zip, hlen', Nat.min_self, List.length_dropLast, hplen, List.length_zip, ← hlen,
      Nat.min_self, hxlen]
  -- the sum bits; the inverter below the lowest one costs no more than an exclusive or
  have hentry : n + dir.entryCost cost + 1 + dir.entryCost cost ≤ sumLevel cost dir n width := by
    have hinv : dir.entryCost cost ≤ cost .xor := by
      cases dir with
      | addition => exact Nat.zero_le _
      | subtraction => exact hcost.inv_le_xor
    unfold sumLevel
    omega
  obtain ⟨hev₆, hlow₆⟩ := driveLowest_shallow hcost hev₅.wellFormed (fun t ht => mem_of_targets ht) hp
    hentry (hlow₄.evolves hev₅) hlowest
  refine driveUpper_shallow hcost hev₆.wellFormed (fun w hw => hw)
    (fun w hw => (hp w hw).evolves hev₆ subset_rfl) (fun s hs => ?_) ?_ hlow₆ h
  · obtain ⟨q, hq, rfl⟩ := List.mem_map.mp hs
    obtain ⟨hqg, hqp⟩ := List.of_mem_zip hq
    have hzero : 0 * (1 + cost .xor) = 0 := Nat.zero_mul _
    refine ⟨((hg _ hqg).evolves hev₆ subset_rfl).mono (by omega), ?_⟩
    exact (hp _ (List.dropLast_subset _ hqp)).evolves hev₆ subset_rfl
  · rw [List.length_map, hspan]
    exact Nat.le_refl _

/-! ### What is built on the adder -/

section Operations

variable {a b out temps : Bundle} {enc : Encoding} {dir : Direction} (hcost : CountsGates cost)
  (hc : c.WellFormed) (ha : ∀ w ∈ a ++ b, c.Within cost {w | w ∈ out} n w)
  (hlow : c.Shallow cost {w | w ∈ out} 0)
include hcost hc ha hlow

theorem addSub_shallow (h : (addSub dir a b out temps enc .depth).exec c = (.ok u, c')) :
    c'.Shallow cost {w | w ∈ out} (sumLevel cost dir n out.length) := by
  unfold addSub addLookahead at h
  obtain ⟨-, -, h⟩ := exec_check_bind.mp h
  exact lookahead_shallow (.all out) hcost hc rfl ha (hlow.mono (Nat.zero_le _)) h

theorem sumBit_shallow {position : Nat}
    (h : (sumBit a b out temps position enc dir .depth).exec c = (.ok u, c')) :
    c'.Shallow cost {w | w ∈ out} (sumLevel cost dir n (position + 1)) := by
  unfold sumBit at h
  obtain ⟨u₁, hone, h⟩ := exec_check_bind.mp h
  obtain ⟨o, ho, h⟩ := exec_check_bind.mp h
  obtain ⟨-, -, hadder⟩ := exec_check_bind.mp h
  obtain rfl := eq_singleton_of_wireAt hone ho
  obtain ⟨width, hwidth, -⟩ := exec_check_bind.mp hadder
  have hlen : position + 1 = width := by
    rw [← Sink.length_targets hwidth]
    simp [Sink.targets]
  exact lookahead_shallow (.bit position o) hcost hc (hlen ▸ hwidth) ha
    (hlow.mono (Nat.zero_le _)) hadder

theorem lessThan_shallow (h : (lessThan a b out enc .depth).exec c = (.ok u, c')) :
    c'.Shallow cost {w | w ∈ out}
      (sumLevel cost .subtraction n (max a.length b.length + 1)) := by
  unfold lessThan at h
  iterate 2 obtain ⟨-, -, h⟩ := exec_check_bind.mp h
  obtain ⟨temps, c₁, htemps, hbit⟩ := exec_bind_eq_ok.mp h
  obtain ⟨rfl, rfl⟩ := exec_pure_eq_ok.mp htemps
  exact sumBit_shallow hcost hc ha hlow hbit

/-- The inverter at the end of a comparison comes on top. -/
theorem atLeast_shallow (h : (atLeast a b out enc .depth).exec c = (.ok u, c')) :
    c'.Shallow cost {w | w ∈ out}
      (sumLevel cost .subtraction n (max a.length b.length + 1) + cost .inv) := by
  unfold atLeast at h
  obtain ⟨u₁, hone, h⟩ := exec_check_bind.mp h
  obtain ⟨less, c₁, hnew, h⟩ := exec_bind_eq_ok.mp h
  obtain ⟨u₂, c₂, hless, h⟩ := exec_bind_eq_ok.mp h
  obtain ⟨l, hl, h⟩ := exec_check_bind.mp h
  obtain ⟨o, ho, hinv⟩ := exec_check_bind.mp h
  obtain rfl := eq_singleton_of_wireAt hone ho
  obtain ⟨hspawn, -⟩ := newBundle_spec hc hnew
  -- the operands are none of the new wires
  have ha₁ : ∀ w ∈ a ++ b, c₁.Within cost {w | w ∈ less} n w := by
    intro w hw
    have hlevel := ((ha w hw).evolves hspawn.toEvolves (Set.empty_subset _)).level_le
    exact ⟨⟨hspawn.allocated (ha w hw).allocated, .inl fun hm => hspawn.fresh w hm (ha w hw).allocated⟩,
      hlevel⟩
  have hlow₂ := lessThan_shallow hcost hspawn.wellFormed ha₁ (newBundle_shallow hc hnew) hless
  have hev₂ : c₁.Evolves {w | w ∈ less} c₂ :=
    (keeps_lessThan (c₁.upheld_evolves _) fun w hw => .inl hw).evolves hspawn.wellFormed hless
  have hset := invTo_spec hev₂.wellFormed hinv
  have hle := invTo_level hcost hev₂.wellFormed (hlow₂ l (mem_of_wireAt hl)).2 hinv
  intro w hw
  obtain rfl := List.mem_singleton.mp hw
  exact ⟨hset.readable.allocated, hle⟩

end Operations

end Build

/-! ### Circuits of requests -/

/-- The levels of carries in a sum of width `n`. -/
def carryLevels (n : Nat) : Nat := Nat.clog 2 (max 1 (n - 1))

theorem carryLevels_eq (n : Nat) : carryLevels n = Nat.clog 2 (n - 1) := by
  unfold carryLevels
  by_cases h : 1 ≤ n - 1
  · rw [Nat.max_eq_right h]
  · have hzero : n - 1 = 0 := by omega
    rw [hzero]
    rfl

theorem sumLevel_depthCost (dir : Direction) (n : Nat) : sumLevel GateKind.depthCost dir 0 n =
    2 * carryLevels n + dir.entryCost GateKind.depthCost + 2 := by
  rw [sumLevel, carryLevels_eq]
  have hxor : GateKind.depthCost .xor = 1 := rfl
  rw [hxor]
  omega

theorem sumLevel_nonlinearCost (dir : Direction) (n : Nat) :
    sumLevel GateKind.nonlinearCost dir 0 n = carryLevels n + 1 := by
  have hentry : dir.entryCost GateKind.nonlinearCost = 0 := by cases dir <;> rfl
  have hxor : GateKind.nonlinearCost .xor = 0 := rfl
  rw [sumLevel, carryLevels_eq, hentry, hxor]
  omega

namespace Request

open Build

/-- How deep the circuit of a shallow adder may be: in all gates but copies, and in conjunctions and
disjunctions. -/
def depthBounds : Request → Option (Nat × Nat)
  | .addSub .addition _ _ _ c .depth => some (2 * carryLevels c + 2, carryLevels c + 1)
  | .addSub .subtraction _ _ _ c .depth => some (2 * carryLevels c + 3, carryLevels c + 1)
  | .addMsb a .depth => some (2 * carryLevels a + 2, carryLevels a + 1)
  | .subMsb _ a b .depth => some (2 * carryLevels (max a b) + 3, carryLevels (max a b) + 1)
  | .lessThan _ a b .depth => some (2 * carryLevels (max a b + 1) + 3, carryLevels (max a b + 1) + 1)
  | .atLeast _ a b .depth => some (2 * carryLevels (max a b + 1) + 4, carryLevels (max a b + 1) + 1)
  | _ => none

variable {r : Request} {c : Circuit} {a b n : Nat} {op : Bundle → Bundle → Bundle → Build Unit}

/-- The statistics of a request whose operation keeps its results within some level. -/
theorem stats_of_shallow {f : (GateKind → Nat) → Nat} (hr : r.build = buildBinary a b n op)
    (hbundles : r.bundles = [a, b, n])
    (hkeeps : ∀ (I : Circuit → Prop) (free : Set Wire), Upheld I free → ∀ x y out : Bundle,
      (∀ w ∈ out, w ∈ free) → Keeps I (op x y out) fun _ => True)
    (hop : ∀ (cost : GateKind → Nat) (c c' : Circuit) (x y out : Bundle) (u : Unit), CountsGates cost →
      c.WellFormed → x.length = a → y.length = b → out.length = n →
      (∀ w ∈ x ++ y, c.Within cost {w | w ∈ out} 0 w) → c.Shallow cost {w | w ∈ out} 0 →
      (op x y out).exec c = (.ok u, c') → c'.Shallow cost {w | w ∈ out} (f cost))
    (h : r.circuit = .ok c) : ∃ s, c.stats = .ok s ∧ s.depth ≤ f GateKind.depthCost ∧
      s.nonlinearDepth ≤ f GateKind.nonlinearCost := by
  obtain ⟨x, y, out, hx, hy, hout, hreg, hrun⟩ := run_of_circuit hr hbundles h
  have hev : (operands a b n).Evolves {w | w ∈ out} c :=
    (hkeeps _ _ (Circuit.upheld_evolves _ _) x y out fun w hw => .inl hw).evolves hreg.wellFormed hrun
  have hshallow : ∀ cost, CountsGates cost → c.Shallow cost {w | w ∈ out} (f cost) := by
    intro cost hcost
    refine hop cost _ _ x y out () hcost hreg.wellFormed hx hy hout (fun w hw => ?_) (fun w hw => ?_) hrun
    · refine Circuit.within_given hreg.wellFormed ?_
      rcases List.mem_append.mp hw with hw | hw
      · exact hreg.given (by simp) w hw
      · exact hreg.given (by simp) w hw
    · -- there are no gates yet
      refine ⟨hreg.allocated (by simp) w hw, Nat.le_of_eq ?_⟩
      rfl
  exact Circuit.stats_le hev.wellFormed (hev.outputs.trans hreg.outputs)
    (hshallow _ countsGates_depthCost) (hshallow _ countsGates_nonlinearCost)

/-- An adder that writes all bits. -/
theorem addSub_depth {dir : Direction} {enc : Encoding}
    (h : (Request.addSub dir enc a b n .depth).circuit = .ok c) : ∃ s, c.stats = .ok s ∧
      s.depth ≤ 2 * carryLevels n + dir.entryCost GateKind.depthCost + 2 ∧
      s.nonlinearDepth ≤ carryLevels n + 1 := by
  rw [← sumLevel_depthCost, ← sumLevel_nonlinearCost dir]
  refine stats_of_shallow (a := a) (b := b) (n := n) (f := fun cost => sumLevel cost dir 0 n) rfl rfl ?_ ?_ h
  · intro I free hI x y out hout
    exact .bind (keeps_adderTemps hI .depth) fun temps htemps => keeps_addSub hI hout htemps
  · intro cost c c' x y out u hcost hc _ _ hlen hxy hlow hrun
    obtain ⟨temps, c₁, htemps, hadd⟩ := exec_bind_eq_ok.mp hrun
    obtain ⟨rfl, rfl⟩ := exec_pure_eq_ok.mp htemps
    exact hlen ▸ addSub_shallow hcost hc hxy hlow hadd

/-- An adder for the top bit. -/
theorem buildMsb_depth {dir : Direction} {enc : Encoding} (hr : r.build = buildMsb dir enc a b .depth)
    (hbundles : r.bundles = [a, b, 1]) (hvalid : r.Valid → 1 ≤ a) (h : r.circuit = .ok c) :
    ∃ s, c.stats = .ok s ∧
      s.depth ≤ 2 * carryLevels (max a b) + dir.entryCost GateKind.depthCost + 2 ∧
      s.nonlinearDepth ≤ carryLevels (max a b) + 1 := by
  rw [← sumLevel_depthCost, ← sumLevel_nonlinearCost dir]
  refine stats_of_shallow (f := fun cost => sumLevel cost dir 0 (max a b)) hr hbundles ?_ ?_ h
  · intro I free hI x y out hout
    exact .bind (keeps_adderTemps hI .depth) fun temps htemps => keeps_sumBit hI hout htemps
  · intro cost c' c'' x y out u hcost hc _ _ _ hxy hlow hrun
    obtain ⟨temps, c₁, htemps, hbit⟩ := exec_bind_eq_ok.mp hrun
    obtain ⟨rfl, rfl⟩ := exec_pure_eq_ok.mp htemps
    have hpos := hvalid (valid_of_circuit h).1
    have hwidth : max a b - 1 + 1 = max a b := by omega
    exact hwidth ▸ sumBit_shallow hcost hc hxy hlow hbit

theorem lessThan_depth {enc : Encoding} (h : (Request.lessThan enc a b .depth).circuit = .ok c) :
    ∃ s, c.stats = .ok s ∧ s.depth ≤ 2 * carryLevels (max a b + 1) + 3 ∧
      s.nonlinearDepth ≤ carryLevels (max a b + 1) + 1 := by
  have hbound := stats_of_shallow (a := a) (b := b) (n := 1)
    (f := fun cost => sumLevel cost .subtraction 0 (max a b + 1)) rfl rfl
    (fun I free hI x y out hout => keeps_lessThan hI hout)
    (fun cost c c' x y out u hcost hc hx hy _ hxy hlow hrun => by
      rw [← hx, ← hy]
      exact lessThan_shallow hcost hc hxy hlow hrun) h
  rwa [sumLevel_depthCost, sumLevel_nonlinearCost] at hbound

theorem atLeast_depth {enc : Encoding} (h : (Request.atLeast enc a b .depth).circuit = .ok c) :
    ∃ s, c.stats = .ok s ∧ s.depth ≤ 2 * carryLevels (max a b + 1) + 4 ∧
      s.nonlinearDepth ≤ carryLevels (max a b + 1) + 1 := by
  have hbound := stats_of_shallow (a := a) (b := b) (n := 1)
    (f := fun cost => sumLevel cost .subtraction 0 (max a b + 1) + cost .inv) rfl rfl
    (fun I free hI x y out hout => keeps_atLeast hI hout)
    (fun cost c c' x y out u hcost hc hx hy _ hxy hlow hrun => by
      rw [← hx, ← hy]
      exact atLeast_shallow hcost hc hxy hlow hrun) h
  rwa [sumLevel_depthCost, sumLevel_nonlinearCost] at hbound

theorem depth_of_circuit {d k : Nat} (hr : r.depthBounds = some (d, k)) (h : r.circuit = .ok c) :
    ∃ s, c.stats = .ok s ∧ s.depth ≤ d ∧ s.nonlinearDepth ≤ k := by
  unfold depthBounds at hr
  split at hr
  · cases hr
    exact addSub_depth h
  · cases hr
    exact addSub_depth h
  · cases hr
    have hbound := buildMsb_depth rfl rfl id h
    rwa [Nat.max_self] at hbound
  · cases hr
    exact buildMsb_depth rfl rfl And.left h
  · cases hr
    exact lessThan_depth h
  · cases hr
    exact atLeast_depth h
  · cases hr

end Request

open Catalogue in
/-- **Shallow adders have logarithmic depth.** Whatever a catalogue was asked before, it has a circuit
for the sum or difference of all widths that a bundle can have, for their top bit and for the
comparisons. Its depth is at most twice the levels of carries and a few gates more, its depth in
conjunctions and disjunctions at most one more than the levels of carries. -/
theorem adders_have_logarithmic_depth (before : List Request) (r : Request) (d k : Nat)
    (hr : r.depthBounds = some (d, k)) :
    (r.Valid → r.Fits → ∃ c, ((afterAll before).serve r).result = .ok c) ∧
    ∀ c, ((afterAll before).serve r).result = .ok c →
      ∃ s, c.stats = .ok s ∧ s.depth ≤ d ∧ s.nonlinearDepth ≤ k := by
  rw [(holds_afterAll before).result_eq r]
  exact ⟨Request.exists_circuit, fun c h => Request.depth_of_circuit hr h⟩

/-- A comparison of 63 and 64 bits, after an adder was asked for: the difference has 65 bits and so six
levels of carries. -/
theorem adders_have_logarithmic_depth_sixty_four :
    ∃ c s, ((Catalogue.afterAll [.addSub .addition .unsigned 1 1 1 .depth]).serve
      (.atLeast .twosComplement 63 64 .depth)).result = .ok c ∧ c.stats = .ok s ∧ s.depth ≤ 16 ∧
        s.nonlinearDepth ≤ 7 := by
  obtain ⟨hserved, hdepth⟩ := adders_have_logarithmic_depth
    [.addSub .addition .unsigned 1 1 1 .depth] (.atLeast .twosComplement 63 64 .depth) 16 7 (by decide +kernel)
  obtain ⟨c, hc⟩ := hserved ⟨by decide, by decide⟩ (by decide)
  obtain ⟨s, hs, hd, hk⟩ := hdepth c hc
  exact ⟨c, s, hc, hs, hd, hk⟩

end BitCircuit
