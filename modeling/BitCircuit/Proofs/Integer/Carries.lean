/-
# Prefix networks follow the carry recurrence

The carry out of the lowest position is what that position generates. The carry out of any other one
is there if the position generates it, or if it propagates the one from below (`carryOut`). The
Kogge-Stone network and the balanced tree compute these carries from any wires that can be read, be
they those of an adder or not, as long as no position above the lowest one generates and propagates
at once: only there does a join with `xor` differ from one with `or`. The propagate bit of the lowest
position is never read, so it may be anything, as the carry into a subtraction needs.

Key definitions: `carryOut`, `Circuit.bitAt`, `Span.ofBundles`.
Key theorems: `carriesDown_reverse`, `spanCarry_take`, `bitAt_koggeStone`, `value_topCarry`,
`prefix_networks_agree`.
-/
import Mathlib.Data.List.GetD
import BitCircuit.Proofs.Integer.AdderCompletion
import BitCircuit.Proofs.Integer.Lookahead
import BitCircuit.Proofs.Reachable

namespace BitCircuit

/-! ### The recurrence -/

/-- The carry out of a position, from what the positions generate and propagate. -/
def carryOut (g p : Nat → Bool) : Nat → Bool
  | 0 => g 0
  | i + 1 => g (i + 1) || (p (i + 1) && carryOut g p i)

/-- The carries out of all positions are those out of the runs that start at the lowest one. -/
theorem carriesDown_reverse (bits : List (Bool × Bool)) : (carriesDown bits.reverse).reverse =
    (List.range bits.length).map fun i => spanCarry (bits.take (i + 1)).reverse := by
  induction bits using List.reverseRecOn with
  | nil => rfl
  | append_singleton bits b ih =>
    -- a position on top leaves the runs below it as they are
    have hlower : ∀ i ∈ List.range bits.length,
        spanCarry (bits.take (i + 1)).reverse = spanCarry ((bits ++ [b]).take (i + 1)).reverse := by
      intro i hi
      rw [List.take_append_of_le_length (List.mem_range.mp hi)]
    rw [List.reverse_concat, carriesDown, List.reverse_cons, ih, List.length_append,
      List.length_singleton, List.range_succ, List.map_append, List.map_singleton,
      List.map_congr_left hlower, List.take_of_length_le (by simp), List.reverse_concat]

/-- Going up the positions, the runs follow the recurrence. -/
theorem spanCarry_take {bits : List (Bool × Bool)} : ∀ {i : Nat}, i < bits.length →
    spanCarry (bits.take (i + 1)).reverse =
      carryOut (fun i => (bits.map Prod.fst).getD i false) (fun i => (bits.map Prod.snd).getD i false) i
  | 0, h => by
    cases bits with
    | nil => cases h
    | cons b bits => simp [spanCarry, carryOut]
  | i + 1, h => by
    have hg : (bits.map Prod.fst).getD (i + 1) false = bits[i + 1].1 := by
      rw [List.getD_eq_getElem _ _ (by simpa using h), List.getElem_map]
    have hp : (bits.map Prod.snd).getD (i + 1) false = bits[i + 1].2 := by
      rw [List.getD_eq_getElem _ _ (by simpa using h), List.getElem_map]
    rw [List.take_succ_eq_append_getElem h, List.reverse_concat, spanCarry,
      spanCarry_take (Nat.lt_of_succ_lt h), carryOut, hg, hp]

/-! ### The networks -/

/-- The value of the wire at a position of a bundle, and false past its end. -/
def Circuit.bitAt (c : Circuit) (input : Valuation) (b : Bundle) (i : Nat) : Bool :=
  (b.map (c.value input)).getD i false

/-- What positions generate and propagate, from the values of their wires. -/
def Circuit.spanValues (c : Circuit) (input : Valuation) (g p : Bundle) : List (Bool × Bool) :=
  (g.map (c.value input)).zip (p.map (c.value input))

/-- The spans of single positions. -/
def Span.ofBundles (g p : Bundle) : List Span :=
  (g.zip p).map fun q => ⟨q.1, q.2⟩

section

variable {c : Circuit} {g p : Bundle} (input : Valuation) (hlen : g.length = p.length)
include hlen

theorem Span.map_generate_ofBundles : (Span.ofBundles g p).map Span.generate = g := by
  rw [ofBundles, List.map_map]
  exact List.map_fst_zip hlen.le

theorem Span.map_propagate_ofBundles : (Span.ofBundles g p).map Span.propagate = p := by
  rw [ofBundles, List.map_map]
  exact List.map_snd_zip hlen.ge

theorem map_fst_spanValues : (c.spanValues input g p).map Prod.fst = g.map (c.value input) :=
  List.map_fst_zip (by rw [List.length_map, List.length_map, hlen])

theorem map_snd_spanValues : (c.spanValues input g p).map Prod.snd = p.map (c.value input) :=
  List.map_snd_zip (by rw [List.length_map, List.length_map, hlen])

theorem length_spanValues : (c.spanValues input g p).length = g.length := by
  rw [← List.length_map (f := Prod.fst), map_fst_spanValues input hlen, List.length_map]

/-- The recurrence on the values of wires. -/
theorem spanCarry_take_spanValues {i : Nat} (hi : i < g.length) :
    spanCarry ((c.spanValues input g p).take (i + 1)).reverse =
      carryOut (c.bitAt input g) (c.bitAt input p) i := by
  rw [spanCarry_take (by rwa [length_spanValues input hlen]), map_fst_spanValues input hlen,
    map_snd_spanValues input hlen]
  rfl

end

section

variable {c c' : Circuit} {input : Valuation} {g p : Bundle} (hc : c.WellFormed)
  (hlen : g.length = p.length) (hread : ∀ w ∈ g ++ p, c.Readable w)
  (hex : ∀ i, 0 < i → (c.bitAt input g i && c.bitAt input p i) = false)

include hex in
/-- Above the lowest position the values of the wires are exclusive. -/
theorem exclusive_spanValues : Exclusive (c.spanValues input g p).reverse.dropLast := by
  intro s hs
  rw [List.dropLast_reverse, List.mem_reverse] at hs
  obtain ⟨i, hi, rfl⟩ := List.getElem_of_mem hs
  rw [List.length_tail, Circuit.spanValues, List.length_zip] at hi
  have hgi : i + 1 < (g.map (c.value input)).length := by omega
  have hpi : i + 1 < (p.map (c.value input)).length := by omega
  have hposition := hex (i + 1) (Nat.succ_pos i)
  rw [Circuit.bitAt, Circuit.bitAt, List.getD_eq_getElem _ _ hgi, List.getD_eq_getElem _ _ hpi] at hposition
  rw [List.getElem_tail]
  simpa only [Circuit.spanValues, List.getElem_zip] using hposition

variable (input) in
include hlen hread in
/-- The spans have the values of their wires. -/
theorem signals_ofBundles :
    c.Signals input ∅ ((Span.ofBundles g p).map Span.generate)
      ((c.spanValues input g p).map Prod.fst) ∧
    c.Signals input ∅ ((Span.ofBundles g p).map Span.propagate)
      ((c.spanValues input g p).map Prod.snd) := by
  obtain ⟨hg, hp⟩ := List.forall_mem_append.mp hread
  rw [Span.map_generate_ofBundles hlen, Span.map_propagate_ofBundles hlen,
    map_fst_spanValues input hlen, map_snd_spanValues input hlen]
  exact ⟨Circuit.signals_self (fun w hw => (hg w hw).allocated) (by simp),
    Circuit.signals_self (fun w hw => (hp w hw).allocated) (by simp)⟩

include hc hlen hread hex

/-- Each wire that the network returns has the carry out of its position. -/
theorem bitAt_koggeStone {carries : Bundle}
    (h : (Build.koggeStone (Span.ofBundles g p)).exec c = (.ok carries, c')) {i : Nat}
    (hi : i < g.length) :
    c'.bitAt input carries i = carryOut (c.bitAt input g) (c.bitAt input p) i := by
  obtain ⟨hgs, hps⟩ := signals_ofBundles input hlen hread
  obtain ⟨-, hs⟩ := Build.koggeStone_carries hc (by simp) (exclusive_spanValues hex) hgs hps h
  rw [Circuit.bitAt, hs.values, carriesDown_reverse, length_spanValues input hlen,
    List.getD_eq_getElem _ _ (by simpa using hi), List.getElem_map, List.getElem_range,
    spanCarry_take_spanValues input hlen hi]

/-- The wire that the tree returns has the carry out of the highest position. -/
theorem value_topCarry {top : Wire} (hne : g ≠ [])
    (h : (Build.topCarry (Span.ofBundles g p)).exec c = (.ok top, c')) :
    c'.value input top = carryOut (c.bitAt input g) (c.bitAt input p) (g.length - 1) := by
  obtain ⟨hgs, hps⟩ := signals_ofBundles input hlen hread
  obtain ⟨-, -, hv⟩ := Build.topCarry_carry hc (by simp) (exclusive_spanValues hex) hgs hps h
  have hpos : 0 < g.length := List.length_pos_of_ne_nil hne
  have hcount := length_spanValues (c := c) input hlen
  have hbits : (c.spanValues input g p).reverse ≠ [] :=
    List.ne_nil_of_length_pos (by rwa [List.length_reverse, hcount])
  rw [head?_carriesDown hbits] at hv
  -- the run up to the highest position is all of them
  rw [← spanCarry_take_spanValues input hlen (by omega), List.take_of_length_le (by omega)]
  exact (Option.some.inj hv).symm

end

open Build in
/-- **Both prefix networks follow the carry recurrence**, on all wires that can be read and for any
input on which no position above the lowest one generates and propagates at once: the one has the
carry out of every position, the other the carry out of the highest one. -/
theorem prefix_networks_agree {c : Circuit} (hc : Reachable c) (input : Valuation) {g p : Bundle}
    (hlen : g.length = p.length) (hne : g ≠ []) (hread : ∀ w ∈ g ++ p, c.Readable w)
    (hex : ∀ i, 0 < i → (c.bitAt input g i && c.bitAt input p i) = false) :
    ∃ carries c₁ top c₂,
      (koggeStone (Span.ofBundles g p)).exec c = (.ok carries, c₁) ∧
      (topCarry (Span.ofBundles g p)).exec c = (.ok top, c₂) ∧
      carries.length = g.length ∧
      (∀ i < g.length,
        c₁.bitAt input carries i = carryOut (c.bitAt input g) (c.bitAt input p) i) ∧
      c₂.value input top = carryOut (c.bitAt input g) (c.bitAt input p) (g.length - 1) ∧
      c₂.value input top = c₁.bitAt input carries (g.length - 1) := by
  obtain ⟨hg, hp⟩ := List.forall_mem_append.mp hread
  have hs : c.Site ∅ := ⟨hc.wellFormed, by simp⟩
  have hspans : ∀ s ∈ Span.ofBundles g p, SpanReady c ∅ s := by
    intro s hs
    obtain ⟨q, hq, rfl⟩ := List.mem_map.mp hs
    obtain ⟨hqg, hqp⟩ := List.of_mem_zip hq
    exact ⟨⟨hg _ hqg, by simp⟩, ⟨hp _ hqp, by simp⟩⟩
  have hcount : (Span.ofBundles g p).length = g.length := by
    rw [← List.length_map (f := Span.generate), Span.map_generate_ofBundles hlen]
  have hpos : 0 < g.length := List.length_pos_of_ne_nil hne
  obtain ⟨carries, c₁, hcarries, -, hcarried, -⟩ := koggeStone_yields hs hspans
  obtain ⟨top, c₂, htop, -⟩ := topCarry_yields hs hspans (List.ne_nil_of_length_pos (by omega))
  have hevery := fun i => bitAt_koggeStone hc.wellFormed hlen hread hex hcarries (i := i)
  have hhighest := value_topCarry hc.wellFormed hlen hread hex hne htop
  refine ⟨carries, c₁, top, c₂, hcarries, htop, hcarried.trans hcount, hevery, hhighest, ?_⟩
  rw [hhighest, hevery (g.length - 1) (by omega)]

open Build in
/-- Four positions from two wires, of which the first one is set. The lowest position generates and
propagates, the next one propagates, the third one does neither and the last one generates. -/
theorem prefix_networks_agree_four :
    ∃ (c : Circuit) (carries : Bundle) (c₁ : Circuit) (top : Wire) (c₂ : Circuit), Reachable c ∧
      (koggeStone (Span.ofBundles [⟨0⟩, ⟨1⟩, ⟨1⟩, ⟨0⟩] [⟨0⟩, ⟨0⟩, ⟨1⟩, ⟨1⟩])).exec c = (.ok carries, c₁) ∧
      (topCarry (Span.ofBundles [⟨0⟩, ⟨1⟩, ⟨1⟩, ⟨0⟩] [⟨0⟩, ⟨0⟩, ⟨1⟩, ⟨1⟩])).exec c = (.ok top, c₂) ∧
      (List.range 4).map (c₁.bitAt (fun w => w.index == 0) carries) = [true, true, false, true] ∧
      c₂.value (fun w => w.index == 0) top = true := by
  have hc : Reachable (Call.afterAll [.addInput 2]) := reachable_afterAll (by simp [Call.template?])
  obtain ⟨carries, c₁, top, c₂, hcarries, htop, -, hevery, hhighest, -⟩ :=
    prefix_networks_agree hc (fun w => w.index == 0) (g := [⟨0⟩, ⟨1⟩, ⟨1⟩, ⟨0⟩])
      (p := [⟨0⟩, ⟨0⟩, ⟨1⟩, ⟨1⟩]) rfl (by simp) (by decide +kernel) (by
        rintro (_ | _ | _ | _ | i) hi
        · cases hi
        · decide +kernel
        · decide +kernel
        · decide +kernel
        · rfl)
  refine ⟨_, carries, c₁, top, c₂, hc, hcarries, htop, ?_, hhighest.trans (by decide +kernel)⟩
  exact (List.map_congr_left fun i hi => hevery i (List.mem_range.mp hi)).trans (by decide +kernel)

end BitCircuit
