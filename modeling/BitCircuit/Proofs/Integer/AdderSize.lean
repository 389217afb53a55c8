/-
# Small adders spend one nonlinear gate a column

A column of a ripple-carry adder passes its carry on with one conjunction or disjunction, in each of
the forms it can take, unless both of its bits are known, and the last column passes nothing on
(`Build.rippleColumn_nonlinear`). In the lowest column a known bit is enough to save the gate
(`Build.rippleLowest_nonlinear`). So the number of gates is that of the columns below the last one
with an unknown bit (`Build.ripple_nonlinear`).

The operands of a request are inputs. In two's complement all bits of the widened operands are
unknown, and unsigned ones those below the width of the wider operand (`Build.unknownColumns`).

Key definitions: `Circuit.unknownColumn`, `Build.unknownColumns`, `Request.nonlinearGates`.
Key theorems: `Build.rippleColumn_nonlinear`, `Build.rippleColumns_nonlinear`, `Build.ripple_nonlinear`,
`small_adders_count_gates`.
-/
import BitCircuit.Proofs.Catalogue
import BitCircuit.Proofs.Feasibility
import BitCircuit.Proofs.Integer.Order
import BitCircuit.Proofs.Integer.Sharing
import BitCircuit.Proofs.NonlinearCount

namespace BitCircuit

namespace Circuit

variable {c c' : Circuit} {w x y : Wire}

theorem knows_eq_false : c.knows w = false ↔ c.constantValue? w = none := by
  unfold knows
  cases c.constantValue? w <;> simp

/-- A wire that may be driven is no constant. -/
theorem Writable.knows (h : c.Writable w) : c.knows w = false := by
  rw [knows_eq_false]
  unfold constantValue?
  rcases writable_iff.mp h with hs | hs
  · rw [hs]
  · rw [hs]

/-- One of the bits of a column is unknown. -/
def unknownColumn (c : Circuit) (col : AdderColumn) : Bool :=
  !(c.knows col.x && c.knows col.y)

/-- An adder spends a gate at this position if another one follows. -/
def spendsAt (c : Circuit) (enc : Encoding) (dir : Direction) (a b : Bundle) : Nat → Bool
  | 0 => !c.knowsBit enc a 0 && !(dir == .addition && c.knowsBit enc b 0)
  | i + 1 => !(c.knowsBit enc a (i + 1) && c.knowsBit enc b (i + 1))

end Circuit

namespace Build

variable {c c' : Circuit} {kind : GateKind} {dir : Direction} {carry spare x y out : Wire}
  {target : Option Wire} {more : Bool} {u : Unit}

/-! ### One column -/

/-- A gate that reads a wire which is no constant counts if the other one is none either. -/
theorem gateTo_counts (hy : c.knows y = false) (h : (gateTo kind x y out).exec c = (.ok u, c')) :
    c'.nonlinear = c.nonlinear + if c.knows x then 0 else kind.nonlinearCost := by
  have hy := Circuit.knows_eq_false.mp hy
  rw [gateTo_nonlinear h]
  cases hx : c.knows x with
  | true =>
    have hne : c.constantValue? x ≠ none := fun hn => by
      rw [Circuit.knows_eq_false.mpr hn] at hx
      cases hx
    simp [hne]
  | false => simp [Circuit.knows_eq_false.mp hx, hy]

theorem driveTarget_linear (hk : kind.nonlinearCost = 0)
    (h : (driveTarget kind x y target).exec c = (.ok u, c')) : c'.nonlinear = c.nonlinear := by
  cases target with
  | none =>
    obtain ⟨-, rfl⟩ := exec_pure_eq_ok.mp h
    rfl
  | some out => exact gateTo_linear hk h

theorem driveTarget_evolves (hc : c.WellFormed)
    (h : (driveTarget kind x y target).exec c = (.ok u, c')) : c.Evolves Set.univ c' :=
  (inPlace_driveTarget (c.upheld_evolves Set.univ).inPlace fun _ _ => .inl trivial).evolves hc h

section Column

variable (hc : c.WellFormed) (hcarry : c.Writable carry) (hspare : c.Writable spare)
include hc hcarry

/-- Half an adder passes its carry on with one gate, unless it adds two known bits. -/
theorem rippleKnown_nonlinear {bit : Bool} (hx : c.Allocated x)
    (h : (rippleKnown bit carry x target more).exec c = (.ok u, c')) :
    c'.nonlinear = c.nonlinear + (more && !c.knows x).toNat := by
  unfold rippleKnown at h
  obtain ⟨u₁, c₁, hdrive, h⟩ := exec_bind_eq_ok.mp h
  have hev := driveTarget_evolves hc hdrive
  have hsame : c₁.nonlinear = c.nonlinear := driveTarget_linear (by cases bit <;> rfl) hdrive
  cases more with
  | false =>
    obtain ⟨-, rfl⟩ := exec_pure_eq_ok.mp h
    exact hsame
  | true =>
    have hcost : (if bit then GateKind.or else .and).nonlinearCost = 1 := by cases bit <;> rfl
    have hgate := gateTo_counts (hev.writable hcarry).knows h
    rw [hgate, hsame, hcost, hev.knows_eq hx]
    cases c.knows x <;> rfl

include hspare

/-- A full adder passes its carry on with one gate. -/
theorem rippleFull_nonlinear (h : (rippleFull dir carry spare x y target more).exec c = (.ok u, c')) :
    c'.nonlinear = c.nonlinear + more.toNat := by
  unfold rippleFull at h
  obtain ⟨u₁, c₁, hpartial, h⟩ := exec_bind_eq_ok.mp h
  obtain ⟨u₂, c₂, hdrive, h⟩ := exec_bind_eq_ok.mp h
  have hev₁ := (gateTo_spec hc hpartial).toEvolves
  have hev₂ := driveTarget_evolves hev₁.wellFormed hdrive
  have hsame : c₂.nonlinear = c.nonlinear := by
    rw [driveTarget_linear rfl hdrive, gateTo_linear (by cases dir <;> rfl) hpartial]
  cases more with
  | false =>
    obtain ⟨-, rfl⟩ := exec_pure_eq_ok.mp h
    exact hsame
  | true =>
    obtain ⟨u₃, c₃, h₃, h⟩ := exec_bind_eq_ok.mp h
    obtain ⟨u₄, c₄, h₄, h₅⟩ := exec_bind_eq_ok.mp h
    have hev₃ := (gateTo_spec hev₂.wellFormed h₃).toEvolves
    -- neither register is a constant
    have hcarry₃ := (hev₃.writable (hev₂.writable (hev₁.writable hcarry))).knows
    have hspare₃ := (hev₃.writable (hev₂.writable (hev₁.writable hspare))).knows
    have hand := gateTo_counts hspare₃ h₄
    rw [hcarry₃] at hand
    calc
      c'.nonlinear = c₄.nonlinear := gateTo_linear rfl h₅
      _ = c₃.nonlinear + 1 := hand
      _ = c.nonlinear + 1 := by rw [gateTo_linear rfl h₃, hsame]

/-- **A column spends one gate**, unless both of its bits are known or no one waits for its carry. -/
theorem rippleColumn_nonlinear {col : AdderColumn} (hx : c.Allocated col.x) (hy : c.Allocated col.y)
    (h : (rippleColumn dir carry spare col more).exec c = (.ok u, c')) :
    c'.nonlinear = c.nonlinear + (more && c.unknownColumn col).toNat := by
  unfold rippleColumn at h
  rw [exec_get_bind] at h
  rcases hk : c.knownBit dir col.x col.y with ⟨x, y, known⟩
  rw [hk] at h
  obtain ⟨hknown, hxy⟩ := Circuit.knownBit_cases hk
  unfold Circuit.unknownColumn
  cases known with
  | some v =>
    have hyknown : c.knows y = true := by
      unfold Circuit.knows
      rw [← hknown]
      rfl
    -- the known bit is in second place, so the first one decides
    rcases hxy with ⟨rfl, rfl⟩ | ⟨-, rfl, rfl, -⟩
    · rw [hyknown, Bool.and_true]
      exact rippleKnown_nonlinear hc hcarry hx h
    · rw [hyknown, Bool.true_and]
      exact rippleKnown_nonlinear hc hcarry hy h
  | none =>
    obtain ⟨rfl, rfl⟩ | ⟨-, -, -, hne⟩ := hxy
    · have hyknown : c.knows col.y = false := Circuit.knows_eq_false.mpr hknown.symm
      rw [hyknown, Bool.and_false, Bool.not_false, Bool.and_true]
      exact rippleFull_nonlinear hc hcarry hspare h
    · exact absurd rfl hne

omit hcarry in
/-- The lowest column saves its gate if it adds a known bit, or subtracts from one. -/
theorem rippleLowest_nonlinear {col : AdderColumn} (hx : c.Allocated col.x) (hy : c.Allocated col.y)
    (h : (rippleLowest dir carry spare col more).exec c = (.ok u, c')) :
    c'.nonlinear = c.nonlinear +
      (more && !c.knows col.x && !(dir == .addition && c.knows col.y)).toNat := by
  unfold rippleLowest at h
  obtain ⟨u₁, c₁, hdrive, h⟩ := exec_bind_eq_ok.mp h
  have hev := driveTarget_evolves hc hdrive
  have hsame : c₁.nonlinear = c.nonlinear := driveTarget_linear rfl hdrive
  cases more with
  | false =>
    obtain ⟨-, rfl⟩ := exec_pure_eq_ok.mp h
    exact hsame
  | true =>
    cases dir with
    | addition =>
      have hgate := gateTo_nonlinear h
      rw [hsame] at hgate
      rw [hgate, ← hev.knows_eq hx, ← hev.knows_eq hy]
      unfold Circuit.knows
      cases c₁.constantValue? col.x <;> cases c₁.constantValue? col.y <;> rfl
    | subtraction =>
      obtain ⟨u₂, c₂, hinv, h⟩ := exec_bind_eq_ok.mp h
      have hev₂ := (invTo_spec hev.wellFormed hinv).toEvolves
      have hgate := gateTo_counts (hev₂.writable (hev.writable hspare)).knows h
      rw [hgate, invTo_nonlinear hinv, hsame, hev₂.knows_eq (hev.allocated hx), hev.knows_eq hx]
      cases c.knows col.x <;> rfl

end Column

/-! ### The chain -/

/-- Which columns are unknown does not change while the chain runs. -/
theorem countP_unknownColumn_eq {D : Set Wire} {cols : List AdderColumn} (hev : c.Evolves D c')
    (hall : ∀ col ∈ cols, c.Allocated col.x ∧ c.Allocated col.y) :
    cols.countP c'.unknownColumn = cols.countP c.unknownColumn := by
  refine List.countP_congr fun col hm => ?_
  unfold Circuit.unknownColumn
  rw [hev.knows_eq (hall col hm).1, hev.knows_eq (hall col hm).2]

/-- **The columns above the lowest one** spend a gate each where a bit is unknown, but for the last. -/
theorem rippleColumns_nonlinear : ∀ {cols : List AdderColumn} {c c' : Circuit} {u : Unit},
    c.WellFormed → c.Writable carry → c.Writable spare →
    (∀ col ∈ cols, c.Allocated col.x ∧ c.Allocated col.y) →
    (rippleColumns dir carry spare cols).exec c = (.ok u, c') →
    c'.nonlinear = c.nonlinear + cols.dropLast.countP c.unknownColumn
  | [], c, c', u, _, _, _, _, h => by
    obtain ⟨-, rfl⟩ := exec_pure_eq_ok.mp h
    rfl
  | col :: cols, c, c', u, hc, hcarry, hspare, hall, h => by
    obtain ⟨⟨hx, hy⟩, hcols⟩ := List.forall_mem_cons.mp hall
    obtain ⟨u₁, c₁, hcolumn, h⟩ := exec_bind_eq_ok.mp h
    have hev : c.Evolves Set.univ c₁ := (inPlace_rippleColumn (c.upheld_evolves Set.univ).inPlace
      (.inl trivial) (.inl trivial) fun _ _ => .inl trivial).evolves hc hcolumn
    have hrest := rippleColumns_nonlinear hev.wellFormed (hev.writable hcarry) (hev.writable hspare)
      (fun col' hm => (hcols col' hm).imp hev.allocated hev.allocated) h
    have hcount : cols.dropLast.countP c₁.unknownColumn = cols.dropLast.countP c.unknownColumn :=
      countP_unknownColumn_eq hev fun col' hm => hcols col' (List.dropLast_subset _ hm)
    rw [hrest, hcount, rippleColumn_nonlinear hc hcarry hspare hx hy hcolumn]
    cases cols with
    | nil => rfl
    | cons col' cols =>
      rw [List.dropLast_cons_cons, List.countP_cons, List.isEmpty_cons, Bool.not_false, Bool.true_and]
      cases c.unknownColumn col with
      | true => simp only [Bool.toNat_true, ↓reduceIte]; omega
      | false => simp only [Bool.toNat_false, Bool.false_eq_true, ↓reduceIte]; omega

theorem extend_nonlinear {enc : Encoding} {n : Nat} {a x : Bundle}
    (h : (extend enc n a).exec c = (.ok x, c')) : c'.nonlinear = c.nonlinear := by
  unfold extend at h
  by_cases hn : n ≤ a.length
  · rw [if_pos hn] at h
    obtain ⟨-, rfl⟩ := exec_pure_eq_ok.mp h
    rfl
  rw [if_neg hn] at h
  obtain ⟨pad, c₁, hpad, h⟩ := exec_bind_eq_ok.mp h
  obtain ⟨-, -, h⟩ := exec_check_bind.mp h
  obtain ⟨-, rfl⟩ := exec_pure_eq_ok.mp h
  cases enc with
  | unsigned => exact constant_nonlinear hpad
  | twosComplement =>
    obtain ⟨-, rfl⟩ := exec_check_eq_ok.mp hpad
    rfl

/-- The entries of a list counted by their positions. -/
theorem countP_eq_countP_range {α : Type} {l : List α} {p : α → Bool} {q : Nat → Bool}
    (h : ∀ i a, l[i]? = some a → p a = q i) : l.countP p = (List.range l.length).countP q := by
  have hmap : l.map p = (List.range l.length).map q := by
    refine List.ext_getElem (by simp) fun i hi _ => ?_
    rw [List.length_map] at hi
    rw [List.getElem_map, List.getElem_map, List.getElem_range]
    exact h i l[i] (List.getElem?_eq_getElem hi)
  have hcount := congrArg (List.countP id) hmap
  rwa [List.countP_map, List.countP_map] at hcount

/-- What is known of the columns of an adder once its operands are widened. -/
theorem adderColumns_knows {a b x y : Bundle} {enc : Encoding} {n : Nat} {c₁ : Circuit}
    {targets : List (Option Wire)} {cols : List AdderColumn} (hc : c.WellFormed)
    (haa : ∀ w ∈ a, c.Allocated w) (hab : ∀ w ∈ b, c.Allocated w)
    (hx : (extend enc n a).exec c = (.ok x, c₁)) (hy : (extend enc n b).exec c₁ = (.ok y, c'))
    (hcols : adderColumns x y targets = .ok cols) :
    c.Evolves ∅ c' ∧ ∀ i col, cols[i]? = some col → (c'.Allocated col.x ∧ c'.Allocated col.y) ∧
      c'.knows col.x = c.knowsBit enc a i ∧ c'.knows col.y = c.knowsBit enc b i := by
  obtain ⟨hev₁, hknowsx⟩ := extend_knows hc haa hx
  obtain ⟨hev₂, hknowsy⟩ := extend_knows hev₁.wellFormed (fun w hw => hev₁.allocated (hab w hw)) hy
  refine ⟨hev₁.trans_same hev₂, fun i col hi => ?_⟩
  obtain ⟨hcx, hcy⟩ := getElem?_adderColumns hcols hi
  obtain ⟨hax, hkx⟩ := hknowsx i col.x hcx
  obtain ⟨hay, hky⟩ := hknowsy i col.y hcy
  refine ⟨⟨hev₂.allocated hax, hay⟩, (hev₂.knows_eq hax).trans hkx, hky.trans ?_⟩
  exact hev₁.knowsBit_eq hab enc i

/-- All columns from the lowest one on. -/
theorem rippleAll_nonlinear {lowest : AdderColumn} {rest : List AdderColumn} (hc : c.WellFormed)
    (hcarry : c.Writable carry) (hspare : c.Writable spare)
    (hall : ∀ col ∈ lowest :: rest, c.Allocated col.x ∧ c.Allocated col.y)
    (h : (rippleLowest dir carry spare lowest (!rest.isEmpty) >>= fun _ =>
      rippleColumns dir carry spare rest).exec c = (.ok u, c')) :
    c'.nonlinear = c.nonlinear + (!rest.isEmpty && !c.knows lowest.x &&
      !(dir == .addition && c.knows lowest.y)).toNat + rest.dropLast.countP c.unknownColumn := by
  obtain ⟨⟨hx, hy⟩, hrest⟩ := List.forall_mem_cons.mp hall
  obtain ⟨u₁, c₁, hlowest, h⟩ := exec_bind_eq_ok.mp h
  have hev : c.Evolves Set.univ c₁ := (inPlace_rippleLowest (c.upheld_evolves Set.univ).inPlace
    (.inl trivial) (.inl trivial) fun _ _ => .inl trivial).evolves hc hlowest
  have hcount : rest.dropLast.countP c₁.unknownColumn = rest.dropLast.countP c.unknownColumn :=
    countP_unknownColumn_eq hev fun col hm => hrest col (List.dropLast_subset _ hm)
  rw [rippleColumns_nonlinear hev.wellFormed (hev.writable hcarry) (hev.writable hspare)
    (fun col hm => (hrest col hm).imp hev.allocated hev.allocated) h, hcount,
    rippleLowest_nonlinear hc hspare hx hy hlowest]

/-- **What a ripple-carry adder spends** can be told from the bits that are known of its operands, for
each position below the last one. -/
theorem ripple_nonlinear {a b temps : Bundle} {sink : Sink} {enc : Encoding} {width : Nat}
    (hc : c.WellFormed) (haa : ∀ w ∈ a, c.Allocated w) (hab : ∀ w ∈ b, c.Allocated w)
    (htemps : ∀ w ∈ temps, c.Writable w) (hwidth : sink.width = .ok width)
    (h : (ripple a b sink temps enc dir).exec c = (.ok u, c')) :
    c'.nonlinear = c.nonlinear + (List.range (width - 1)).countP (c.spendsAt enc dir a b) := by
  obtain ⟨width', x, y, carry, spare, lowest, rest, c₁, c₂, -, hwidth', hcarry, hspare, hx, hy, hcols,
    h⟩ := ripple_eq_ok h
  obtain rfl : width = width' := Except.ok.inj (hwidth.symm.trans hwidth')
  obtain ⟨hev, hcolumn⟩ := adderColumns_knows hc haa hab hx hy hcols
  have hall : ∀ col ∈ lowest :: rest, c₂.Allocated col.x ∧ c₂.Allocated col.y := by
    intro col hm
    obtain ⟨i, hi⟩ := List.getElem?_of_mem hm
    exact (hcolumn i col hi).1
  have hrun := rippleAll_nonlinear hev.wellFormed
    (hev.writable (htemps carry (List.mem_of_getElem? hcarry)))
    (hev.writable (htemps spare (List.mem_of_getElem? hspare))) hall h
  -- the columns by their positions
  obtain ⟨-, hlowx, hlowy⟩ := hcolumn 0 lowest rfl
  have hupper : rest.dropLast.countP c₂.unknownColumn =
      (List.range rest.dropLast.length).countP fun i => c.spendsAt enc dir a b (i + 1) := by
    refine countP_eq_countP_range fun i col hi => ?_
    rw [List.getElem?_dropLast] at hi
    split at hi
    case isFalse => cases hi
    obtain ⟨-, hkx, hky⟩ := hcolumn (i + 1) col hi
    rw [Circuit.unknownColumn, hkx, hky]
    rfl
  have hlength : (lowest :: rest).length = width := by
    rw [← Sink.length_targets hwidth, ← (adderColumns_eq_ok hcols).1, List.length_map]
  rw [hrun, extend_nonlinear hy, extend_nonlinear hx, hupper, hlowx, hlowy, Nat.add_assoc]
  congr 1
  cases rest with
  | nil =>
    obtain rfl : 1 = width := hlength
    rfl
  | cons col rest =>
    have hlast : width - 1 = (col :: rest).dropLast.length + 1 := by
      rw [← hlength]
      simp
    have hfirst : (if c.spendsAt enc dir a b 0 then 1 else 0) = (c.spendsAt enc dir a b 0).toNat := by
      cases c.spendsAt enc dir a b 0 <;> rfl
    rw [hlast, List.range_succ_eq_map, List.countP_cons, List.countP_map, hfirst, Nat.add_comm]
    rfl

/-! ### Operands without constants -/

/-- How many of the lowest `n` positions of a sum have an unknown bit, for inputs that are up to `m`
bits wide: a sign is as unknown as the bits below it. -/
def unknownColumns (enc : Encoding) (m n : Nat) : Nat :=
  match enc with
  | .twosComplement => n
  | .unsigned => min n m

theorem countP_range_lt (m n : Nat) : (List.range n).countP (fun i => decide (i < m)) = min n m := by
  induction n with
  | zero => rw [List.range_zero, List.countP_nil, Nat.zero_min]
  | succ n ih =>
    rw [List.range_succ, List.countP_append, ih, List.countP_singleton]
    by_cases h : n < m
    · rw [if_pos (decide_eq_true h)]
      omega
    · rw [if_neg (by simpa using h)]
      omega

theorem requireOperands_nonempty {a b : Bundle} {sink : Sink} (h : requireOperands a b sink = .ok u) :
    a ≠ [] ∧ b ≠ [] := by
  obtain ⟨u₁, hne, -⟩ := bind_eq_ok.mp h
  have hne := requireNonempty_eq_ok.mp hne
  exact ⟨hne a (by simp), hne b (by simp)⟩

section Operands

variable {a b out temps : Bundle} {enc : Encoding} (hfree : c.ConstantFree)
include hfree

theorem knowsBit_of_constantFree (i : Nat) :
    c.knowsBit enc a i = (enc == .unsigned && decide (a.length ≤ i)) := by
  have hknows : ∀ w, c.knows w = false := fun w => Circuit.knows_eq_false.mpr (hfree w)
  unfold Circuit.knowsBit
  by_cases hi : i < a.length
  · rw [List.getElem?_eq_getElem hi, decide_eq_false (Nat.not_le.mpr hi), Bool.and_false]
    exact hknows _
  · rw [List.getElem?_eq_none (Nat.not_lt.mp hi), decide_eq_true (Nat.not_lt.mp hi), Bool.and_true]
    cases enc with
    | unsigned => rfl
    | twosComplement =>
      cases a.getLast? with
      | none => rfl
      | some w => exact hknows w

theorem spendsAt_of_constantFree (ha : a ≠ []) (hb : b ≠ []) (i : Nat) :
    c.spendsAt enc dir a b i = (enc == .twosComplement || decide (i < max a.length b.length)) := by
  have ha := List.length_pos_iff.mpr ha
  have hb := List.length_pos_iff.mpr hb
  cases i with
  | zero =>
    have hlow : 0 < max a.length b.length := by omega
    rw [Circuit.spendsAt, knowsBit_of_constantFree hfree, knowsBit_of_constantFree hfree,
      decide_eq_false (Nat.not_le.mpr ha), decide_eq_false (Nat.not_le.mpr hb), decide_eq_true hlow]
    simp
  | succ i =>
    rw [Circuit.spendsAt, knowsBit_of_constantFree hfree, knowsBit_of_constantFree hfree]
    cases enc with
    | twosComplement => rfl
    | unsigned => grind

theorem countP_spendsAt (ha : a ≠ []) (hb : b ≠ []) (n : Nat) :
    (List.range n).countP (c.spendsAt enc dir a b) = unknownColumns enc (max a.length b.length) n := by
  have heq : c.spendsAt enc dir a b =
      fun i => enc == .twosComplement || decide (i < max a.length b.length) :=
    funext (spendsAt_of_constantFree hfree ha hb)
  rw [heq]
  cases enc with
  | twosComplement => exact (List.countP_eq_length.mpr fun _ _ => rfl).trans List.length_range
  | unsigned => exact countP_range_lt _ n

omit hfree in
/-- The temporaries of a small adder come before its gates. -/
theorem adderTemps_size (hc : c.WellFormed) (h : (adderTemps .size).exec c = (.ok temps, c')) :
    c.Spawns temps c' ∧ (∀ w ∈ temps, c'.Writable w) ∧ c'.nonlinear = c.nonlinear ∧
      (c.ConstantFree → c'.ConstantFree) := by
  obtain ⟨hspawn, -⟩ := addTemps_spec hc h
  obtain ⟨-, rfl, rfl⟩ := Circuit.addTemps_eq_ok h
  refine ⟨hspawn, fun w hw => hspawn.wellFormed.writable w ?_, rfl, fun hfree => hfree.addWires (by simp)⟩
  simp [Circuit.withTemps, hw]

variable (hc : c.WellFormed) (ha : ∀ w ∈ a ++ b, c.Allocated w)
include hc ha

theorem addSub_nonlinear (htemps : ∀ w ∈ temps, c.Writable w)
    (h : (addSub dir a b out temps enc .size).exec c = (.ok u, c')) : c'.nonlinear =
      c.nonlinear + unknownColumns enc (max a.length b.length) (out.length - 1) := by
  obtain ⟨haa, hab⟩ := List.forall_mem_append.mp ha
  unfold addSub addRipple at h
  obtain ⟨u₁, hne, h⟩ := exec_check_bind.mp h
  obtain ⟨hane, hbne⟩ := requireOperands_nonempty hne
  rw [ripple_nonlinear hc haa hab htemps rfl h, countP_spendsAt hfree hane hbne]

theorem sumBit_nonlinear {position : Nat} (htemps : ∀ w ∈ temps, c.Writable w)
    (h : (sumBit a b out temps position enc dir .size).exec c = (.ok u, c')) : c'.nonlinear =
      c.nonlinear + unknownColumns enc (max a.length b.length) position := by
  obtain ⟨haa, hab⟩ := List.forall_mem_append.mp ha
  unfold sumBit at h
  obtain ⟨-, -, h⟩ := exec_check_bind.mp h
  obtain ⟨o, -, h⟩ := exec_check_bind.mp h
  obtain ⟨u₁, hne, hadder⟩ := exec_check_bind.mp h
  obtain ⟨hane, hbne⟩ := requireOperands_nonempty hne
  obtain ⟨width, -, -, -, -, -, -, -, -, -, hwidth, -⟩ := ripple_eq_ok hadder
  have hlen : position = width - 1 := by
    have htargets := Sink.length_targets hwidth
    simp [Sink.targets] at htargets
    omega
  rw [ripple_nonlinear hc haa hab htemps hwidth hadder, countP_spendsAt hfree hane hbne, hlen]

/-- A comparison takes the difference one bit wider, so that all bits of the operands count. -/
theorem lessThan_nonlinear (h : (lessThan a b out enc .size).exec c = (.ok u, c')) :
    c'.nonlinear = c.nonlinear + max a.length b.length := by
  unfold lessThan at h
  iterate 2 obtain ⟨-, -, h⟩ := exec_check_bind.mp h
  obtain ⟨temps, c₁, htemps, hbit⟩ := exec_bind_eq_ok.mp h
  obtain ⟨hspawn, hwritable, hsame, hfree₁⟩ := adderTemps_size hc htemps
  have hbit := sumBit_nonlinear (hfree₁ hfree) hspawn.wellFormed
    (fun w hw => hspawn.allocated (ha w hw)) hwritable hbit
  rw [hbit, hsame]
  cases enc with
  | twosComplement => rfl
  | unsigned => exact congrArg _ (Nat.min_self _)

theorem atLeast_nonlinear (h : (atLeast a b out enc .size).exec c = (.ok u, c')) :
    c'.nonlinear = c.nonlinear + max a.length b.length := by
  unfold atLeast at h
  obtain ⟨-, -, h⟩ := exec_check_bind.mp h
  obtain ⟨less, c₁, hnew, h⟩ := exec_bind_eq_ok.mp h
  obtain ⟨u₂, c₂, hless, h⟩ := exec_bind_eq_ok.mp h
  obtain ⟨l, -, h⟩ := exec_check_bind.mp h
  obtain ⟨o, -, hinv⟩ := exec_check_bind.mp h
  obtain ⟨hspawn, -⟩ := newBundle_spec hc hnew
  obtain ⟨-, rfl, rfl⟩ := Circuit.newBundle_eq_ok hnew
  have hfree₁ := hfree.addWires (s := .undriven) (n := 1) (by simp)
  rw [invTo_nonlinear hinv,
    lessThan_nonlinear hfree₁ hspawn.wellFormed (fun w hw => hspawn.allocated (ha w hw)) hless]
  rfl

end Operands

end Build

/-! ### Circuits of requests -/

namespace Request

open Build

/-- The number of conjunctions and disjunctions in the circuit of a small adder. -/
def nonlinearGates : Request → Option Nat
  | .addSub _ .twosComplement _ _ c .size => some (c - 1)
  | .addSub _ .unsigned a b c .size => some (min (c - 1) (max a b))
  | .addMsb a .size => some (a - 1)
  | .subMsb _ a b .size => some (max a b - 1)
  | .lessThan _ a b .size | .atLeast _ a b .size => some (max a b)
  | _ => none

theorem constantFree_operands (a b n : Nat) : (operands a b n).ConstantFree :=
  ((Circuit.constantFree_empty.withInput a).withInput b).withOutput n

variable {r : Request} {c : Circuit} {a b n k : Nat} {op : Bundle → Bundle → Bundle → Build Unit}

/-- The statistics of a request whose operation adds this many gates to inputs. -/
theorem stats_of_nonlinear (hr : r.build = buildBinary a b n op) (hbundles : r.bundles = [a, b, n])
    (hop : ∀ (c c' : Circuit) (x y out : Bundle) (u : Unit), c.ConstantFree → c.WellFormed →
      (∀ w ∈ x ++ y, c.Allocated w) → x.length = a → y.length = b → out.length = n →
      (op x y out).exec c = (.ok u, c') → c'.nonlinear = c.nonlinear + k)
    (h : r.circuit = .ok c) : ∃ s, c.stats = .ok s ∧ s.nonlinear = k := by
  obtain ⟨x, y, out, hx, hy, hout, hreg, hrun⟩ := run_of_circuit hr hbundles h
  obtain ⟨s, hs, hcount⟩ := Circuit.stats_nonlinear (serves_of_circuit h).wellFormed
  have hgates : (operands a b n).nonlinear = 0 := rfl
  refine ⟨s, hs, hcount.trans ?_⟩
  rw [hop _ c x y out () (constantFree_operands a b n) hreg.wellFormed ?_ hx hy hout hrun, hgates,
    Nat.zero_add]
  exact List.forall_mem_append.mpr ⟨hreg.allocated (by simp), hreg.allocated (by simp)⟩

theorem addSub_size {dir : Direction} {enc : Encoding}
    (h : (Request.addSub dir enc a b n .size).circuit = .ok c) :
    ∃ s, c.stats = .ok s ∧ s.nonlinear = unknownColumns enc (max a b) (n - 1) := by
  refine stats_of_nonlinear (a := a) (b := b) (n := n) rfl rfl ?_ h
  intro c c' x y out u hfree hc hxy hx hy hout hrun
  obtain ⟨temps, c₁, htemps, hadd⟩ := exec_bind_eq_ok.mp hrun
  obtain ⟨hspawn, hwritable, hsame, hfree₁⟩ := adderTemps_size hc htemps
  rw [addSub_nonlinear (hfree₁ hfree) hspawn.wellFormed (fun w hw => hspawn.allocated (hxy w hw))
    hwritable hadd, hsame, hx, hy, hout]

/-- An adder for the top bit. -/
theorem buildMsb_size {dir : Direction} {enc : Encoding} (hr : r.build = buildMsb dir enc a b .size)
    (hbundles : r.bundles = [a, b, 1]) (h : r.circuit = .ok c) :
    ∃ s, c.stats = .ok s ∧ s.nonlinear = max a b - 1 := by
  refine stats_of_nonlinear hr hbundles ?_ h
  intro c c' x y out u hfree hc hxy hx hy hout hrun
  obtain ⟨temps, c₁, htemps, hbit⟩ := exec_bind_eq_ok.mp hrun
  obtain ⟨hspawn, hwritable, hsame, hfree₁⟩ := adderTemps_size hc htemps
  rw [sumBit_nonlinear (hfree₁ hfree) hspawn.wellFormed (fun w hw => hspawn.allocated (hxy w hw))
    hwritable hbit, hsame, hx, hy]
  cases enc with
  | twosComplement => rfl
  | unsigned => exact congrArg _ (Nat.min_eq_left (Nat.sub_le _ _))

theorem lessThan_size {enc : Encoding} (h : (Request.lessThan enc a b .size).circuit = .ok c) :
    ∃ s, c.stats = .ok s ∧ s.nonlinear = max a b := by
  refine stats_of_nonlinear (a := a) (b := b) (n := 1) rfl rfl ?_ h
  intro c c' x y out u hfree hc hxy hx hy _ hrun
  rw [← hx, ← hy]
  exact lessThan_nonlinear hfree hc hxy hrun

theorem atLeast_size {enc : Encoding} (h : (Request.atLeast enc a b .size).circuit = .ok c) :
    ∃ s, c.stats = .ok s ∧ s.nonlinear = max a b := by
  refine stats_of_nonlinear (a := a) (b := b) (n := 1) rfl rfl ?_ h
  intro c c' x y out u hfree hc hxy hx hy _ hrun
  rw [← hx, ← hy]
  exact atLeast_nonlinear hfree hc hxy hrun

theorem size_of_circuit (hr : r.nonlinearGates = some k) (h : r.circuit = .ok c) :
    ∃ s, c.stats = .ok s ∧ s.nonlinear = k := by
  unfold nonlinearGates at hr
  split at hr
  · cases hr
    exact addSub_size h
  · cases hr
    exact addSub_size h
  · cases hr
    have hsize := buildMsb_size rfl rfl h
    rwa [Nat.max_self] at hsize
  · cases hr
    exact buildMsb_size rfl rfl h
  · cases hr
    exact lessThan_size h
  · cases hr
    exact atLeast_size h
  · cases hr

end Request

open Catalogue in
/-- **Small adders spend one conjunction or disjunction a column.** Whatever a catalogue was asked
before, it has a circuit for the sum or difference of all widths that a bundle can have, for their top
bit and for the comparisons. In it the last column spends none, nor does an unsigned adder above its
wider operand, and all others spend exactly one. -/
theorem small_adders_count_gates (before : List Request) (r : Request) (k : Nat)
    (hr : r.nonlinearGates = some k) :
    (r.Valid → r.Fits → ∃ c, ((afterAll before).serve r).result = .ok c) ∧
    ∀ c, ((afterAll before).serve r).result = .ok c → ∃ s, c.stats = .ok s ∧ s.nonlinear = k := by
  rw [(holds_afterAll before).result_eq r]
  exact ⟨Request.exists_circuit, fun c h => Request.size_of_circuit hr h⟩

/-- An unsigned difference that is kept wider than both operands, after a shallow adder was asked for. -/
theorem small_adders_count_gates_unsigned :
    ∃ c s, ((Catalogue.afterAll [.addMsb 5 .depth]).serve
      (.addSub .subtraction .unsigned 3 7 20 .size)).result = .ok c ∧ c.stats = .ok s ∧ s.nonlinear = 7 := by
  obtain ⟨hserved, hsize⟩ := small_adders_count_gates [.addMsb 5 .depth]
    (.addSub .subtraction .unsigned 3 7 20 .size) 7 rfl
  obtain ⟨c, hc⟩ := hserved ⟨by decide, by decide, by decide⟩ (by decide)
  obtain ⟨s, hs, hk⟩ := hsize c hc
  exact ⟨c, s, hc, hs, hk⟩

end BitCircuit
