/-
# Negation, magnitude and sign

The way from a signed integer to its magnitude and back, for operands and results of any widths and
in any circuit. A negation reads its operand before it drives anything, so its result may share
wires with it; the other two select at their end, and the checks of that selection keep operand and
temporaries apart (`Build.selectTo_reads`).

Key definitions: `withSign`, `NegatesInteger`, `TakesMagnitude`, `PutsSign`.
Key theorems: `read_eq_withSign`, `Build.negate_spec`, `Build.magnitude_spec`, `Build.applySign_spec`,
`signs_are_exact`.
-/
import Mathlib.Tactic.Linarith
import BitCircuit.Integer.Sign
import BitCircuit.Proofs.Integer.Adder
import BitCircuit.Proofs.Integer.Logic

namespace BitCircuit

open Bits

/-! ### Integers and their magnitudes -/

/-- The integer with a sign and a magnitude. -/
def withSign (negative : Bool) (n : Nat) : Int :=
  bif negative then -n else n

/-- The signs of two factors cancel. -/
theorem withSign_mul (s t : Bool) (m n : Nat) :
    withSign s m * withSign t n = withSign (s ^^ t) (m * n) := by
  cases s <;> cases t <;> simp [withSign]

/-- The sign may be put on what is left of a magnitude. -/
theorem withSign_mod_emod (negative : Bool) (n width : Nat) :
    withSign negative (n % 2 ^ width) % 2 ^ width = withSign negative n % 2 ^ width := by
  have hmod : ((n % 2 ^ width : Nat) : Int) ≡ n [ZMOD 2 ^ width] := by
    push_cast
    exact Int.mod_modEq _ _
  cases negative with
  | false => exact hmod
  | true => exact hmod.neg

/-- Both encodings agree modulo the width of the bits. -/
theorem read_emod_length (enc : Encoding) (bs : List Bool) :
    enc.read bs % 2 ^ bs.length = toNat bs := by
  rw [← toNat_resize, Encoding.resize, if_pos (Nat.le_refl _), List.take_length]

/-- The complement plus one is the negation. -/
theorem toNat_map_not_add_one (n : Nat) (as : List Bool) :
    ((toNat ((Encoding.twosComplement.resize n as).map (!·)) : Int) + 1) % 2 ^ n =
      -Encoding.twosComplement.read as % 2 ^ n := by
  have hnot := congrArg (Nat.cast : Nat → Int) (toNat_map_not (Encoding.twosComplement.resize n as))
  have hread := toNat_resize .twosComplement n as
  have hdiv := Int.mul_ediv_add_emod (Encoding.twosComplement.read as) (2 ^ n)
  rw [length_resize] at hnot
  push_cast at hnot
  have hsum : (toNat ((Encoding.twosComplement.resize n as).map (!·)) : Int) + 1 =
      -Encoding.twosComplement.read as + 2 ^ n * (1 + Encoding.twosComplement.read as / 2 ^ n) := by
    linarith
  rw [hsum, Int.add_mul_emod_self_left]

/-- Bits with the sign set spell a positive number. -/
theorem toNat_pos_of_padBit {as : List Bool} (h : Encoding.twosComplement.padBit as = true) :
    0 < toNat as := by
  have hlast : as.getLast? = some true := by
    cases hl : as.getLast? with
    | none => simp [Encoding.padBit, hl] at h
    | some b => simpa [Encoding.padBit, hl] using h
  obtain ⟨low, rfl⟩ := List.getLast?_eq_some_iff.mp hlast
  rw [toNat_append]
  simp

theorem read_of_padBit_eq_false {as : List Bool} (h : Encoding.twosComplement.padBit as = false) :
    Encoding.twosComplement.read as = toNat as := by
  rw [read_eq, h]
  simp

theorem read_of_padBit_eq_true {as : List Bool} (h : Encoding.twosComplement.padBit as = true) :
    Encoding.twosComplement.read as = toNat as - (2 ^ as.length : Nat) := by
  rw [read_eq, h]
  simp

/-- An integer is its magnitude with the sign put back. -/
theorem read_eq_withSign (as : List Bool) : Encoding.twosComplement.read as =
    withSign (Encoding.twosComplement.padBit as) (Encoding.twosComplement.read as).natAbs := by
  have hlt := toNat_lt as
  cases hsign : Encoding.twosComplement.padBit as with
  | false =>
    have hread := read_of_padBit_eq_false hsign
    rw [withSign, cond_false]
    omega
  | true =>
    have hread := read_of_padBit_eq_true hsign
    rw [withSign, cond_true]
    omega

/-- A magnitude has no more bits than the integer. -/
theorem natAbs_read_lt (as : List Bool) : (Encoding.twosComplement.read as).natAbs < 2 ^ as.length := by
  have hlt := toNat_lt as
  cases hsign : Encoding.twosComplement.padBit as with
  | false =>
    have hread := read_of_padBit_eq_false hsign
    omega
  | true =>
    have hread := read_of_padBit_eq_true hsign
    have hpos := toNat_pos_of_padBit hsign
    omega

/-- **The absolute value is the integer or its negation as the sign says**, also of the most negative
integer. -/
theorem toNat_choose_negated {as ns : List Bool}
    (hns : (toNat ns : Int) = -Encoding.twosComplement.read as % 2 ^ as.length) :
    toNat (bif Encoding.twosComplement.padBit as then ns else as) =
      (Encoding.twosComplement.read as).natAbs := by
  cases hsign : Encoding.twosComplement.padBit as with
  | false =>
    rw [cond_false, read_of_padBit_eq_false hsign, Int.natAbs_natCast]
  | true =>
    have hmagnitude : -Encoding.twosComplement.read as = (Encoding.twosComplement.read as).natAbs := by
      have hread := read_eq_withSign as
      rw [hsign, withSign, cond_true] at hread
      omega
    have hlt : ((Encoding.twosComplement.read as).natAbs : Int) < 2 ^ as.length := by
      exact_mod_cast natAbs_read_lt as
    rw [hmagnitude, Int.emod_eq_of_lt (Int.natCast_nonneg _) hlt] at hns
    rw [cond_true]
    exact_mod_cast hns

namespace Build

variable {c c' : Circuit} {a out temps : Bundle} {obj : Objective} {u : Unit}

/-! ### Negation -/

theorem negate_evolves (hc : c.WellFormed) (h : (negate a out temps obj).exec c = (.ok u, c')) :
    c.Evolves {w | w ∈ out ∨ w ∈ temps} c' :=
  (keeps_negate (c.upheld_evolves _) (fun _ hw => .inl (.inr hw)) fun _ hw => .inl (.inl hw)).evolves hc h

variable (input : Valuation)

/-- **A negation is exact modulo the width of its result.** -/
theorem negate_spec (hc : c.WellFormed) (ha : ∀ w ∈ a ++ temps ++ out, c.Allocated w)
    (hout : out.Nodup) (hne : obj = .size → temps[0]? ≠ temps[1]?)
    (h : (negate a out temps obj).exec c = (.ok u, c')) :
    c.Evolves {w | w ∈ out ∨ w ∈ temps} c' ∧ (toNat (out.map (c'.value input)) : Int) =
      -Encoding.twosComplement.read (a.map (c.value input)) % 2 ^ out.length := by
  refine ⟨negate_evolves hc h, ?_⟩
  simp only [List.forall_mem_append] at ha
  obtain ⟨⟨haa, hatemps⟩, haout⟩ := ha
  unfold negate at h
  obtain ⟨-, -, h⟩ := exec_check_bind.mp h
  obtain ⟨x, c₁, hx, h⟩ := exec_bind_eq_ok.mp h
  obtain ⟨inverted, c₂, hinv, h⟩ := exec_bind_eq_ok.mp h
  obtain ⟨one, c₃, hone, h⟩ := exec_bind_eq_ok.mp h
  -- before the adder no wire is driven that was there
  obtain ⟨hev₁, hsx⟩ := extend_spec input (D := ∅) hc (by simp) (Circuit.signals_self haa (by simp)) hx
  obtain ⟨hev₂, hsinv⟩ := mapM_inv_spec input (D := ∅) hev₁.wellFormed (by simp) hsx.settled hinv
  have hmake := constant_spec hev₂.wellFormed hone
  have hev := (hev₁.trans_same hev₂).trans_same hmake.toEvolves
  have hsinv₃ := hsinv.evolves hev₂.wellFormed hmake.toEvolves subset_rfl
  have hbits : inverted.map (c₃.value input) =
      (Encoding.twosComplement.resize out.length (a.map (c.value input))).map (!·) := by
    rw [hsinv₃.values, ← hsx.values, List.map_map]
    rfl
  have hone : Encoding.unsigned.read ([one].map (c₃.value input)) = 1 := by
    rw [List.map_singleton, hmake.value]
    rfl
  have hall : ∀ w ∈ inverted ++ [one] ++ temps ++ out, c₃.Allocated w := by
    simp only [List.forall_mem_append, List.forall_mem_singleton]
    exact ⟨⟨⟨fun w hw => (hsinv₃.settled w hw).allocated, hmake.readable.allocated⟩,
      hev.all_allocated hatemps⟩, hev.all_allocated haout⟩
  obtain ⟨-, hsum⟩ := addSub_spec hmake.wellFormed hall hout hne h
  rw [hsum input, hone, hbits]
  exact toNat_map_not_add_one _ _

/-! ### Magnitude and sign -/

/-- The choice between a bundle and its negation on new wires. The checks of the selection keep the
bundle and the sign apart from the temporaries, so both still have their values. -/
theorem select_negated_spec {x negated sign : Bundle} {c₁ c₂ c₃ : Circuit} {u₁ : Unit}
    (hc : c.WellFormed) (ha : ∀ w ∈ x ++ temps ++ sign, c.Allocated w)
    (hne : obj = .size → temps[0]? ≠ temps[1]?) (hspawn : c.Spawns negated c₁)
    (hneg : (negate x negated temps obj).exec c₁ = (.ok u₁, c₂)) (hev : c₂.Evolves ∅ c₃)
    (hout : out.Nodup) (hsel : (selectTo negated x sign out temps).exec c₃ = (.ok u, c')) :
    c₃.Evolves {w | w ∈ out ∨ w ∈ temps} c' ∧ ∃ chosen ns, sign = [chosen] ∧
      (toNat ns : Int) = -Encoding.twosComplement.read (x.map (c.value input)) % 2 ^ negated.length ∧
      out.map (c'.value input) = bif c.value input chosen then ns else x.map (c.value input) := by
  simp only [List.forall_mem_append] at ha
  obtain ⟨⟨hax, hatemps⟩, hasign⟩ := ha
  have hall : ∀ w ∈ x ++ temps ++ negated, c₁.Allocated w := by
    simp only [List.forall_mem_append]
    exact ⟨⟨hspawn.all_allocated hax, hspawn.all_allocated hatemps⟩, hspawn.present⟩
  obtain ⟨hev₂, hval⟩ := negate_spec input hspawn.wellFormed hall hspawn.nodup hne hneg
  have hev' : c.Evolves {w | w ∈ temps} c₃ :=
    (hspawn.driven hev₂ fun w hw => hw.symm).trans_same (hev.of_empty _)
  have hkept {w : Wire} (haw : c.Allocated w) (hw : w ∈ negated ++ x ++ sign) :
      c₃.value input w = c.value input w :=
    hev'.value_eq hc haw fun hm => selectTo_reads hsel w hw (.inr hm)
  have hreads : ∀ w ∈ negated ++ x ++ sign, c₃.Allocated w := by
    simp only [List.forall_mem_append]
    exact ⟨⟨hev.all_allocated (hev₂.all_allocated hspawn.present), hev'.all_allocated hax⟩,
      hev'.all_allocated hasign⟩
  obtain ⟨hev₃, chosen, rfl, hbits⟩ := selectTo_spec input hev.wellFormed hreads hout hsel
  have hx₁ : x.map (c₁.value input) = x.map (c.value input) := hspawn.map_value hc hax
  have hx₃ : x.map (c₃.value input) = x.map (c.value input) :=
    List.map_congr_left fun w hw => hkept (hax w hw) (by simp [hw])
  have hnegated : negated.map (c₃.value input) = negated.map (c₂.value input) :=
    hev.map_value hev₂.wellFormed (hev₂.all_allocated hspawn.present)
  refine ⟨hev₃, chosen, negated.map (c₂.value input), rfl, hx₁ ▸ hval, ?_⟩
  rw [hbits, hnegated, hx₃, hkept (hasign chosen (by simp)) (by simp)]

/-- **The magnitude is the absolute value**, also of the most negative integer. -/
theorem magnitude_spec (hc : c.WellFormed) (ha : ∀ w ∈ a ++ temps ++ out, c.Allocated w)
    (hout : out.Nodup) (hne : obj = .size → temps[0]? ≠ temps[1]?)
    (h : (magnitude a out temps obj).exec c = (.ok u, c')) :
    c.Evolves {w | w ∈ out ∨ w ∈ temps} c' ∧ toNat (out.map (c'.value input)) =
      (Encoding.twosComplement.read (a.map (c.value input))).natAbs % 2 ^ out.length := by
  constructor
  · exact (keeps_magnitude (c.upheld_evolves _) (fun w hw => .inl (.inr hw))
      fun w hw => .inl (.inl hw)).evolves hc h
  simp only [List.forall_mem_append] at ha
  obtain ⟨⟨haa, hatemps⟩, haout⟩ := ha
  unfold magnitude at h
  iterate 2 obtain ⟨-, -, h⟩ := exec_check_bind.mp h
  obtain ⟨sign, hsign, h⟩ := exec_check_bind.mp h
  obtain ⟨negated, c₁, hnew, h⟩ := exec_bind_eq_ok.mp h
  obtain ⟨u₁, c₂, hneg, h⟩ := exec_bind_eq_ok.mp h
  obtain ⟨hspawn, hlen⟩ := newBundle_spec hc hnew
  have hall : ∀ w ∈ a ++ temps ++ [sign], c.Allocated w := by
    simp only [List.forall_mem_append, List.forall_mem_singleton]
    exact ⟨⟨haa, hatemps⟩, haa sign (mem_of_msb hsign)⟩
  -- a selection between operand and negation is the magnitude
  have hchosen {o : Bundle} {c₃ c₄ : Circuit} {u₂ : Unit} (ho : o.Nodup) (hev : c₂.Evolves ∅ c₃)
      (hsel : (selectTo negated a [sign] o temps).exec c₃ = (.ok u₂, c₄)) :
      c₃.Evolves {w | w ∈ o ∨ w ∈ temps} c₄ ∧ toNat (o.map (c₄.value input)) =
        (Encoding.twosComplement.read (a.map (c.value input))).natAbs := by
    obtain ⟨hev₄, chosen, ns, he, hns, hbits⟩ :=
      select_negated_spec input hc hall hne hspawn hneg hev ho hsel
    cases he
    rw [hlen, ← List.length_map (c.value input)] at hns
    rw [hbits, value_msb (c.value input) hsign]
    exact ⟨hev₄, toNat_choose_negated hns⟩
  have hev₂ : c.Evolves {w | w ∈ temps} c₂ :=
    hspawn.driven (negate_evolves hspawn.wellFormed hneg) fun w hw => hw.symm
  split at h
  · obtain ⟨-, hval⟩ := hchosen hout (.refl hev₂.wellFormed ∅) h
    rw [← hval, Nat.mod_eq_of_lt]
    simpa using toNat_lt (out.map (c'.value input))
  · obtain ⟨absolute, c₃, hnew₂, h⟩ := exec_bind_eq_ok.mp h
    obtain ⟨u₂, c₄, hsel, h⟩ := exec_bind_eq_ok.mp h
    obtain ⟨hspawn₂, -⟩ := newBundle_spec hev₂.wellFormed hnew₂
    obtain ⟨hev₄, hval⟩ := hchosen hspawn₂.nodup hspawn₂.toEvolves hsel
    have haout₂ : ∀ w ∈ out, c₂.Allocated w := fun w hw => hev₂.allocated (haout w hw)
    obtain ⟨-, hcopy⟩ := copyBundle_spec input hev₄.wellFormed
      (fun w hw => hev₄.allocated (hspawn₂.allocated (haout₂ w hw))) hout
      ⟨hspawn₂.settled hev₄ haout₂, rfl⟩ h
    rw [hcopy, toNat_resize_unsigned, hval]

/-- A magnitude on new wires. While wires that were there before are driven it stays. -/
theorem newMagnitude_spec {D : Set Wire} {m : Bundle} {c₁ : Circuit} (hc : c.WellFormed)
    (ha : ∀ w ∈ a ++ temps, c.Allocated w) (hne : obj = .size → temps[0]? ≠ temps[1]?)
    (hD : ∀ w ∈ D, c.Allocated w) (hnew : (newBundle a.length).exec c = (.ok m, c₁))
    (h : (magnitude a m temps obj).exec c₁ = (.ok u, c')) :
    c.Evolves {w | w ∈ temps} c' ∧ ∃ ms, c'.Signals input D m ms ∧
      toNat ms = (Encoding.twosComplement.read (a.map (c.value input))).natAbs := by
  obtain ⟨hspawn, hlen⟩ := newBundle_spec hc hnew
  have hall : ∀ w ∈ a ++ temps ++ m, c₁.Allocated w :=
    List.forall_mem_append.mpr ⟨hspawn.all_allocated ha, hspawn.present⟩
  have hold : a.map (c₁.value input) = a.map (c.value input) :=
    hspawn.map_value hc (List.forall_mem_append.mp ha).1
  obtain ⟨hev, hvalue⟩ := magnitude_spec input hspawn.wellFormed hall hspawn.nodup hne h
  refine ⟨hspawn.driven hev fun w hw => hw.symm, _, ⟨hspawn.settled hev hD, rfl⟩, ?_⟩
  have hlt := natAbs_read_lt (a.map (c.value input))
  rw [List.length_map, ← hlen] at hlt
  rw [hvalue, hold, Nat.mod_eq_of_lt hlt]

/-- The magnitudes of two operands, as an operation on signed integers begins with them. Both stay
while the temporaries are driven. -/
theorem magnitudes_spec {b ma mb : Bundle} {c₁ c₂ c₃ c₄ : Circuit} {u₁ : Unit} (hc : c.WellFormed)
    (ha : ∀ w ∈ a ++ b, c.Allocated w) (hspawn : c.Spawns temps c₁)
    (hne : obj = .size → temps[0]? ≠ temps[1]?) (hma : (newBundle a.length).exec c₁ = (.ok ma, c₂))
    (hmaga : (magnitude a ma temps obj).exec c₂ = (.ok u, c₃))
    (hmb : (newBundle b.length).exec c₃ = (.ok mb, c₄))
    (hmagb : (magnitude b mb temps obj).exec c₄ = (.ok u₁, c')) :
    c₁.Evolves {w | w ∈ temps} c' ∧ ∃ as bs, c'.Signals input {w | w ∈ temps} ma as ∧
      c'.Signals input {w | w ∈ temps} mb bs ∧
      toNat as = (Encoding.twosComplement.read (a.map (c.value input))).natAbs ∧
      toNat bs = (Encoding.twosComplement.read (b.map (c.value input))).natAbs := by
  obtain ⟨haa, hab⟩ := List.forall_mem_append.mp ha
  have htemps := hspawn.present
  obtain ⟨hev₃, as, hsa, hva⟩ := newMagnitude_spec input (D := {w | w ∈ temps}) hspawn.wellFormed
    (List.forall_mem_append.mpr ⟨hspawn.all_allocated haa, htemps⟩) hne htemps hma hmaga
  have hev : c.Evolves ∅ c₃ := hspawn.driven hev₃ fun w hw => .inr hw
  have htemps₃ := hev₃.all_allocated htemps
  obtain ⟨hev₅, bs, hsb, hvb⟩ := newMagnitude_spec input (D := {w | w ∈ temps}) hev.wellFormed
    (List.forall_mem_append.mpr ⟨hev.all_allocated hab, htemps₃⟩) hne htemps₃ hmb hmagb
  rw [hspawn.map_value hc haa] at hva
  rw [hev.map_value hc hab] at hvb
  exact ⟨hev₃.trans_same hev₅, as, bs, hsa.evolves hev₃.wellFormed hev₅ subset_rfl, hsb, hva, hvb⟩

/-- **A number with its sign put back.** -/
theorem applySign_spec {sign : Bundle} (hc : c.WellFormed)
    (ha : ∀ w ∈ a ++ sign ++ temps ++ out, c.Allocated w)
    (hout : out.Nodup) (hne : obj = .size → temps[0]? ≠ temps[1]?)
    (h : (applySign a sign out temps obj).exec c = (.ok u, c')) :
    c.Evolves {w | w ∈ out ∨ w ∈ temps} c' ∧ ∃ chosen, sign = [chosen] ∧
      (toNat (out.map (c'.value input)) : Int) =
        withSign (c.value input chosen) (toNat (a.map (c.value input))) % 2 ^ out.length := by
  constructor
  · exact (keeps_applySign (c.upheld_evolves _) (fun w hw => .inl (.inr hw))
      fun w hw => .inl (.inl hw)).evolves hc h
  simp only [List.forall_mem_append] at ha
  obtain ⟨⟨⟨haa, hasign⟩, hatemps⟩, -⟩ := ha
  unfold applySign at h
  iterate 2 obtain ⟨-, -, h⟩ := exec_check_bind.mp h
  obtain ⟨absolute, c₁, hext, h⟩ := exec_bind_eq_ok.mp h
  obtain ⟨negated, c₂, hnew, h⟩ := exec_bind_eq_ok.mp h
  obtain ⟨u₁, c₃, hneg, h⟩ := exec_bind_eq_ok.mp h
  obtain ⟨hev₁, habs⟩ := extend_spec input (D := ∅) hc (by simp)
    (Circuit.signals_self haa (by simp)) hext
  obtain ⟨hspawn, hlen⟩ := newBundle_spec hev₁.wellFormed hnew
  have hall : ∀ w ∈ absolute ++ temps ++ sign, c₁.Allocated w := by
    simp only [List.forall_mem_append]
    exact ⟨⟨fun w hw => (habs.settled w hw).allocated, hev₁.all_allocated hatemps⟩,
      hev₁.all_allocated hasign⟩
  have hev₃ := negate_evolves hspawn.wellFormed hneg
  obtain ⟨-, chosen, ns, rfl, hns, hbits⟩ := select_negated_spec input hev₁.wellFormed hall hne hspawn
    hneg (.refl hev₃.wellFormed ∅) hout h
  have hchosen : c₁.value input chosen = c.value input chosen :=
    hev₁.value_eq hc (hasign chosen (by simp)) (Set.notMem_empty chosen)
  have hnumber : (toNat (absolute.map (c₁.value input)) : Int) =
      toNat (a.map (c.value input)) % 2 ^ out.length := by
    rw [habs.values, toNat_resize_unsigned]
    push_cast
    rfl
  refine ⟨chosen, rfl, ?_⟩
  rw [hbits, hchosen]
  cases c.value input chosen with
  | false => exact hnumber
  | true =>
    have hread := read_emod_length .twosComplement (absolute.map (c₁.value input))
    rw [hnumber, habs.values, length_resize, ← habs.values] at hread
    rw [cond_true, hns, hlen]
    exact Int.ModEq.neg hread

/-- The sign of a product or a quotient, when only new wires were driven since the operands were
read. -/
theorem xorSigns_spec {b : Bundle} {sa sb sign : Wire} {c₁ : Circuit} (hc : c.WellFormed)
    (ha : ∀ w ∈ a ++ b, c.Allocated w) (hev : c.Evolves ∅ c₁) (hsa : a.msb = .ok sa)
    (hsb : b.msb = .ok sb) (h : (gate .xor sa sb).exec c₁ = (.ok sign, c')) :
    c₁.Evolves ∅ c' ∧ c'.Allocated sign ∧ c'.value input sign =
      (Encoding.twosComplement.padBit (a.map (c.value input)) ^^
        Encoding.twosComplement.padBit (b.map (c.value input))) := by
  obtain ⟨haa, hab⟩ := List.forall_mem_append.mp ha
  have hxor := gate_spec hev.wellFormed h
  refine ⟨hxor.toEvolves, hxor.readable.allocated, ?_⟩
  rw [hxor.value, value_msb (c₁.value input) hsa, value_msb (c₁.value input) hsb,
    hev.map_value hc haa, hev.map_value hc hab]
  rfl

end Build

/-! ### In every circuit that can be built -/

/-- For all inputs the wires of `out` spell in `c'` the negation of what `a` spells in `c`, cut to their
number. -/
def NegatesInteger (c c' : Circuit) (a out : Bundle) : Prop :=
  ∀ input : Valuation, (toNat (out.map (c'.value input)) : Int) =
    -Encoding.twosComplement.read (a.map (c.value input)) % 2 ^ out.length

/-- For all inputs the wires of `out` spell in `c'` the absolute value of what `a` spells in `c`, cut to
their number. -/
def TakesMagnitude (c c' : Circuit) (a out : Bundle) : Prop :=
  ∀ input : Valuation, toNat (out.map (c'.value input)) =
    (Encoding.twosComplement.read (a.map (c.value input))).natAbs % 2 ^ out.length

/-- For all inputs the wires of `out` spell in `c'` the number on `a` or its negation, as the single
wire of `sign` says in `c`, cut to their number. -/
def PutsSign (c c' : Circuit) (a sign out : Bundle) : Prop :=
  ∃ w, sign = [w] ∧ ∀ input : Valuation, (toNat (out.map (c'.value input)) : Int) =
    (if c.value input w then -(toNat (a.map (c.value input)) : Int)
      else toNat (a.map (c.value input))) % 2 ^ out.length

/-- **Negation, magnitude and sign are exact** in every circuit that can be built, on the values that
the operands have before: a negation also in place, a magnitude also of the most negative integer. -/
theorem signs_are_exact {c : Circuit} (hc : Reachable c) (a out temps : Bundle)
    (ha : ∀ w ∈ a ++ temps ++ out, c.Allocated w) (hout : out.Nodup) (obj : Objective)
    (hne : obj = .size → temps[0]? ≠ temps[1]?) (c' : Circuit) :
    ((Build.negate a out temps obj).exec c = (.ok (), c') → NegatesInteger c c' a out) ∧
    ((Build.magnitude a out temps obj).exec c = (.ok (), c') → TakesMagnitude c c' a out) ∧
    ∀ sign : Bundle, (∀ w ∈ sign, c.Allocated w) →
      (Build.applySign a sign out temps obj).exec c = (.ok (), c') → PutsSign c c' a sign out := by
  refine ⟨fun h input => ?_, fun h input => ?_, fun sign hsign h => ?_⟩
  · exact (Build.negate_spec input hc.wellFormed ha hout hne h).2
  · exact (Build.magnitude_spec input hc.wellFormed ha hout hne h).2
  · simp only [List.forall_mem_append] at ha
    have hall : ∀ w ∈ a ++ sign ++ temps ++ out, c.Allocated w := by
      simp only [List.forall_mem_append]
      exact ⟨⟨⟨ha.1.1, hsign⟩, ha.1.2⟩, ha.2⟩
    have hsigned := fun input => (Build.applySign_spec input hc.wellFormed hall hout hne h).2
    obtain ⟨w, rfl, -⟩ := hsigned fun _ => false
    refine ⟨w, rfl, fun input => ?_⟩
    obtain ⟨w', he, hvalue⟩ := hsigned input
    cases he
    rw [hvalue, withSign, Bool.cond_eq_ite]

/-- A negation in place, the magnitude of an integer on more wires than it has, and a sign put on a
number. -/
theorem signs_are_exact_in_place :
    ∃ c negated absolute signed : Circuit, Reachable c ∧
      (Build.negate [⟨2⟩, ⟨3⟩] [⟨2⟩, ⟨3⟩] [⟨7⟩, ⟨8⟩] .size).exec c = (.ok (), negated) ∧
      NegatesInteger c negated [⟨2⟩, ⟨3⟩] [⟨2⟩, ⟨3⟩] ∧
      (Build.magnitude [⟨0⟩, ⟨1⟩] [⟨4⟩, ⟨5⟩, ⟨6⟩] [⟨7⟩, ⟨8⟩] .size).exec c = (.ok (), absolute) ∧
      TakesMagnitude c absolute [⟨0⟩, ⟨1⟩] [⟨4⟩, ⟨5⟩, ⟨6⟩] ∧
      (Build.applySign [⟨0⟩] [⟨1⟩] [⟨4⟩, ⟨5⟩, ⟨6⟩] [⟨7⟩, ⟨8⟩] .depth).exec c = (.ok (), signed) ∧
      PutsSign c signed [⟨0⟩] [⟨1⟩] [⟨4⟩, ⟨5⟩, ⟨6⟩] := by
  have hc : Reachable (Call.afterAll [.addInput 2, .newBundle 2, .addOutput 3, .addTemps 2,
      .copyTo ⟨0⟩ ⟨2⟩, .copyTo ⟨1⟩ ⟨3⟩]) := reachable_afterAll (by simp [Call.template?])
  obtain ⟨negated, hneg⟩ : ∃ c', (Build.negate [⟨2⟩, ⟨3⟩] [⟨2⟩, ⟨3⟩] [⟨7⟩, ⟨8⟩] .size).exec
      (Call.afterAll [.addInput 2, .newBundle 2, .addOutput 3, .addTemps 2, .copyTo ⟨0⟩ ⟨2⟩,
        .copyTo ⟨1⟩ ⟨3⟩]) = (.ok (), c') := Build.exists_ok (by decide +kernel)
  obtain ⟨absolute, habs⟩ : ∃ c', (Build.magnitude [⟨0⟩, ⟨1⟩] [⟨4⟩, ⟨5⟩, ⟨6⟩] [⟨7⟩, ⟨8⟩] .size).exec
      (Call.afterAll [.addInput 2, .newBundle 2, .addOutput 3, .addTemps 2, .copyTo ⟨0⟩ ⟨2⟩,
        .copyTo ⟨1⟩ ⟨3⟩]) = (.ok (), c') := Build.exists_ok (by decide +kernel)
  obtain ⟨signed, hsigned⟩ : ∃ c', (Build.applySign [⟨0⟩] [⟨1⟩] [⟨4⟩, ⟨5⟩, ⟨6⟩] [⟨7⟩, ⟨8⟩] .depth).exec
      (Call.afterAll [.addInput 2, .newBundle 2, .addOutput 3, .addTemps 2, .copyTo ⟨0⟩ ⟨2⟩,
        .copyTo ⟨1⟩ ⟨3⟩]) = (.ok (), c') := Build.exists_ok (by decide +kernel)
  exact ⟨_, negated, absolute, signed, hc, hneg,
    (signs_are_exact hc _ _ _ (by decide +kernel) (by decide) _ (by decide) _).1 hneg, habs,
    (signs_are_exact hc _ _ _ (by decide +kernel) (by decide) _ (by decide) _).2.1 habs, hsigned,
    (signs_are_exact hc _ _ _ (by decide +kernel) (by decide) _ (by decide) _).2.2 _ (by decide +kernel)
      hsigned⟩

end BitCircuit
