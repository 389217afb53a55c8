/-
# Sign and magnitude, there and back

The circuit for magnitude and sign of an integer evaluates to its absolute value and its top bit
(`Request.magnitude_evaluates`), the one that puts a sign on a number to the number or its negation,
cut to the width (`Request.applySign_evaluates`). So all integers come back from their magnitude and
sign. Not all pairs of a number and a sign come back from the integer made of them: zero has one sign
only, and at half the range and above the integers of the width have run out, but for the most
negative one (`HasSignedForm`, `natAbs_and_padBit_iff`).

Key definitions: `HasSignedForm`.
Key theorems: `padBit_eq_decide`, `natAbs_and_padBit_iff`, `Request.magnitude_evaluates`,
`Request.applySign_evaluates`, `sign_round_trips`.
-/
import BitCircuit.Proofs.Catalogue
import BitCircuit.Proofs.Feasibility
import BitCircuit.Proofs.Integer.Product
import BitCircuit.Proofs.Integer.Sign

namespace BitCircuit

open Bits

/-! ### Numbers with a sign -/

/-- Some integer of `a` bits in two's complement has this magnitude and sign. -/
def HasSignedForm (a m : Nat) (s : Bool) : Prop :=
  m < 2 ^ (a - 1) ∧ ¬ (m = 0 ∧ s = true) ∨ m = 2 ^ (a - 1) ∧ s = true

instance (a m : Nat) (s : Bool) : Decidable (HasSignedForm a m s) :=
  inferInstanceAs (Decidable (_ ∨ _))

/-- The top bit tells the upper half of the range from the lower one. -/
theorem padBit_eq_decide {as : List Bool} {n : Nat} (h : as.length = n + 1) :
    Encoding.twosComplement.padBit as = decide (2 ^ n ≤ toNat as) := by
  obtain rfl | ⟨low, top, rfl⟩ := List.eq_nil_or_concat as
  · cases h
  have hlow : low.length = n := by simpa using h
  have hlt := toNat_lt low
  rw [hlow] at hlt
  rw [Encoding.padBit, List.concat_eq_append, List.getLast?_concat, toNat_append, hlow]
  cases top with
  | false => simpa using hlt
  | true => simp

/-- A number with a sign, cut to a width that the number has. -/
theorem withSign_emod {m k : Nat} (s : Bool) (h : m < 2 ^ k) :
    withSign s m % 2 ^ k = if s = true ∧ m ≠ 0 then (2 ^ k : Int) - m else m := by
  have hlt : (m : Int) < 2 ^ k := by exact_mod_cast h
  cases s with
  | false => exact Int.emod_eq_of_lt (Int.natCast_nonneg m) hlt
  | true =>
    by_cases hm : m = 0
    · simp [hm, withSign]
    · rw [if_pos ⟨rfl, hm⟩, withSign, cond_true, Int.emod_eq_add_self_emod, neg_add_eq_sub]
      exact Int.emod_eq_of_lt (by omega) (by omega)

/-- **Which numbers with a sign come back** from the integer of their width that they make. -/
theorem natAbs_and_padBit_iff {as : List Bool} {n m : Nat} {s : Bool} (h : as.length = n + 1)
    (hm : m < 2 ^ (n + 1)) (has : (toNat as : Int) = withSign s m % 2 ^ (n + 1)) :
    (Encoding.twosComplement.read as).natAbs = m ∧ Encoding.twosComplement.padBit as = s ↔
      HasSignedForm (n + 1) m s := by
  have hpow : (2 : Int) ^ (n + 1) = 2 * (2 ^ n : Nat) := by push_cast; exact pow_succ' 2 n
  have hpad := padBit_eq_decide h
  rw [withSign_emod s hm, hpow] at has
  rw [HasSignedForm, Nat.add_sub_cancel]
  by_cases hhalf : 2 ^ n ≤ toNat as
  · -- a negative integer, which is as far below zero as the bits are below the full range
    rw [decide_eq_true hhalf] at hpad
    have hread := read_of_padBit_eq_true hpad
    rw [h] at hread
    push_cast at hread
    rw [hpow] at hread
    rw [hpad]
    cases s with
    | false => grind
    | true => grind
  · rw [decide_eq_false hhalf] at hpad
    have hread := read_of_padBit_eq_false hpad
    rw [hpad]
    cases s with
    | false => grind
    | true => grind

/-- In one bit there are zero and minus one. -/
example : HasSignedForm 1 0 false ∧ HasSignedForm 1 1 true ∧ ¬ HasSignedForm 1 0 true ∧
    ¬ HasSignedForm 1 1 false := by decide

namespace Build

variable {c c' : Circuit} {x out : Bundle} {obj : Objective} {u : Unit}

/-! ### With temporaries of their own -/

/-- A magnitude and then its sign, which is the top bit of the operand. -/
theorem magnitudeAndSign_spec {sign : Wire} (hc : c.WellFormed) (hx : ∀ w ∈ x, c.Given w)
    (hout : ∀ w ∈ out ++ [sign], c.Allocated w) (hnodup : (out ++ [sign]).Nodup)
    (hwidth : x.length = out.length)
    (h : (addTemps 2 >>= fun temps => magnitude x out temps obj >>= fun _ =>
      (liftM x.msb : Build Wire) >>= fun w => copyTo w sign).exec c = (.ok u, c')) :
    c.Evolves {w | w ∈ out ++ [sign]} c' ∧ ∀ input : Valuation,
      toNat (out.map (c'.value input)) = (Encoding.twosComplement.read (x.map (c.value input))).natAbs ∧
      c'.value input sign = Encoding.twosComplement.padBit (x.map (c.value input)) := by
  obtain ⟨temps, c₁, htemps, h⟩ := exec_bind_eq_ok.mp h
  obtain ⟨u₁, c₂, hmag, h⟩ := exec_bind_eq_ok.mp h
  obtain ⟨top, htop, hcopy⟩ := exec_check_bind.mp h
  obtain ⟨haout, -⟩ := List.forall_mem_append.mp hout
  obtain ⟨hnodup, -, hne⟩ := List.nodup_append.mp hnodup
  obtain ⟨hspawn, hlen⟩ := addTemps_spec hc htemps
  have hall : ∀ w ∈ x ++ temps ++ out, c₁.Allocated w := by
    simp only [List.forall_mem_append]
    exact ⟨⟨fun w hw => hspawn.allocated (hx w hw).readable.allocated, hspawn.present⟩,
      hspawn.all_allocated haout⟩
  have hspec := fun input => magnitude_spec input hspawn.wellFormed hall hnodup
    (fun _ => hspawn.ne_of_length_eq_two hlen) hmag
  have hev : c.Evolves {w | w ∈ out} c₂ := hspawn.driven (hspec fun _ => false).1 fun w hw => hw
  have hset := copyTo_spec hev.wellFormed hcopy
  refine ⟨(hev.mono fun w hw => List.mem_append_left _ hw).trans hset.toEvolves
    fun w hw => .inl (List.mem_append_right _ (List.mem_singleton.mpr hw)), fun input => ⟨?_, ?_⟩⟩
  · -- the sign is none of the wires of the magnitude
    have hkept : out.map (c'.value input) = out.map (c₂.value input) := List.map_congr_left fun w hw =>
      hset.value_eq hev.wellFormed (hev.allocated (haout w hw)) (hne w hw sign (List.mem_singleton.mpr rfl))
    have hfits := natAbs_read_lt (x.map (c.value input))
    rw [List.length_map, hwidth] at hfits
    rw [hkept, (hspec input).2, hspawn.map_value hc fun w hw => (hx w hw).readable.allocated,
      Nat.mod_eq_of_lt hfits]
  · have hoperand : x.map (c₂.value input) = x.map (c.value input) :=
      List.map_congr_left fun w hw => hev.value_given hc (hx w hw)
    rw [hset.value, value_msb (c₂.value input) htop, hoperand]

theorem addTemps_applySign_spec {sign : Bundle} (hc : c.WellFormed)
    (ha : ∀ w ∈ x ++ sign ++ out, c.Allocated w) (hout : out.Nodup)
    (h : (addTemps 2 >>= fun temps => applySign x sign out temps obj).exec c = (.ok u, c')) :
    c.Evolves {w | w ∈ out} c' ∧ ∀ input : Valuation, ∃ chosen, sign = [chosen] ∧
      (toNat (out.map (c'.value input)) : Int) =
        withSign (c.value input chosen) (toNat (x.map (c.value input))) % 2 ^ out.length := by
  obtain ⟨temps, c₁, htemps, h⟩ := exec_bind_eq_ok.mp h
  obtain ⟨hspawn, hlen⟩ := addTemps_spec hc htemps
  simp only [List.forall_mem_append] at ha
  obtain ⟨⟨hax, hasign⟩, haout⟩ := ha
  have hall : ∀ w ∈ x ++ sign ++ temps ++ out, c₁.Allocated w := by
    simp only [List.forall_mem_append]
    exact ⟨⟨⟨hspawn.all_allocated hax, hspawn.all_allocated hasign⟩, hspawn.present⟩,
      hspawn.all_allocated haout⟩
  have hspec := fun input => applySign_spec input hspawn.wellFormed hall hout
    (fun _ => hspawn.ne_of_length_eq_two hlen) h
  refine ⟨hspawn.driven (hspec fun _ => false).1 fun w hw => hw, fun input => ?_⟩
  obtain ⟨-, chosen, rfl, hvalue⟩ := hspec input
  have hchosen : c₁.value input chosen = c.value input chosen :=
    hspawn.value_eq hc (hasign chosen (by simp)) (Set.notMem_empty chosen)
  exact ⟨chosen, rfl, by rw [hvalue, hchosen, hspawn.map_value hc hax]⟩

end Build

namespace Request

open Build

variable {a : Nat} {obj : Objective} {c : Circuit}

/-! ### Circuits of requests -/

/-- The circuit of a magnitude before its gates are appended. -/
theorem exec_magnitude (obj : Objective) (ha : a < wireLimit) :
    ∃ (c : Circuit) (x out : Bundle) (sign : Wire), c.Registers [x] [out, [sign]] ∧ x.length = a ∧
      out.length = a ∧ (Request.magnitude a obj).build.exec .empty = (addTemps 2 >>= fun temps =>
        Build.magnitude x out temps obj >>= fun _ => (liftM x.msb : Build Wire) >>= fun w =>
          copyTo w sign).exec c := by
  refine ⟨((Circuit.empty.withInput a).withOutput a).withOutput 1, _, _, _,
    ⟨((Circuit.wellFormed_empty.withInput a).withOutput a).withOutput 1, rfl, rfl⟩,
    Circuit.length_nextBundle, Circuit.length_nextBundle, ?_⟩
  rw [build, exec_bind, Circuit.exec_addInput, if_pos ha]
  dsimp only
  rw [exec_bind, Circuit.exec_addOutput, if_pos ha]
  dsimp only
  rw [exec_bind, Circuit.exec_addOutput, if_pos (by decide)]
  rfl

/-- **The circuit of a magnitude gives absolute value and sign**, also of the most negative integer. -/
theorem magnitude_evaluates {as : List Bool} (h : (Request.magnitude a obj).circuit = .ok c)
    (ha : as.length = a) : ∃ m, c.evalBits [as] = .ok [m, [Encoding.twosComplement.padBit as]] ∧
      m.length = a ∧ toNat m = (Encoding.twosComplement.read as).natAbs := by
  have halimit : a < wireLimit := (valid_of_circuit h).2 a (by simp [bundles, inputWidths])
  obtain ⟨c₀, x, out, sign, hreg, hx, hout, hexec⟩ := exec_magnitude obj halimit
  obtain ⟨hev, hvalue⟩ := magnitudeAndSign_spec hreg.wellFormed (hreg.given (by simp))
    (List.forall_mem_append.mpr ⟨hreg.allocated (by simp), hreg.allocated (by simp)⟩)
    (by simpa using hreg.nodup) (hx.trans hout.symm) (hexec.symm.trans (exec_of_circuit h))
  have hbits : [as].map List.length = [x].map List.length := by simp [ha, hx]
  obtain ⟨input, hinput, heval⟩ := hreg.evaluates hev (serves_of_circuit h) hbits
  obtain rfl : x.map (c₀.value input) = as := by simpa using hinput
  obtain ⟨hnumber, hsign⟩ := hvalue input
  rw [List.map_cons, List.map_singleton, List.map_singleton, hsign] at heval
  exact ⟨out.map (c.value input), heval, (List.length_map _).trans hout, hnumber⟩

/-- **The circuit for a sign gives the number or its negation**, cut to the width. -/
theorem applySign_evaluates {ms : List Bool} (s : Bool) (h : (Request.applySign a obj).circuit = .ok c)
    (ha : ms.length = a) : ∃ as, c.evalBits [ms, [s]] = .ok [as] ∧ as.length = a ∧
      (toNat as : Int) = withSign s (toNat ms) % 2 ^ a := by
  obtain ⟨x, sign, out, hx, hsign, hout, hreg, hrun⟩ :=
    run_of_circuit (a := a) (b := 1) (n := a) rfl rfl h
  have hall : ∀ w ∈ x ++ sign ++ out, (operands a 1 a).Allocated w := by
    simp only [List.forall_mem_append]
    exact ⟨⟨hreg.allocated (by simp), hreg.allocated (by simp)⟩, hreg.allocated (by simp)⟩
  obtain ⟨hev, hvalue⟩ := addTemps_applySign_spec hreg.wellFormed hall (by simpa using hreg.nodup) hrun
  have hbits : [ms, [s]].map List.length = [x, sign].map List.length := by simp [ha, hx, hsign]
  obtain ⟨input, hinput, heval⟩ := hreg.evaluates hev (serves_of_circuit h) hbits
  obtain ⟨chosen, rfl, hnumber⟩ := hvalue input
  obtain ⟨rfl, rfl⟩ : x.map ((operands a 1 a).value input) = ms ∧
      (operands a 1 a).value input chosen = s := by simpa using hinput
  exact ⟨out.map (c.value input), heval, (List.length_map _).trans hout, hout ▸ hnumber⟩

end Request

open Catalogue in
/-- **Sign and magnitude there and back.** Whatever two catalogues were asked before, they have a
circuit for magnitude and sign and one for putting a sign on, for all widths that a bundle can have and
for any choice of objectives. Every integer comes back from its magnitude and sign. A number and a sign
come back from the integer that they make exactly if some integer of the width has them. -/
theorem sign_round_trips (before before' : List Request) (a : Nat) (obj obj' : Objective) :
    (1 ≤ a → a < wireLimit → (∃ c, ((afterAll before).serve (.magnitude a obj)).result = .ok c) ∧
      ∃ c', ((afterAll before').serve (.applySign a obj')).result = .ok c') ∧
    ∀ c c', ((afterAll before).serve (.magnitude a obj)).result = .ok c →
      ((afterAll before').serve (.applySign a obj')).result = .ok c' →
      (∀ x : List Bool, x.length = a →
        ∃ m s, c.evalBits [x] = .ok [m, s] ∧ c'.evalBits [m, s] = .ok [x]) ∧
      ∀ (m : List Bool) (s : Bool), m.length = a → ∃ x m' s', c'.evalBits [m, [s]] = .ok [x] ∧
        c.evalBits [x] = .ok [m', s'] ∧ ((m' = m ∧ s' = [s]) ↔ HasSignedForm a (toNat m) s) := by
  rw [(holds_afterAll before).result_eq, (holds_afterAll before').result_eq]
  refine ⟨fun ha halimit => ?_, fun c c' hc hc' => ⟨fun x hx => ?_, fun m s hm => ?_⟩⟩
  · have hone : 1 < wireLimit := by decide
    have hfits : ∀ n ∈ [a, a, 1], n < wireLimit := by simp [halimit, hone]
    have hfits' : ∀ n ∈ [a, 1, a], n < wireLimit := by simp [halimit, hone]
    exact ⟨Request.exists_circuit ha hfits, Request.exists_circuit ha hfits'⟩
  · obtain ⟨m, hmag, hmlen, hm⟩ := Request.magnitude_evaluates hc hx
    obtain ⟨y, hsign, hylen, hy⟩ := Request.applySign_evaluates (Encoding.twosComplement.padBit x) hc' hmlen
    have hnumber : (toNat y : Int) = toNat x := by
      rw [hy, hm, ← read_eq_withSign, ← hx, read_emod_length]
    obtain rfl := toNat_injOn_length (hylen.trans hx.symm) (by exact_mod_cast hnumber)
    exact ⟨m, _, hmag, hsign⟩
  · obtain ⟨x, hsign, hxlen, hx⟩ := Request.applySign_evaluates s hc' hm
    obtain ⟨m', hmag, hmlen, hm'⟩ := Request.magnitude_evaluates hc hxlen
    refine ⟨x, m', _, hsign, hmag, ?_⟩
    obtain ⟨n, rfl⟩ : ∃ n, a = n + 1 := Nat.exists_eq_add_of_le' (Request.valid_of_circuit hc).1
    have hlt := toNat_lt m
    rw [hm] at hlt
    have hback : m' = m ↔ (Encoding.twosComplement.read x).natAbs = toNat m := by
      rw [← hm']
      exact ⟨congrArg toNat, toNat_injOn_length (hmlen.trans hm.symm)⟩
    rw [hback, List.singleton_inj, natAbs_and_padBit_iff hxlen hlt hx]

/-- The most negative integer of four bits comes back, minus nine does not. -/
theorem sign_round_trips_four :
    ∃ c c', (Catalogue.empty.serve (.magnitude 4 .size)).result = .ok c ∧
      ((Catalogue.afterAll [.negate 3 .size]).serve (.applySign 4 .depth)).result = .ok c' ∧
      (∃ m s, c.evalBits [[false, false, false, true]] = .ok [m, s] ∧
        c'.evalBits [m, s] = .ok [[false, false, false, true]]) ∧
      ∃ x m s, c'.evalBits [[true, false, false, true], [true]] = .ok [x] ∧
        c.evalBits [x] = .ok [m, s] ∧ ¬ (m = [true, false, false, true] ∧ s = [true]) := by
  obtain ⟨hserved, hround⟩ := sign_round_trips [] [.negate 3 .size] 4 .size .depth
  obtain ⟨⟨c, hc⟩, c', hc'⟩ := hserved (by decide) (by decide)
  obtain ⟨hthere, hback⟩ := hround c c' hc hc'
  obtain ⟨x, m, s, hx, hms, hiff⟩ := hback [true, false, false, true] true rfl
  exact ⟨c, c', hc, hc', hthere _ rfl, x, m, s, hx, hms, fun h => absurd (hiff.mp h) (by decide)⟩

end BitCircuit
