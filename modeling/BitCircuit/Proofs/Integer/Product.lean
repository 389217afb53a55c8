/-
# Both multipliers compute products

In every circuit that can be built, for operands of any width, with constants, repeated wires or
wires in common, a product that is not refused is that of the integers on the operands, cut to the
width of the result.

A term of the sum carries an amount modulo the width of the product (`ShiftedSum.Carries`). The terms
carry the first operand shifted to the bits of the second one, so they add up to the product, and
two terms are joined so that their amounts add up: the chain and the balanced tree sum alike. The
product of signed integers is that of their magnitudes with the sign put back.

Key definitions: `ShiftedSum.Carries`, `MultipliesIntegers`.
Key theorems: `Build.accumulate_joins`, `Build.partialProducts_spec`, `Build.multiplyUnsigned_spec`,
`multipliers_compute_products`.
-/
import Mathlib.Data.Nat.ModEq
import BitCircuit.Integer.Product
import BitCircuit.Proofs.Integer.Reduce
import BitCircuit.Proofs.Integer.Sign

namespace BitCircuit

open Bits

/-! ### Shifted numbers -/

/-- A number is its low bits and its high bits shifted up. -/
theorem toNat_resize_add_drop (n : Nat) (bs : List Bool) :
    toNat bs = toNat (Encoding.unsigned.resize n bs) + 2 ^ n * toNat (bs.drop n) := by
  unfold Encoding.resize
  split
  · rename_i h
    have hsplit := toNat_append (bs.take n) (bs.drop n)
    rwa [List.take_append_drop, List.length_take_of_le h] at hsplit
  · rename_i h
    rw [Encoding.padBit, toNat_append, toNat_replicate_false, List.drop_eq_nil_of_le (by omega)]
    simp

/-- Bits of one length are determined by their number. -/
theorem toNat_injOn_length : ∀ {as bs : List Bool}, as.length = bs.length → toNat as = toNat bs → as = bs
  | [], [], _, _ => rfl
  | a :: as, b :: bs, hlen, h => by
    rw [toNat_cons, toNat_cons] at h
    have ha := Bool.toNat_lt a
    have hb := Bool.toNat_lt b
    have hhead : a.toNat = b.toNat := by omega
    have htail : as = bs := toNat_injOn_length (by simpa using hlen) (by omega)
    rw [htail]
    cases a <;> cases b <;> simp_all

/-- Bits from the width on do not count. -/
theorem toNat_take_modEq (n : Nat) (bs : List Bool) : toNat (bs.take n) ≡ toNat bs [MOD 2 ^ n] := by
  rcases Nat.le_total n bs.length with h | h
  · rw [toNat_take n bs h]
    exact Nat.mod_modEq _ _
  · rw [List.take_of_length_le h]

/-- Shifting a number up shifts what it is cut off to. -/
theorem shift_modEq {x y shift width : Nat} (h : shift ≤ width) (hxy : x ≡ y [MOD 2 ^ (width - shift)]) :
    2 ^ shift * x ≡ 2 ^ shift * y [MOD 2 ^ width] := by
  have hmul := Nat.ModEq.mul_left' (2 ^ shift) hxy
  rwa [← pow_add, Nat.add_sub_cancel' h] at hmul

/-- The sum of two shifted numbers, of which the bits below the second one pass through. -/
theorem shifted_sum_modEq {low upper y s t width : Nat} (hst : s ≤ t) (ht : t ≤ width) :
    2 ^ s * (low + 2 ^ (t - s) * ((upper + y) % 2 ^ (width - t))) ≡
      2 ^ s * (low + 2 ^ (t - s) * upper) + 2 ^ t * y [MOD 2 ^ width] := by
  have hpow : 2 ^ s * 2 ^ (t - s) = 2 ^ t := by rw [← pow_add, Nat.add_sub_cancel' hst]
  calc
    _ = 2 ^ s * low + 2 ^ t * ((upper + y) % 2 ^ (width - t)) := by rw [← hpow]; ring
    _ ≡ 2 ^ s * low + 2 ^ t * (upper + y) [MOD 2 ^ width] :=
      (shift_modEq ht (Nat.mod_modEq _ _)).add_left _
    _ = _ := by rw [← hpow]; ring

/-- A term carries an amount: its bits are settled and spell it, shifted up, modulo the width. -/
def ShiftedSum.Carries (input : Valuation) (D : Set Wire) (width : Nat) (c : Circuit) (s : ShiftedSum)
    (x : Nat) : Prop :=
  ∃ bs, c.Signals input D s.bits bs ∧ 2 ^ s.shift * toNat bs ≡ x [MOD 2 ^ width]

namespace Build

variable {c c' : Circuit} {D : Set Wire} {a b out temps : Bundle} {obj : Objective} {width : Nat}
  {u : Unit}

/-! ### The terms and their sum -/

variable (input : Valuation)

/-- The sum of two bundles on new wires, in plain binary. -/
theorem add_unsigned_spec {sum : Bundle} {as bs : List Bool} (hc : c.WellFormed)
    (ha : c.Signals input D a as) (hb : c.Signals input D b bs) (htemps : ∀ w ∈ temps, c.Allocated w)
    (hsum : ∀ w ∈ sum, c.Allocated w) (hnd : sum.Nodup) (hne : obj = .size → temps[0]? ≠ temps[1]?)
    (h : (add a b sum temps .unsigned obj).exec c = (.ok u, c')) :
    c.Evolves {w | w ∈ sum ∨ w ∈ temps} c' ∧
      toNat (sum.map (c'.value input)) = (toNat as + toNat bs) % 2 ^ sum.length := by
  have hall : ∀ w ∈ a ++ b ++ temps ++ sum, c.Allocated w := by
    simp only [List.forall_mem_append]
    exact ⟨⟨⟨fun w hw => (ha.settled w hw).allocated, fun w hw => (hb.settled w hw).allocated⟩, htemps⟩,
      hsum⟩
  obtain ⟨hev, hadds⟩ := addSub_spec hc hall hnd hne h
  have hvalue : (toNat (sum.map (c'.value input)) : Int) =
      ((toNat as : Int) + toNat bs) % 2 ^ sum.length := by
    rw [hadds input, ha.values, hb.values]
    rfl
  exact ⟨hev, by exact_mod_cast hvalue⟩

/-- The bits of the first term from where the second one starts are added to it, if the width leaves
room for a sum. -/
theorem addUpper_spec {bits sum : Bundle} {los bs : List Bool} {gap : Nat} {s p : ShiftedSum}
    (hc : c.WellFormed) (hD : ∀ w ∈ D, c.Allocated w) (hlo : c.Signals input D bits los)
    (hb : c.Signals input D b bs) (htemps : ∀ w ∈ temps, w ∈ D) (hsum : ∀ w ∈ sum, c.Allocated w)
    (hnd : sum.Nodup) (hne : obj = .size → temps[0]? ≠ temps[1]?)
    (h : (if !sum.isEmpty then
        if bits.length > gap then (liftM (bits.slice gap bits.length) : Build Bundle) >>= fun upper =>
          add upper b sum temps .unsigned obj >>= fun _ => pure s
        else constantBundle 0 1 >>= fun upper => add upper b sum temps .unsigned obj >>= fun _ => pure s
      else (pure s : Build ShiftedSum)).exec c = (.ok p, c')) :
    p = s ∧ c.Evolves {w | w ∈ sum ∨ w ∈ temps} c' ∧
      toNat (sum.map (c'.value input)) = (toNat (los.drop gap) + toNat bs) % 2 ^ sum.length := by
  have hadd {upper : Bundle} {us : List Bool} {c₁ : Circuit} (hev : c.Evolves ∅ c₁)
      (hupper : c₁.Signals input D upper us) (hus : toNat us = toNat (los.drop gap))
      (h : (add upper b sum temps .unsigned obj >>= fun _ => (pure s : Build ShiftedSum)).exec c₁ =
        (.ok p, c')) :
      p = s ∧ c.Evolves {w | w ∈ sum ∨ w ∈ temps} c' ∧
        toNat (sum.map (c'.value input)) = (toNat (los.drop gap) + toNat bs) % 2 ^ sum.length := by
    obtain ⟨u, c₂, hadd, h⟩ := exec_bind_eq_ok.mp h
    obtain ⟨rfl, rfl⟩ := exec_pure_eq_ok.mp h
    obtain ⟨hev₂, hvalue⟩ := add_unsigned_spec input hev.wellFormed hupper
      (hb.evolves hc hev (Set.empty_subset D)) (fun w hw => hev.allocated (hD w (htemps w hw)))
      (hev.all_allocated hsum) hnd hne hadd
    exact ⟨rfl, (hev.of_empty _).trans_same hev₂, by rw [hvalue, hus]⟩
  split at h
  · split at h
    · obtain ⟨upper, hslice, h⟩ := exec_check_bind.mp h
      obtain ⟨-, rfl⟩ := slice_eq_ok.mp hslice
      refine hadd (.refl hc ∅) ⟨fun w hw => hlo.settled w ?_, rfl⟩ ?_ h
      · exact List.mem_of_mem_take (List.mem_of_mem_drop hw)
      · rw [List.take_length, List.map_drop, hlo.values]
    · rename_i hshort
      obtain ⟨zero, c₁, hzero, h⟩ := exec_bind_eq_ok.mp h
      obtain ⟨hev, hszero⟩ := constantBundle_spec input hc hD hzero
      refine hadd hev hszero ?_ h
      rw [List.drop_eq_nil_of_le (by rw [← hlo.length_eq]; omega)]
      rfl
  · -- the second term starts at the width
    rename_i hempty
    obtain ⟨rfl, rfl⟩ := exec_pure_eq_ok.mp h
    obtain rfl : sum = [] := by simpa using hempty
    exact ⟨rfl, .refl hc _, by simp [Nat.mod_one]⟩

/-- **Two terms are joined so that their amounts add up.** -/
theorem accumulate_joins (htemps : ∀ w ∈ temps, w ∈ D) (hne : obj = .size → temps[0]? ≠ temps[1]?) :
    JoinsAmounts D (fun _ => ShiftedSum.Carries input D width) ShiftedSum.shift
      (fun _ => accumulate width temps obj) where
  kept hc hcarries hev := by
    obtain ⟨bs, hs, hx⟩ := hcarries
    exact ⟨bs, hs.evolves hc hev subset_rfl, hx⟩
  joined := by
    rintro - lo hi p x y c c' hc hD ⟨los, hlo, hx⟩ ⟨his, hhi, hy⟩ h
    unfold accumulate at h
    obtain ⟨gap, hgap, h⟩ := exec_check_bind.mp h
    obtain ⟨hle, rfl⟩ := difference_eq_ok_iff.mp hgap
    obtain ⟨low, c₁, hlow, h⟩ := exec_bind_eq_ok.mp h
    obtain ⟨n, hn, h⟩ := exec_check_bind.mp h
    obtain ⟨hle', rfl⟩ := difference_eq_ok_iff.mp hn
    obtain ⟨sum, c₂, hnew, h⟩ := exec_bind_eq_ok.mp h
    obtain ⟨hev₁, hslow⟩ := extend_spec input hc hD hlo hlow
    obtain ⟨hspawn, hlen⟩ := newBundle_spec hev₁.wellFormed hnew
    have hev₂ := hev₁.trans_same hspawn.toEvolves
    obtain ⟨rfl, hev₃, hvalue⟩ := addUpper_spec input hspawn.wellFormed (hev₂.all_allocated hD)
      (hlo.evolves hc hev₂ (Set.empty_subset D)) (hhi.evolves hc hev₂ (Set.empty_subset D)) htemps
      hspawn.present hspawn.nodup hne h
    have hev₄ : c₁.Evolves D c' := hspawn.driven hev₃ fun w hw => hw.symm.imp_left (htemps w)
    have hslow₄ := hslow.evolves hev₁.wellFormed hev₄ subset_rfl
    refine ⟨(hev₁.of_empty D).trans_same hev₄, ⟨_, ⟨fun w hw => ?_, rfl⟩, ?_⟩, rfl⟩
    · rcases List.mem_append.mp hw with hw | hw
      · exact hslow₄.settled w hw
      · exact hspawn.settled hev₃ (hev₁.all_allocated hD) w hw
    · have hsplit := toNat_resize_add_drop (hi.shift - lo.shift) los
      calc
        _ = 2 ^ lo.shift * (toNat (Encoding.unsigned.resize (hi.shift - lo.shift) los) +
            2 ^ (hi.shift - lo.shift) * ((toNat (los.drop (hi.shift - lo.shift)) + toNat his) %
              2 ^ (width - hi.shift))) := by
          rw [List.map_append, toNat_append, hslow₄.values, hvalue, length_resize, hlen]
        _ ≡ 2 ^ lo.shift * toNat los + 2 ^ hi.shift * toNat his [MOD 2 ^ width] := by
          rw [hsplit]
          exact shifted_sum_modEq hle hle'
        _ ≡ x + y [MOD 2 ^ width] := hx.add hy

/-- One term is the first operand or zero, as a bit of the second one says. -/
theorem partialProduct_spec {shift : Nat} {bit : Wire} {s : ShiftedSum} {as : List Bool}
    (hc : c.WellFormed) (hD : ∀ w ∈ D, c.Allocated w) (ha : c.Signals input D a as)
    (hbit : c.Settled D bit)
    (h : ((liftM (difference width shift) : Build Nat) >>= fun n =>
      (liftM (a.slice 0 (min a.length n)) : Build Bundle) >>= fun shifted =>
      constantBundle 0 shifted.length >>= fun zero => select shifted zero bit >>= fun bits =>
      (pure ⟨shift, bits⟩ : Build ShiftedSum)).exec c = (.ok s, c')) :
    c.Evolves ∅ c' ∧ s.shift = shift ∧
      s.Carries input D width c' (2 ^ shift * ((c.value input bit).toNat * toNat as)) := by
  obtain ⟨n, hn, h⟩ := exec_check_bind.mp h
  obtain ⟨hle, rfl⟩ := difference_eq_ok_iff.mp hn
  obtain ⟨shifted, hslice, h⟩ := exec_check_bind.mp h
  obtain ⟨-, rfl⟩ := slice_eq_ok.mp hslice
  obtain ⟨zero, c₁, hzero, h⟩ := exec_bind_eq_ok.mp h
  obtain ⟨bits, c₂, hselect, h⟩ := exec_bind_eq_ok.mp h
  obtain ⟨rfl, rfl⟩ := exec_pure_eq_ok.mp h
  obtain ⟨hev₁, hszero⟩ := constantBundle_spec input hc hD hzero
  have ha₁ := ha.evolves hc hev₁ (Set.empty_subset D)
  have hbit₁ := hbit.evolves hev₁
  obtain ⟨hev₂, hbits⟩ := select_spec input hev₁.wellFormed (hev₁.all_allocated hD)
    (fun w hw => ha₁.settled w (List.mem_of_mem_take hw)) hszero.settled hbit₁ hselect
  refine ⟨hev₁.trans_same hev₂, rfl, _, hbits, shift_modEq hle ?_⟩
  rw [hbit.value_eq hc hev₁ (Set.empty_subset D), List.map_take, ha₁.values, ha.length_eq,
    hszero.values, Word.signedBits_zero, Nat.min_comm, ← List.take_eq_take_min]
  cases c.value input bit with
  | true => simpa using toNat_take_modEq (width - shift) as
  | false =>
    rw [cond_false, toNat_replicate_false, Bool.toNat_false, Nat.zero_mul]

/-- Terms at successive positions carry the operand times the bits at these positions. -/
theorem mapM_terms_spec {f : Wire × Nat → Build ShiftedSum} {as : List Bool}
    (hf : ∀ {bit shift c c' s}, c.WellFormed → (∀ w ∈ D, c.Allocated w) → c.Signals input D a as →
      c.Settled D bit → (f (bit, shift)).exec c = (.ok s, c') → c.Evolves ∅ c' ∧ s.shift = shift ∧
        s.Carries input D width c' (2 ^ shift * ((c.value input bit).toNat * toNat as))) :
    ∀ {l : Bundle} {k : Nat} {c c' : Circuit} {terms : List ShiftedSum}, c.WellFormed →
    (∀ w ∈ D, c.Allocated w) → c.Signals input D a as → (∀ w ∈ l, c.Settled D w) →
    ((l.zipIdx k).mapM f).exec c = (.ok terms, c') →
    c.Evolves ∅ c' ∧ terms.map ShiftedSum.shift = List.range' k l.length ∧
      ∃ xs, List.Forall₂ (ShiftedSum.Carries input D width c') terms xs ∧
        xs.sum = 2 ^ k * (toNat (l.map (c.value input)) * toNat as)
  | [], k, c, c', terms, hc, _, _, _, h => by
    rw [List.zipIdx_nil, List.mapM_nil] at h
    obtain ⟨rfl, rfl⟩ := exec_pure_eq_ok.mp h
    exact ⟨.refl hc ∅, rfl, [], .nil, by simp⟩
  | bit :: l, k, c, c', terms, hc, hD, ha, hl, h => by
    obtain ⟨hbit, hl⟩ := List.forall_mem_cons.mp hl
    rw [List.zipIdx_cons, List.mapM_cons] at h
    obtain ⟨s, c₁, hterm, h⟩ := exec_bind_eq_ok.mp h
    obtain ⟨rest, c₂, hrest, h⟩ := exec_bind_eq_ok.mp h
    obtain ⟨rfl, rfl⟩ := exec_pure_eq_ok.mp h
    obtain ⟨hev₁, hshift, bs, hs, hx⟩ := hf hc hD ha hbit hterm
    obtain ⟨hev₂, hshifts, xs, hxs, hsum⟩ := mapM_terms_spec hf hev₁.wellFormed
      (hev₁.all_allocated hD) (ha.evolves hc hev₁ (Set.empty_subset D))
      (fun w hw => (hl w hw).evolves hev₁) hrest
    have hsame : l.map (c₁.value input) = l.map (c.value input) :=
      List.map_congr_left fun w hw => (hl w hw).value_eq hc hev₁ (Set.empty_subset D)
    refine ⟨hev₁.trans_same hev₂, ?_, _, .cons ⟨bs, ?_, hx⟩ hxs, ?_⟩
    · rw [List.map_cons, hshift, hshifts, List.length_cons, List.range'_succ]
    · exact hs.evolves hev₁.wellFormed hev₂ (Set.empty_subset D)
    · rw [List.sum_cons, hsum, hsame, List.map_cons, toNat_cons, pow_succ]
      ring

/-- **The terms add up to the product.** -/
theorem partialProducts_spec {terms : List ShiftedSum} {as bs : List Bool} (hc : c.WellFormed)
    (hD : ∀ w ∈ D, c.Allocated w) (ha : c.Signals input D a as) (hb : c.Signals input D b bs)
    (h : (partialProducts a b width).exec c = (.ok terms, c')) :
    c.Evolves ∅ c' ∧ (∀ k ∈ (terms.map ShiftedSum.shift).head?, k = 0) ∧
      ∃ xs, List.Forall₂ (ShiftedSum.Carries input D width c') terms xs ∧
        xs.sum ≡ toNat as * toNat bs [MOD 2 ^ width] := by
  obtain ⟨hev, hshifts, xs, hxs, hsum⟩ := mapM_terms_spec input (partialProduct_spec input) hc hD ha
    (fun w hw => hb.settled w (List.mem_of_mem_take hw)) h
  refine ⟨hev, fun k hk => ?_, xs, hxs, ?_⟩
  · rw [hshifts] at hk
    cases hlen : (b.take width).length with
    | zero => simp [hlen] at hk
    | succ n =>
      rw [hlen, List.range'_succ, List.head?_cons] at hk
      exact (Option.some.inj hk).symm
  · rw [hsum, pow_zero, Nat.one_mul, List.map_take, hb.values, Nat.mul_comm]
    exact (toNat_take_modEq width bs).mul_left _

/-! ### Products -/

/-- **The product of two numbers.** -/
theorem multiplyUnsigned_spec {as bs : List Bool} (hc : c.WellFormed)
    (haout : ∀ w ∈ out, c.Allocated w) (hout : out.Nodup) (ha : c.Signals input {w | w ∈ out} a as)
    (hb : c.Signals input {w | w ∈ out} b bs)
    (h : (multiplyUnsigned a b out obj).exec c = (.ok u, c')) :
    c.Evolves {w | w ∈ out} c' ∧
      toNat (out.map (c'.value input)) = toNat as * toNat bs % 2 ^ out.length := by
  constructor
  · exact (keeps_multiplyUnsigned (c.upheld_evolves _) fun w hw => .inl hw).evolves hc h
  unfold multiplyUnsigned at h
  obtain ⟨temps, c₁, htemps, h⟩ := exec_bind_eq_ok.mp h
  obtain ⟨terms, c₂, hterms, h⟩ := exec_bind_eq_ok.mp h
  obtain ⟨hspawn, hne⟩ := adderTemps_spec hc htemps
  have hD : ∀ w ∈ {w | w ∈ out ∨ w ∈ temps}, c₁.Allocated w := by
    rintro w (hw | hw)
    · exact hspawn.allocated (haout w hw)
    · exact hspawn.present w hw
  obtain ⟨hev₂, hfirst, xs, hxs, hproduct⟩ := partialProducts_spec input hspawn.wellFormed hD
    (hspawn.signals_old hc ha) (hspawn.signals_old hc hb) hterms
  have hD₂ := hev₂.all_allocated hD
  have hjoins : JoinsAmounts _ (fun _ => ShiftedSum.Carries input {w | w ∈ out ∨ w ∈ temps} out.length)
      ShiftedSum.shift (fun _ => accumulate out.length temps obj) :=
    accumulate_joins input (fun w hw => .inr hw) hne
  -- the total starts at the lowest bit
  have hcopy {total : ShiftedSum} {c₃ : Circuit} (hev₃ : c₂.Evolves {w | w ∈ out ∨ w ∈ temps} c₃)
      (htotal : total.Carries input {w | w ∈ out ∨ w ∈ temps} out.length c₃ xs.sum)
      (hshift : (terms.map ShiftedSum.shift).head? = some total.shift)
      (h : (copyBundle total.bits out .unsigned).exec c₃ = (.ok u, c')) :
      toNat (out.map (c'.value input)) = toNat as * toNat bs % 2 ^ out.length := by
    obtain ⟨ts, hts, hsum⟩ := htotal
    obtain ⟨-, hbits⟩ := copyBundle_spec input hev₃.wellFormed
      (fun w hw => hev₃.allocated (hD₂ w (.inl hw))) hout
      (hts.mono fun w hw => .inl hw) h
    rw [hfirst total.shift hshift, pow_zero, Nat.one_mul] at hsum
    rw [hbits, toNat_resize_unsigned]
    exact hsum.trans hproduct
  dsimp only at h
  split at h
  · obtain ⟨total, c₃, htotal, -⟩ := exec_bind_eq_ok.mp h
    exact (exec_throw_eq_ok.mp htotal).elim
  · obtain ⟨total, c₃, htotal, h⟩ := exec_bind_eq_ok.mp h
    obtain ⟨x, xs, hx, hrest, rfl⟩ := List.forall₂_cons_left_iff.mp hxs
    obtain ⟨hev₃, hcarries, hshift⟩ := hjoins.foldlM_spec false hev₂.wellFormed hD₂ hx hrest htotal
    exact hcopy hev₃ (by rwa [List.sum_cons]) (by simp [hshift]) h
  · rename_i hnil
    obtain ⟨first, rest, rfl⟩ := List.exists_cons_of_ne_nil hnil
    obtain ⟨total, c₃, htotal, h⟩ := exec_bind_eq_ok.mp h
    obtain ⟨x, xs, hx, hrest, rfl⟩ := List.forall₂_cons_left_iff.mp hxs
    obtain ⟨hev₃, hcarries, hshift⟩ := hjoins.reduce_spec hev₂.wellFormed hD₂ hx hrest htotal
    exact hcopy hev₃ (by rwa [List.sum_cons]) (by simp [hshift]) h

theorem multiply_unsigned_spec (hc : c.WellFormed) (ha : ∀ w ∈ a ++ b ++ out, c.Allocated w)
    (hout : out.Nodup) (h : (multiply a b out obj .unsigned).exec c = (.ok u, c')) :
    toNat (out.map (c'.value input)) =
      toNat (a.map (c.value input)) * toNat (b.map (c.value input)) % 2 ^ out.length := by
  simp only [List.forall_mem_append] at ha
  obtain ⟨⟨haa, hab⟩, haout⟩ := ha
  unfold multiply at h
  obtain ⟨-, -, h⟩ := exec_check_bind.mp h
  obtain ⟨u₁, hdistinct, h⟩ := exec_check_bind.mp h
  have hfree := requireDistinct_eq_ok.mp hdistinct out (by simp)
  exact (multiplyUnsigned_spec input hc haout hout
    (Circuit.signals_self haa fun w hw hm => hfree a (by simp) w hm hw)
    (Circuit.signals_self hab fun w hw hm => hfree b (by simp) w hm hw) h).2

/-- The product of two integers in two's complement is that of their magnitudes with a sign. -/
theorem multiply_signed_spec (hc : c.WellFormed) (ha : ∀ w ∈ a ++ b ++ out, c.Allocated w)
    (hout : out.Nodup) (h : (multiply a b out obj .twosComplement).exec c = (.ok u, c')) :
    (toNat (out.map (c'.value input)) : Int) =
      Encoding.twosComplement.read (a.map (c.value input)) *
        Encoding.twosComplement.read (b.map (c.value input)) % 2 ^ out.length := by
  obtain ⟨hoperands, haout⟩ := List.forall_mem_append.mp ha
  unfold multiply at h
  iterate 2 obtain ⟨-, -, h⟩ := exec_check_bind.mp h
  obtain ⟨temps, c₁, htemps, h⟩ := exec_bind_eq_ok.mp h
  obtain ⟨ma, c₂, hma, h⟩ := exec_bind_eq_ok.mp h
  obtain ⟨u₁, c₃, hmaga, h⟩ := exec_bind_eq_ok.mp h
  obtain ⟨mb, c₄, hmb, h⟩ := exec_bind_eq_ok.mp h
  obtain ⟨u₂, c₅, hmagb, h⟩ := exec_bind_eq_ok.mp h
  obtain ⟨product, c₆, hproduct, h⟩ := exec_bind_eq_ok.mp h
  obtain ⟨u₃, c₇, hmul, h⟩ := exec_bind_eq_ok.mp h
  obtain ⟨sa, hsa, h⟩ := exec_check_bind.mp h
  obtain ⟨sb, hsb, h⟩ := exec_check_bind.mp h
  obtain ⟨sign, c₈, hsign, h⟩ := exec_bind_eq_ok.mp h
  obtain ⟨hspawn, htlen⟩ := addTemps_spec hc htemps
  have hne : temps[0]? ≠ temps[1]? := hspawn.ne_of_length_eq_two htlen
  obtain ⟨hev₅, as, bs, has, hbs, hva, hvb⟩ := magnitudes_spec input hc hoperands hspawn (fun _ => hne) hma
    hmaga hmb hmagb
  obtain ⟨hnew, hplen⟩ := newBundle_spec hev₅.wellFormed hproduct
  obtain ⟨hev₇, hvalue⟩ := multiplyUnsigned_spec input hnew.wellFormed hnew.present hnew.nodup
    ((hnew.signals_old hev₅.wellFormed has).mono fun w hw => .inr hw)
    ((hnew.signals_old hev₅.wellFormed hbs).mono fun w hw => .inr hw) hmul
  -- all this drives only new wires
  have hev₁ : c₁.Evolves {w | w ∈ temps} c₇ :=
    hev₅.trans_same (hnew.driven hev₇ fun w hw => .inr hw)
  have hev : c.Evolves ∅ c₇ := hspawn.driven hev₁ fun w hw => .inr hw
  obtain ⟨hev₈, hsigna, hsigned⟩ := xorSigns_spec input hc hoperands hev hsa hsb hsign
  have hall : ∀ w ∈ product ++ [sign] ++ temps ++ out, c₈.Allocated w := by
    simp only [List.forall_mem_append, List.forall_mem_singleton]
    exact ⟨⟨⟨hev₈.all_allocated (hev₇.all_allocated hnew.present), hsigna⟩,
      hev₈.all_allocated (hev₁.all_allocated hspawn.present)⟩,
      hev₈.all_allocated (hev.all_allocated haout)⟩
  obtain ⟨-, chosen, he, hresult⟩ := applySign_spec input hev₈.wellFormed hall hout (fun _ => hne) h
  cases he
  have hproduct₈ : product.map (c₈.value input) = product.map (c₇.value input) :=
    hev₈.map_value hev₇.wellFormed (hev₇.all_allocated hnew.present)
  rw [hresult, hsigned, hproduct₈, hvalue, hplen, withSign_mod_emod, hva, hvb, ← withSign_mul,
    ← read_eq_withSign, ← read_eq_withSign]

end Build

/-- For all inputs the wires of `out` spell in `c'` the product of what `a` and `b` spell in `c`, cut
to their number. -/
def MultipliesIntegers (c c' : Circuit) (a b out : Bundle) (enc : Encoding) : Prop :=
  ∀ input : Valuation, (Bits.toNat (out.map (c'.value input)) : Int) =
    enc.read (a.map (c.value input)) * enc.read (b.map (c.value input)) % 2 ^ out.length

/-- **Both multipliers compute the product of integers** in every circuit that can be built, and so
they agree bit by bit. -/
theorem multipliers_compute_products {c : Circuit} (hc : Reachable c) (a b out : Bundle)
    (ha : ∀ w ∈ a ++ b ++ out, c.Allocated w) (hout : out.Nodup) (enc : Encoding) :
    (∀ obj c', (Build.multiply a b out obj enc).exec c = (.ok (), c') →
      MultipliesIntegers c c' a b out enc) ∧
    (∀ small shallow, (Build.multiply a b out .size enc).exec c = (.ok (), small) →
      (Build.multiply a b out .depth enc).exec c = (.ok (), shallow) →
      ∀ input : Valuation, out.map (small.value input) = out.map (shallow.value input)) := by
  have hproduct (obj : Objective) (c' : Circuit)
      (h : (Build.multiply a b out obj enc).exec c = (.ok (), c')) :
      MultipliesIntegers c c' a b out enc := by
    intro input
    cases enc with
    | unsigned =>
      rw [Build.multiply_unsigned_spec input hc.wellFormed ha hout h]
      push_cast
      rfl
    | twosComplement => exact Build.multiply_signed_spec input hc.wellFormed ha hout h
  refine ⟨hproduct, fun small shallow hsmall hshallow input => ?_⟩
  have hnumber : Bits.toNat (out.map (small.value input)) = Bits.toNat (out.map (shallow.value input)) := by
    have hboth := (hproduct _ _ hsmall input).trans (hproduct _ _ hshallow input).symm
    exact_mod_cast hboth
  exact toNat_injOn_length (by simp) hnumber

/-- Both multipliers on signed operands with a constant sign: the first one is negative, the second
one has a single bit. -/
theorem multipliers_compute_products_negative :
    ∃ c small shallow : Circuit, Reachable c ∧ c.state? ⟨6⟩ = some (.constant true) ∧
      (Build.multiply [⟨0⟩, ⟨6⟩] [⟨2⟩] [⟨3⟩, ⟨4⟩, ⟨5⟩] .size .twosComplement).exec c = (.ok (), small) ∧
      MultipliesIntegers c small [⟨0⟩, ⟨6⟩] [⟨2⟩] [⟨3⟩, ⟨4⟩, ⟨5⟩] .twosComplement ∧
      (Build.multiply [⟨0⟩, ⟨6⟩] [⟨2⟩] [⟨3⟩, ⟨4⟩, ⟨5⟩] .depth .twosComplement).exec c =
        (.ok (), shallow) ∧
      ∀ input : Valuation, ([⟨3⟩, ⟨4⟩, ⟨5⟩] : Bundle).map (small.value input) =
        ([⟨3⟩, ⟨4⟩, ⟨5⟩] : Bundle).map (shallow.value input) := by
  have hc : Reachable (Call.afterAll [.addInput 2, .addInput 1, .addOutput 3, .constant true]) :=
    reachable_afterAll (by simp [Call.template?])
  obtain ⟨hproduct, hagree⟩ := multipliers_compute_products hc [⟨0⟩, ⟨6⟩] [⟨2⟩] [⟨3⟩, ⟨4⟩, ⟨5⟩]
    (by decide +kernel) (by decide) .twosComplement
  obtain ⟨small, hsmall⟩ : ∃ c', (Build.multiply [⟨0⟩, ⟨6⟩] [⟨2⟩] [⟨3⟩, ⟨4⟩, ⟨5⟩] .size .twosComplement).exec
      (Call.afterAll [.addInput 2, .addInput 1, .addOutput 3, .constant true]) = (.ok (), c') :=
    Build.exists_ok (by decide +kernel)
  obtain ⟨shallow, hshallow⟩ : ∃ c', (Build.multiply [⟨0⟩, ⟨6⟩] [⟨2⟩] [⟨3⟩, ⟨4⟩, ⟨5⟩] .depth
      .twosComplement).exec (Call.afterAll [.addInput 2, .addInput 1, .addOutput 3, .constant true]) =
        (.ok (), c') :=
    Build.exists_ok (by decide +kernel)
  exact ⟨_, small, shallow, hc, by decide +kernel, hsmall, hproduct _ _ hsmall, hshallow,
    hagree _ _ hsmall hshallow⟩

end BitCircuit
