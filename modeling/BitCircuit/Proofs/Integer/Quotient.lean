/-
# Division computes quotient and remainder

In every circuit that can be built, for operands and results of any width, a division that is not
refused gives quotient and remainder of the integers on the operands, cut to the widths of the
results. Signed division truncates toward zero. By zero the unsigned quotient has all bits set and
the remainder is what of the dividend fits the divisor.

The trials are long division with the bits of the dividend from the top. What they have reached after
some of them is `LongDivision`: the remainder is below the divisor, so one more bit makes it less
than twice the divisor, and two spare bits make the top bit of a difference the borrow.

Key definitions: `LongDivision`, `DividesNumbers`, `DividesIntegers`.
Key theorems: `LongDivision.step`, `Build.trialStep_spec`, `Build.trials_spec`,
`Build.divideUnsigned_spec`, `dividers_compute_quotients`.
-/
import BitCircuit.Integer.Quotient
import BitCircuit.Proofs.Integer.Sign

namespace BitCircuit

open Bits

/-! ### Long division of numbers -/

/-- What long division by `b` has reached after the top bits `x` of a dividend: the bits of the
quotient and the remainder on `n` bits. -/
structure LongDivision (b n x : Nat) (qs : List Bool) (r : Nat) : Prop where
  divided : 0 < b → x = toNat qs * b + r ∧ r < b
  saturated : b = 0 → toNat qs + 1 = 2 ^ qs.length ∧ r = x % 2 ^ n

namespace LongDivision

variable {b n x r : Nat} {qs : List Bool}

theorem start (b n : Nat) : LongDivision b n 0 [] 0 :=
  ⟨fun hb => ⟨by simp, hb⟩, fun _ => ⟨rfl, by simp⟩⟩

/-- **One trial**: the next bit is shifted into the remainder and the divisor subtracted if it fits. -/
theorem step (h : LongDivision b n x qs r) (hb : b < 2 ^ n) (bit : Bool) :
    LongDivision b n (bit.toNat + 2 * x) (decide (b ≤ bit.toNat + 2 * r) :: qs)
      ((if bit.toNat + 2 * r < b then bit.toNat + 2 * r else bit.toNat + 2 * r - b) % 2 ^ n) := by
  have hbit := Bool.toNat_lt bit
  refine ⟨fun hpos => ?_, fun hzero => ?_⟩
  · obtain ⟨hx, hr⟩ := h.divided hpos
    rw [toNat_cons, hx]
    by_cases hs : bit.toNat + 2 * r < b
    · rw [if_pos hs, Nat.mod_eq_of_lt (by omega), decide_eq_false (by omega), Bool.toNat_false]
      exact ⟨by ring, hs⟩
    · rw [if_neg hs, Nat.mod_eq_of_lt (by omega), decide_eq_true (by omega), Bool.toNat_true]
      refine ⟨?_, by omega⟩
      rw [Nat.add_mul, Nat.one_mul, Nat.mul_assoc]
      omega
  · obtain ⟨hqs, hr⟩ := h.saturated hzero
    subst hzero
    rw [toNat_cons, List.length_cons, pow_succ, if_neg (Nat.not_lt_zero _), Nat.sub_zero, hr]
    refine ⟨?_, ?_⟩
    · simp only [Nat.zero_le, decide_true, Bool.toNat_true]
      omega
    · rw [Nat.add_mod, Nat.mul_mod, Nat.mod_mod, ← Nat.mul_mod, ← Nat.add_mod]

/-- By a divisor that is not zero long division gives quotient and remainder. -/
theorem eq_div_mod (h : LongDivision b n x qs r) (hb : 0 < b) : toNat qs = x / b ∧ r = x % b := by
  obtain ⟨hx, hr⟩ := h.divided hb
  have hunique : x / b = toNat qs ∧ x % b = r := (Nat.div_mod_unique hb).mpr ⟨by rw [hx]; ring, hr⟩
  exact ⟨hunique.1.symm, hunique.2.symm⟩

end LongDivision

/-! ### Signs and spare bits -/

/-- A quotient of magnitudes with the sign put back is truncated toward zero. -/
theorem withSign_tdiv (s t : Bool) (m n : Nat) :
    (withSign s m).tdiv (withSign t n) = withSign (s ^^ t) (m / n) := by
  cases s <;> cases t <;> simp [withSign, Int.neg_tdiv, Int.tdiv_neg]

/-- The remainder has the sign of the dividend. -/
theorem withSign_tmod (s t : Bool) (m n : Nat) :
    (withSign s m).tmod (withSign t n) = withSign s (m % n) := by
  cases s <;> cases t <;> simp [withSign, Int.neg_tmod, Int.tmod_neg, Int.tmod_eq_emod_of_nonneg]

/-- A number that is cut twice. -/
theorem mod_two_pow_mod (x m n : Nat) : x % 2 ^ m % 2 ^ n = x % 2 ^ min m n := by
  rcases Nat.le_total m n with h | h
  · have hlt : x % 2 ^ m < 2 ^ n :=
      Nat.lt_of_lt_of_le (Nat.mod_lt x (Nat.two_pow_pos m)) (Nat.pow_le_pow_right (by omega) h)
    rw [Nat.min_eq_left h, Nat.mod_eq_of_lt hlt]
  · rw [Nat.min_eq_right h, Nat.mod_mod_of_dvd x (Nat.pow_dvd_pow 2 h)]

/-- **Two spare bits show the borrow**: they are set if and only if a difference is negative. -/
theorem borrow_of_difference {ds : List Bool} {top : Bool} {n s b : Nat} (hlen : ds.length = n + 2)
    (hs : s < 2 ^ (n + 1)) (hb : b < 2 ^ n) (hds : (toNat ds : Int) = ((s : Int) - b) % 2 ^ (n + 2))
    (htop : ds[n + 1]? = some top) :
    top = decide (s < b) ∧ (b ≤ s → toNat (ds.take n) = (s - b) % 2 ^ n) := by
  have hpow : (2 : Nat) ^ (n + 2) = 2 * 2 ^ (n + 1) := pow_succ' 2 (n + 1)
  have hpow' : (2 : Nat) ^ (n + 1) = 2 * 2 ^ n := pow_succ' 2 n
  have hsplit : toNat ds = toNat (ds.take (n + 1)) + 2 ^ (n + 1) * top.toNat := by
    obtain ⟨hlt, hget⟩ := List.getElem?_eq_some_iff.mp htop
    have happend := toNat_append (ds.take (n + 1)) (ds.drop (n + 1))
    rw [List.take_append_drop, List.drop_eq_getElem_cons hlt, hget, List.drop_eq_nil_of_le (by omega),
      List.length_take_of_le (by omega)] at happend
    simpa using happend
  have hlow : toNat (ds.take (n + 1)) < 2 ^ (n + 1) := by
    have hlt := toNat_lt (ds.take (n + 1))
    rwa [List.length_take_of_le (by omega)] at hlt
  have hds' : (toNat ds : Int) = ((s : Int) - b) % (2 ^ (n + 2) : Nat) := by
    rw [hds]
    push_cast
    rfl
  by_cases hle : b ≤ s
  · have hvalue : toNat ds = s - b := by
      rw [Int.emod_eq_of_lt (by omega) (by omega)] at hds'
      omega
    have htop : top = false := by
      cases top with
      | false => rfl
      | true =>
        rw [Bool.toNat_true] at hsplit
        omega
    refine ⟨by rw [htop, decide_eq_false (by omega)], fun _ => ?_⟩
    rw [toNat_take n ds (by omega), hvalue]
  · have hvalue : toNat ds + b = s + 2 ^ (n + 2) := by
      rw [← Int.add_emod_right, Int.emod_eq_of_lt (by omega) (by omega)] at hds'
      omega
    have htop : top = true := by
      cases top with
      | true => rfl
      | false =>
        rw [Bool.toNat_false] at hsplit
        omega
    exact ⟨by rw [htop, decide_eq_true (by omega)], fun h => absurd h hle⟩

namespace Build

variable {c c' : Circuit} {D : Set Wire} {a b quot rem temps : Bundle} {obj : Objective} {u : Unit}

/-! ### The trials -/

theorem divisionTemps_spec (hc : c.WellFormed) (h : (divisionTemps obj).exec c = (.ok temps, c')) :
    c.Spawns temps c' ∧ (obj = .size → temps[0]? ≠ temps[1]?) := by
  cases obj with
  | size =>
    obtain ⟨hspawn, hlen⟩ := addTemps_spec hc h
    exact ⟨hspawn, fun _ => hspawn.ne_of_length_eq_two hlen⟩
  | depth => exact ⟨(addTemps_spec hc h).1, by simp⟩

variable (input : Valuation)

/-- The difference on new wires, with two bits to spare: its top wire is the borrow. -/
theorem difference_spec {shifted diff : Bundle} {borrow : Wire} {ss bs : List Bool} {c₁ : Circuit}
    (hc : c.WellFormed) (htemps : ∀ w ∈ temps, c.Allocated w)
    (hne : obj = .size → temps[0]? ≠ temps[1]?) (hs : c.Signals input D shifted ss)
    (hb : c.Signals input D b bs) (hlen : ss.length = bs.length + 1) (hspawn : c.Spawns diff c₁)
    (hdlen : diff.length = bs.length + 2) (hborrow : diff.wireAt (bs.length + 1) = .ok borrow)
    (h : (subtract shifted b diff temps .unsigned obj).exec c₁ = (.ok u, c')) :
    c₁.Evolves {w | w ∈ diff ∨ w ∈ temps} c' ∧
      c'.value input borrow = decide (toNat ss < toNat bs) ∧
      (toNat bs ≤ toNat ss → toNat ((diff.take bs.length).map (c'.value input)) =
        (toNat ss - toNat bs) % 2 ^ bs.length) := by
  have hall : ∀ w ∈ shifted ++ b ++ temps ++ diff, c₁.Allocated w := by
    simp only [List.forall_mem_append]
    exact ⟨⟨⟨fun w hw => hspawn.allocated (hs.settled w hw).allocated,
      fun w hw => hspawn.allocated (hb.settled w hw).allocated⟩, hspawn.all_allocated htemps⟩,
      hspawn.present⟩
  obtain ⟨hev, hadds⟩ := addSub_spec hspawn.wellFormed hall hspawn.nodup hne h
  have hdiff : (toNat (diff.map (c'.value input)) : Int) =
      ((toNat ss : Int) - toNat bs) % 2 ^ (bs.length + 2) := by
    rw [hadds input, (hs.evolves hc hspawn.toEvolves (Set.empty_subset D)).values,
      (hb.evolves hc hspawn.toEvolves (Set.empty_subset D)).values, hdlen]
    rfl
  have hss := toNat_lt ss
  rw [hlen] at hss
  have htop : (diff.map (c'.value input))[bs.length + 1]? = some (c'.value input borrow) := by
    rw [List.getElem?_map, wireAt_eq_ok.mp hborrow]
    rfl
  rw [List.map_take]
  exact ⟨hev, borrow_of_difference (by rw [List.length_map, hdlen]) hss (toNat_lt bs) hdiff htop⟩

/-- The next remainder on new wires is the shifted one if there is a borrow, else the difference. -/
theorem nextRemainder_spec {shifted diff next : Bundle} {borrow : Wire} {ss bs : List Bool} {c₁ : Circuit}
    (hc : c.WellFormed) (hD : ∀ w ∈ D, c.Allocated w) (htemps : ∀ w ∈ temps, w ∈ D)
    (hs : c.Signals input D shifted ss) (hlen : bs.length ≤ ss.length)
    (hdiff : ∀ w ∈ diff, c.Allocated w) (hborrow : borrow ∈ diff)
    (hvalue : c.value input borrow = decide (toNat ss < toNat bs))
    (hlow : toNat bs ≤ toNat ss → toNat ((diff.take bs.length).map (c.value input)) =
      (toNat ss - toNat bs) % 2 ^ bs.length) (hspawn : c.Spawns next c₁)
    (h : (selectTo ((shifted.take bs.length).drop 0) ((diff.take bs.length).drop 0) [borrow] next
      temps).exec c₁ = (.ok u, c')) :
    c.Evolves D c' ∧ (∀ w ∈ next, c'.Settled D w) ∧ toNat (next.map (c'.value input)) =
      (if toNat ss < toNat bs then toNat ss else toNat ss - toNat bs) % 2 ^ bs.length := by
  rw [List.drop_zero, List.drop_zero] at h
  have hs₁ := hs.evolves hc hspawn.toEvolves (Set.empty_subset D)
  have hlowdiff : ∀ w ∈ diff.take bs.length, c.Allocated w := fun w hw => hdiff w (List.mem_of_mem_take hw)
  have hreads : ∀ w ∈ shifted.take bs.length ++ diff.take bs.length ++ [borrow], c₁.Allocated w := by
    simp only [List.forall_mem_append, List.forall_mem_singleton]
    exact ⟨⟨fun w hw => (hs₁.settled w (List.mem_of_mem_take hw)).allocated,
      hspawn.all_allocated hlowdiff⟩, hspawn.allocated (hdiff borrow hborrow)⟩
  obtain ⟨hev, chosen, he, hbits⟩ := selectTo_spec input hspawn.wellFormed hreads hspawn.nodup h
  cases he
  refine ⟨hspawn.driven hev fun w hw => hw.symm.imp_left (htemps w), hspawn.settled hev hD, ?_⟩
  rw [hbits, hspawn.value_eq hc (hdiff borrow hborrow) (Set.notMem_empty borrow), hvalue]
  by_cases hlt : toNat ss < toNat bs
  · rw [decide_eq_true hlt, cond_true, if_pos hlt, List.map_take, hs₁.values, toNat_take _ _ hlen]
  · rw [decide_eq_false hlt, cond_false, if_neg hlt, hspawn.map_value hc hlowdiff, hlow (by omega)]

/-- **One trial** subtracts the divisor from the shifted remainder if it fits. -/
theorem trialStep_spec {remainder next : Bundle} {bit q : Wire} {bs rs : List Bool} (hc : c.WellFormed)
    (hD : ∀ w ∈ D, c.Allocated w) (htemps : ∀ w ∈ temps, w ∈ D)
    (hne : obj = .size → temps[0]? ≠ temps[1]?) (hb : c.Signals input D b bs)
    (hr : c.Signals input D remainder rs) (hlen : rs.length = bs.length) (hbit : c.Settled D bit)
    (h : (trialStep b temps obj remainder bit).exec c = (.ok (q, next), c')) :
    c.Evolves D c' ∧
      c'.Settled D q ∧ c'.value input q = decide (toNat bs ≤ toNat (c.value input bit :: rs)) ∧
      ∃ ns, c'.Signals input D next ns ∧ ns.length = bs.length ∧
        toNat ns = (if toNat (c.value input bit :: rs) < toNat bs then toNat (c.value input bit :: rs)
          else toNat (c.value input bit :: rs) - toNat bs) % 2 ^ bs.length := by
  unfold trialStep at h
  rw [hb.length_eq] at h
  obtain ⟨diff, c₁, hdiff, h⟩ := exec_bind_eq_ok.mp h
  obtain ⟨u₁, c₂, hsub, h⟩ := exec_bind_eq_ok.mp h
  obtain ⟨borrow, hborrow, h⟩ := exec_check_bind.mp h
  obtain ⟨quotientBit, c₃, hinv, h⟩ := exec_bind_eq_ok.mp h
  obtain ⟨next', c₄, hnext, h⟩ := exec_bind_eq_ok.mp h
  obtain ⟨kept, hkept, h⟩ := exec_check_bind.mp h
  obtain ⟨reduced, hreduced, h⟩ := exec_check_bind.mp h
  obtain ⟨u₂, c₅, hsel, h⟩ := exec_bind_eq_ok.mp h
  obtain ⟨he, rfl⟩ := exec_pure_eq_ok.mp h
  cases he
  obtain ⟨-, rfl⟩ := slice_eq_ok.mp hkept
  obtain ⟨-, rfl⟩ := slice_eq_ok.mp hreduced
  -- the difference
  have hshifted : c.Signals input D (bit :: remainder) (c.value input bit :: rs) :=
    Circuit.signals_cons.mpr ⟨⟨hbit, rfl⟩, hr⟩
  obtain ⟨hspawn, hdlen⟩ := newBundle_spec hc hdiff
  obtain ⟨hev₁, hvalue, hlow⟩ := difference_spec input hc (fun w hw => hD w (htemps w hw)) hne hshifted
    hb (by rw [List.length_cons, hlen]) hspawn hdlen hborrow hsub
  have hev₂ : c.Evolves D c₂ := hspawn.driven hev₁ fun w hw => hw.symm.imp_left (htemps w)
  have hdiff₂ := hev₁.all_allocated hspawn.present
  -- the bit of the quotient
  have hmake := inv_spec hev₁.wellFormed hinv
  have hev₃ := hev₂.trans_same (hmake.toEvolves.of_empty D)
  have hset := hmake.settled (hev₂.all_allocated hD) (by simp)
  -- the remainder
  obtain ⟨hspawn₃, hnlen⟩ := newBundle_spec hmake.wellFormed hnext
  have hborrow₂ := mem_of_wireAt hborrow
  obtain ⟨hev₄, hsettled, hns⟩ := nextRemainder_spec input hmake.wellFormed (hev₃.all_allocated hD) htemps
    (hshifted.evolves hc hev₃ subset_rfl) (by rw [List.length_cons, hlen]; omega)
    (hmake.all_allocated hdiff₂) hborrow₂
    (by rw [hmake.value_eq hev₁.wellFormed (hdiff₂ borrow hborrow₂) (Set.notMem_empty borrow), hvalue])
    (fun hle => by
      rw [hmake.map_value hev₁.wellFormed fun w hw => hdiff₂ w (List.mem_of_mem_take hw), hlow hle])
    hspawn₃ hsel
  refine ⟨hev₃.trans_same hev₄, hset.evolves hev₄, ?_, _, ⟨hsettled, rfl⟩, ?_, hns⟩
  · rw [hset.value_eq hmake.wellFormed hev₄ subset_rfl, hmake.value, hvalue, ← decide_not]
    exact decide_eq_decide.mpr Nat.not_lt
  · rw [List.length_map, hnlen]

/-- **The trials are long division** from the top bit of the dividend down. -/
theorem trials_spec {bs : List Bool} (htemps : ∀ w ∈ temps, w ∈ D)
    (hne : obj = .size → temps[0]? ≠ temps[1]?) :
    ∀ {bits quotient remainder quotient' remainder' : Bundle} {qs rs : List Bool} {x : Nat}
      {c c' : Circuit}, c.WellFormed → (∀ w ∈ D, c.Allocated w) → c.Signals input D b bs →
    (∀ w ∈ bits, c.Settled D w) → c.Signals input D quotient qs → c.Signals input D remainder rs →
    rs.length = bs.length → LongDivision (toNat bs) bs.length x qs (toNat rs) →
    (trials b temps obj bits quotient remainder).exec c = (.ok (quotient', remainder'), c') →
    c.Evolves D c' ∧ ∃ qs' rs', c'.Signals input D quotient' qs' ∧ c'.Signals input D remainder' rs' ∧
      qs'.length = qs.length + bits.length ∧ LongDivision (toNat bs) bs.length
        (2 ^ bits.length * x + toNat (bits.reverse.map (c.value input))) qs' (toNat rs')
  | [], quotient, remainder, _, _, qs, rs, x, c, c', hc, _, _, _, hq, hr, _, hdiv, h => by
    obtain ⟨he, rfl⟩ := exec_pure_eq_ok.mp h
    cases he
    exact ⟨.refl hc D, qs, rs, hq, hr, rfl, by simpa using hdiv⟩
  | bit :: bits, quotient, remainder, _, _, qs, rs, x, c, c', hc, hD, hb, hbits, hq, hr, hlen, hdiv, h => by
    obtain ⟨hbit, hrest⟩ := List.forall_mem_cons.mp hbits
    rw [trials] at h
    obtain ⟨⟨q, next⟩, c₁, hstep, h⟩ := exec_bind_eq_ok.mp h
    obtain ⟨hev, hsq, hvq, ns, hns, hnlen, hvalue⟩ :=
      trialStep_spec input hc hD htemps hne hb hr hlen hbit hstep
    have hdiv₁ := hdiv.step (toNat_lt bs) (c.value input bit)
    rw [← toNat_cons, ← hvalue] at hdiv₁
    have hq₁ : c₁.Signals input D (q :: quotient) _ :=
      Circuit.signals_cons.mpr ⟨⟨hsq, hvq⟩, hq.evolves hc hev subset_rfl⟩
    obtain ⟨hev', qs', rs', hq', hr', hqlen, hdiv'⟩ := trials_spec htemps hne hev.wellFormed
      (hev.all_allocated hD) (hb.evolves hc hev subset_rfl) (fun w hw => (hrest w hw).evolves hev) hq₁
      hns hnlen hdiv₁ h
    refine ⟨hev.trans_same hev', qs', rs', hq', hr', ?_, ?_⟩
    · rw [hqlen, List.length_cons, List.length_cons]
      omega
    · have hsame : bits.reverse.map (c₁.value input) = bits.reverse.map (c.value input) :=
        List.map_congr_left fun w hw => (hrest w (List.mem_reverse.mp hw)).value_eq hc hev subset_rfl
      have htop : 2 ^ (bit :: bits).length * x + toNat ((bit :: bits).reverse.map (c.value input)) =
          2 ^ bits.length * ((c.value input bit).toNat + 2 * x) +
            toNat (bits.reverse.map (c.value input)) := by
        rw [List.reverse_cons, List.map_append, toNat_append, List.length_map, List.length_reverse,
          List.length_cons, pow_succ, List.map_singleton, toNat_cons, toNat_nil]
        ring
      rw [htop, ← hsame]
      exact hdiv'

/-! ### Quotient and remainder -/

/-- The trials for the whole dividend, which start from a remainder of constant zeros. -/
theorem allTrials_spec {quotient remainder : Bundle} {zero : Wire} {as bs : List Bool} {c₁ : Circuit}
    (hc : c.WellFormed) (hD : ∀ w ∈ D, c.Allocated w) (htemps : ∀ w ∈ temps, w ∈ D)
    (hne : obj = .size → temps[0]? ≠ temps[1]?) (ha : c.Signals input D a as)
    (hb : c.Signals input D b bs) (hzero : (constant false).exec c = (.ok zero, c₁))
    (h : (trials b temps obj a.reverse [] (List.replicate b.length zero)).exec c₁ =
      (.ok (quotient, remainder), c')) :
    c.Evolves D c' ∧ ∃ qs rs, c'.Signals input D quotient qs ∧ c'.Signals input D remainder rs ∧
      qs.length = as.length ∧ LongDivision (toNat bs) bs.length (toNat as) qs (toNat rs) := by
  have hmake := constant_spec hc hzero
  have ha₁ := ha.evolves hc hmake.toEvolves (Set.empty_subset D)
  have hb₁ := hb.evolves hc hmake.toEvolves (Set.empty_subset D)
  have hstart : c₁.Signals input D (List.replicate b.length zero) (List.replicate b.length false) := by
    refine ⟨fun w hw => ?_, by rw [List.map_replicate, hmake.value]⟩
    rw [List.eq_of_mem_replicate hw]
    exact hmake.settled hD (by simp)
  have hdiv₀ : LongDivision (toNat bs) bs.length 0 [] (toNat (List.replicate b.length false)) := by
    rw [toNat_replicate_false]
    exact .start _ _
  obtain ⟨hev, qs, rs, hqs, hrs, hlen, hdiv⟩ := trials_spec input htemps hne hmake.wellFormed
    (hmake.all_allocated hD) hb₁ (fun w hw => ha₁.settled w (List.mem_reverse.mp hw)) Circuit.signals_nil
    hstart (by rw [List.length_replicate, hb.length_eq]) hdiv₀ h
  rw [Nat.mul_zero, Nat.zero_add, List.reverse_reverse, ha₁.values] at hdiv
  rw [List.length_nil, Nat.zero_add, List.length_reverse, ha.length_eq] at hlen
  exact ⟨(hmake.toEvolves.of_empty D).trans_same hev, qs, rs, hqs, hrs, hlen, hdiv⟩

/-- **Division of two numbers.** -/
theorem divideUnsigned_spec {as bs : List Bool} (hc : c.WellFormed)
    (haout : ∀ w ∈ quot ++ rem, c.Allocated w) (hquot : quot.Nodup) (hrem : rem.Nodup)
    (hdistinct : ∀ w ∈ quot, w ∉ rem) (ha : c.Signals input {w | w ∈ quot ∨ w ∈ rem} a as)
    (hb : c.Signals input {w | w ∈ quot ∨ w ∈ rem} b bs)
    (h : (divideUnsigned a b quot rem obj).exec c = (.ok u, c')) :
    c.Evolves {w | w ∈ quot ∨ w ∈ rem} c' ∧
      ∃ qs r, qs.length = as.length ∧ LongDivision (toNat bs) bs.length (toNat as) qs r ∧
        toNat (quot.map (c'.value input)) = toNat qs % 2 ^ quot.length ∧
        toNat (rem.map (c'.value input)) = r % 2 ^ rem.length := by
  constructor
  · exact (keeps_divideUnsigned (c.upheld_evolves _) (fun w hw => .inl (.inl hw))
      fun w hw => .inl (.inr hw)).evolves hc h
  obtain ⟨haq, har⟩ := List.forall_mem_append.mp haout
  unfold divideUnsigned at h
  obtain ⟨temps, c₁, htemps, h⟩ := exec_bind_eq_ok.mp h
  obtain ⟨zero, c₂, hzero, h⟩ := exec_bind_eq_ok.mp h
  obtain ⟨⟨quotient, remainder⟩, c₃, htrials, h⟩ := exec_bind_eq_ok.mp h
  obtain ⟨u₁, c₄, hcopyq, h⟩ := exec_bind_eq_ok.mp h
  obtain ⟨hspawn, hne⟩ := divisionTemps_spec hc htemps
  have hD : ∀ w ∈ {w | w ∈ {w | w ∈ quot ∨ w ∈ rem} ∨ w ∈ temps}, c₁.Allocated w := by
    rintro w ((hw | hw) | hw)
    · exact hspawn.allocated (haq w hw)
    · exact hspawn.allocated (har w hw)
    · exact hspawn.present w hw
  obtain ⟨hev₃, qs, rs, hsq, hsr, hqlen, hdiv⟩ := allTrials_spec input hspawn.wellFormed hD
    (fun w hw => .inr hw) hne (hspawn.signals_old hc ha) (hspawn.signals_old hc hb) hzero htrials
  -- the copies: driving the quotient changes no wire of the remainder, and the other way round
  have hD₃ := hev₃.all_allocated hD
  obtain ⟨hev₄, hvq⟩ := copyBundle_spec input hev₃.wellFormed (fun w hw => hD₃ w (.inl (.inl hw))) hquot
    (hsq.mono fun w hw => .inl (.inl hw)) hcopyq
  have hsr₄ := hsr.evolves hev₃.wellFormed hev₄ fun w hw => .inl (.inl hw)
  have hD₄ := hev₄.all_allocated hD₃
  obtain ⟨hev₅, hvr⟩ := copyBundle_spec input hev₄.wellFormed (fun w hw => hD₄ w (.inl (.inr hw))) hrem
    (hsr₄.mono fun w hw => .inl (.inr hw)) h
  have hkept : quot.map (c'.value input) = quot.map (c₄.value input) := List.map_congr_left fun w hw =>
    hev₅.value_eq hev₄.wellFormed (hD₄ w (.inl (.inl hw))) (hdistinct w hw)
  refine ⟨qs, toNat rs, hqlen, hdiv, ?_, ?_⟩
  · rw [hkept, hvq, toNat_resize_unsigned]
  · rw [hvr, toNat_resize_unsigned]

end Build

/-- For all inputs the wires of `quot` and `rem` spell in `c'` quotient and remainder of the numbers
that `a` and `b` spell in `c`, cut to their widths. By zero all bits of the quotient are set and the
remainder is what of the dividend fits both the divisor and the result. -/
def DividesNumbers (c c' : Circuit) (a b quot rem : Bundle) : Prop :=
  ∀ input : Valuation,
    (toNat (b.map (c.value input)) ≠ 0 →
      toNat (quot.map (c'.value input)) =
        toNat (a.map (c.value input)) / toNat (b.map (c.value input)) % 2 ^ quot.length ∧
      toNat (rem.map (c'.value input)) =
        toNat (a.map (c.value input)) % toNat (b.map (c.value input)) % 2 ^ rem.length) ∧
    (toNat (b.map (c.value input)) = 0 →
      toNat (quot.map (c'.value input)) = (2 ^ a.length - 1) % 2 ^ quot.length ∧
      toNat (rem.map (c'.value input)) =
        toNat (a.map (c.value input)) % 2 ^ min b.length rem.length)

/-- For all inputs with a divisor that is not zero the wires of `quot` and `rem` spell in `c'` the
quotient, truncated toward zero, of the integers that `a` and `b` spell in `c` in two's complement and
what it leaves of the dividend, which has the sign of the dividend, both cut to their widths. -/
def DividesIntegers (c c' : Circuit) (a b quot rem : Bundle) : Prop :=
  ∀ input : Valuation,
    let x := Encoding.twosComplement.read (a.map (c.value input))
    let y := Encoding.twosComplement.read (b.map (c.value input))
    y ≠ 0 →
      (toNat (quot.map (c'.value input)) : Int) = x.tdiv y % 2 ^ quot.length ∧
      (toNat (rem.map (c'.value input)) : Int) = (x - y * x.tdiv y) % 2 ^ rem.length ∧
      0 ≤ (x - y * x.tdiv y) * x

namespace Build

variable {c c' : Circuit} {a b quot rem : Bundle} {obj : Objective} {u : Unit}

/-- In a division that is not refused operands, quotient and remainder share no written wire. -/
theorem divide_apart {enc : Encoding} (h : (divide a b quot rem enc obj).exec c = (.ok u, c')) :
    (∀ w ∈ a ++ b, w ∉ quot ++ rem) ∧ ∀ w ∈ quot, w ∉ rem := by
  unfold divide at h
  obtain ⟨-, -, h⟩ := exec_check_bind.mp h
  obtain ⟨u₁, hwritten, h⟩ := exec_check_bind.mp h
  obtain ⟨u₂, hdistinct, -⟩ := exec_check_bind.mp h
  have hfree := requireDistinct_eq_ok.mp hwritten
  refine ⟨fun w hw hm => ?_, requireDistinct_eq_ok.mp hdistinct quot (by simp) rem (by simp)⟩
  rcases List.mem_append.mp hw with hw | hw <;> rcases List.mem_append.mp hm with hm | hm
  · exact hfree quot (by simp) a (by simp) w hm hw
  · exact hfree rem (by simp) a (by simp) w hm hw
  · exact hfree quot (by simp) b (by simp) w hm hw
  · exact hfree rem (by simp) b (by simp) w hm hw

theorem divide_unsigned_spec (hc : c.WellFormed) (ha : ∀ w ∈ a ++ b ++ quot ++ rem, c.Allocated w)
    (hquot : quot.Nodup) (hrem : rem.Nodup)
    (h : (divide a b quot rem .unsigned obj).exec c = (.ok u, c')) : DividesNumbers c c' a b quot rem := by
  intro input
  simp only [List.forall_mem_append] at ha
  obtain ⟨⟨⟨haa, hab⟩, haq⟩, har⟩ := ha
  obtain ⟨hwritten, hdistinct⟩ := divide_apart h
  have hfree : ∀ w ∈ a ++ b, w ∉ {w | w ∈ quot ∨ w ∈ rem} := fun w hw hm =>
    hwritten w hw (List.mem_append.mpr hm)
  obtain ⟨hfreea, hfreeb⟩ := List.forall_mem_append.mp hfree
  unfold divide at h
  obtain ⟨-, -, h⟩ := exec_check_bind.mp h
  obtain ⟨-, -, h⟩ := exec_check_bind.mp h
  obtain ⟨-, -, h⟩ := exec_check_bind.mp h
  obtain ⟨-, qs, r, hlen, hdiv, hvq, hvr⟩ := divideUnsigned_spec input hc
    (List.forall_mem_append.mpr ⟨haq, har⟩) hquot hrem hdistinct (Circuit.signals_self haa hfreea)
    (Circuit.signals_self hab hfreeb) h
  rw [List.length_map] at hlen hdiv
  refine ⟨fun hb => ?_, fun hb => ?_⟩
  · obtain ⟨hq, hr⟩ := hdiv.eq_div_mod (Nat.pos_of_ne_zero hb)
    exact ⟨by rw [hvq, hq], by rw [hvr, hr]⟩
  · obtain ⟨hq, hr⟩ := hdiv.saturated hb
    rw [hvq, hvr, hr, ← hlen, ← hq, Nat.add_sub_cancel]
    exact ⟨rfl, mod_two_pow_mod ..⟩

/-- Quotient and remainder of two magnitudes on new wires, wide enough for both. -/
theorem divideMagnitudes_spec (input : Valuation) {D D' : Set Wire} {mq mr : Bundle} {as bs : List Bool}
    {n m : Nat} {c₁ c₂ : Circuit} (hc : c.WellFormed) (hD : ∀ w ∈ D, c.Allocated w)
    (ha : c.Signals input D' a as) (hb : c.Signals input D' b bs)
    (hmq : (newBundle n).exec c = (.ok mq, c₁)) (hmr : (newBundle m).exec c₁ = (.ok mr, c₂))
    (h : (divideUnsigned a b mq mr obj).exec c₂ = (.ok u, c')) (hpos : 0 < toNat bs)
    (hn : toNat as < 2 ^ n) (hm : toNat bs < 2 ^ m) :
    c.Evolves ∅ c' ∧ ∃ qs rs, c'.Signals input D mq qs ∧ c'.Signals input D mr rs ∧
      toNat qs = toNat as / toNat bs ∧ toNat rs = toNat as % toNat bs := by
  obtain ⟨hspawn₁, hqlen⟩ := newBundle_spec hc hmq
  obtain ⟨hspawn₂, hrlen⟩ := newBundle_spec hspawn₁.wellFormed hmr
  have hsig {o : Bundle} {os : List Bool} (ho : c.Signals input D' o os) :
      c₂.Signals input {w | w ∈ mq ∨ w ∈ mr} o os :=
    (hspawn₂.signals_old hspawn₁.wellFormed (hspawn₁.signals_old hc ho)).mono fun w hw =>
      hw.imp_left .inr
  obtain ⟨hev, qs, r, -, hdiv, hvq, hvr⟩ := divideUnsigned_spec input hspawn₂.wellFormed
    (List.forall_mem_append.mpr ⟨hspawn₂.all_allocated hspawn₁.present, hspawn₂.present⟩) hspawn₁.nodup
    hspawn₂.nodup (fun w hw hm => hspawn₂.fresh w hm (hspawn₁.present w hw)) (hsig ha) (hsig hb) h
  obtain ⟨hq, hr⟩ := hdiv.eq_div_mod hpos
  have hev₁ : c₁.Evolves {w | w ∈ mq} c' := hspawn₂.driven hev fun w hw => hw
  refine ⟨hspawn₁.driven hev₁ fun w hw => .inr hw, _, _, ⟨hspawn₁.settled hev₁ hD, rfl⟩,
    ⟨hspawn₂.settled hev (hspawn₁.all_allocated hD), rfl⟩, ?_, ?_⟩
  · rw [hvq, hq, hqlen, Nat.mod_eq_of_lt]
    exact Nat.lt_of_le_of_lt (Nat.div_le_self _ _) hn
  · rw [hvr, hr, hrlen, Nat.mod_eq_of_lt]
    exact Nat.lt_trans (Nat.mod_lt _ hpos) hm

/-- The signs are put back on quotient and remainder one after the other. -/
theorem applySigns_spec (input : Valuation) {temps mq mr : Bundle} {sq sr : Wire} {qs rs : List Bool}
    {c₁ : Circuit} {u₁ : Unit} (hc : c.WellFormed) (hD : ∀ w ∈ quot ++ rem ++ temps, c.Allocated w)
    (hq : c.Signals input {w | w ∈ quot ++ rem ++ temps} mq qs)
    (hr : c.Signals input {w | w ∈ quot ++ rem ++ temps} mr rs) (hsq : c.Allocated sq)
    (hsr : c.Settled {w | w ∈ quot ++ rem ++ temps} sr) (hquot : quot.Nodup) (hrem : rem.Nodup)
    (hfree : ∀ w ∈ quot, w ∉ rem ∧ w ∉ temps) (hne : obj = .size → temps[0]? ≠ temps[1]?)
    (hquotient : (applySign mq [sq] quot temps obj).exec c = (.ok u, c₁))
    (hremainder : (applySign mr [sr] rem temps obj).exec c₁ = (.ok u₁, c')) :
    (toNat (quot.map (c'.value input)) : Int) =
        withSign (c.value input sq) (toNat qs) % 2 ^ quot.length ∧
      (toNat (rem.map (c'.value input)) : Int) =
        withSign (c.value input sr) (toNat rs) % 2 ^ rem.length := by
  simp only [List.forall_mem_append] at hD
  obtain ⟨⟨haq, har⟩, hat⟩ := hD
  have hall : ∀ w ∈ mq ++ [sq] ++ temps ++ quot, c.Allocated w := by
    simp only [List.forall_mem_append, List.forall_mem_singleton]
    exact ⟨⟨⟨fun w hw => (hq.settled w hw).allocated, hsq⟩, hat⟩, haq⟩
  obtain ⟨hev₁, chosen, he, hvq⟩ := applySign_spec input hc hall hquot hne hquotient
  cases he
  have hsub : {w | w ∈ quot ∨ w ∈ temps} ⊆ {w | w ∈ quot ++ rem ++ temps} := by
    rintro w (hw | hw) <;> simp [hw]
  have hr₁ := hr.evolves hc hev₁ hsub
  have hall₁ : ∀ w ∈ mr ++ [sr] ++ temps ++ rem, c₁.Allocated w := by
    simp only [List.forall_mem_append, List.forall_mem_singleton]
    exact ⟨⟨⟨fun w hw => (hr₁.settled w hw).allocated, hev₁.allocated hsr.allocated⟩,
      hev₁.all_allocated hat⟩, hev₁.all_allocated har⟩
  obtain ⟨hev₂, chosen, he, hvr⟩ := applySign_spec input hev₁.wellFormed hall₁ hrem hne hremainder
  cases he
  have hkept : quot.map (c'.value input) = quot.map (c₁.value input) := List.map_congr_left fun w hw =>
    hev₂.value_eq hev₁.wellFormed (hev₁.allocated (haq w hw)) fun hm =>
      hm.elim (hfree w hw).1 (hfree w hw).2
  rw [hkept, hvq, hvr, hq.values, hr₁.values, hsr.value_eq hc hev₁ hsub]
  exact ⟨rfl, rfl⟩

/-- **Division of two integers** in two's complement. -/
theorem divide_signed_spec (hc : c.WellFormed) (ha : ∀ w ∈ a ++ b ++ quot ++ rem, c.Allocated w)
    (hquot : quot.Nodup) (hrem : rem.Nodup)
    (h : (divide a b quot rem .twosComplement obj).exec c = (.ok u, c')) :
    DividesIntegers c c' a b quot rem := by
  intro input x y hy
  simp only [List.forall_mem_append] at ha
  obtain ⟨⟨⟨haa, hab⟩, haq⟩, har⟩ := ha
  have hoperands : ∀ w ∈ a ++ b, c.Allocated w := List.forall_mem_append.mpr ⟨haa, hab⟩
  obtain ⟨hwritten, hdistinct⟩ := divide_apart h
  unfold divide at h
  obtain ⟨-, -, h⟩ := exec_check_bind.mp h
  obtain ⟨-, -, h⟩ := exec_check_bind.mp h
  obtain ⟨-, -, h⟩ := exec_check_bind.mp h
  obtain ⟨temps, c₁, htemps, h⟩ := exec_bind_eq_ok.mp h
  obtain ⟨ma, c₂, hma, h⟩ := exec_bind_eq_ok.mp h
  obtain ⟨u₃, c₃, hmaga, h⟩ := exec_bind_eq_ok.mp h
  obtain ⟨mb, c₄, hmb, h⟩ := exec_bind_eq_ok.mp h
  obtain ⟨u₄, c₅, hmagb, h⟩ := exec_bind_eq_ok.mp h
  obtain ⟨mq, c₆, hmq, h⟩ := exec_bind_eq_ok.mp h
  obtain ⟨mr, c₇, hmr, h⟩ := exec_bind_eq_ok.mp h
  obtain ⟨u₅, c₈, hdivide, h⟩ := exec_bind_eq_ok.mp h
  obtain ⟨sa, hsa, h⟩ := exec_check_bind.mp h
  obtain ⟨sb, hsb, h⟩ := exec_check_bind.mp h
  obtain ⟨sign, c₉, hsign, h⟩ := exec_bind_eq_ok.mp h
  obtain ⟨u₆, c₁₀, happly, h⟩ := exec_bind_eq_ok.mp h
  obtain ⟨sa', hsa', h⟩ := exec_check_bind.mp h
  obtain rfl : sa = sa' := by simpa [hsa] using hsa'
  -- the magnitudes and their quotient, on new wires
  obtain ⟨hspawn, hne⟩ := divisionTemps_spec hc htemps
  obtain ⟨hev₅, as, bs, has, hbs, hva, hvb⟩ := magnitudes_spec input hc hoperands hspawn hne hma hmaga
    hmb hmagb
  have hD₁ : ∀ w ∈ quot ++ rem ++ temps, c₁.Allocated w := by
    simp only [List.forall_mem_append]
    exact ⟨⟨hspawn.all_allocated haq, hspawn.all_allocated har⟩, hspawn.present⟩
  have hpos : 0 < toNat bs := hvb ▸ Int.natAbs_pos.mpr hy
  have hlta : toNat as < 2 ^ a.length := by simpa [hva] using natAbs_read_lt (a.map (c.value input))
  have hltb : toNat bs < 2 ^ b.length := by simpa [hvb] using natAbs_read_lt (b.map (c.value input))
  obtain ⟨hev₈, qs, rs, hqs, hrs, hvq, hvr⟩ := divideMagnitudes_spec input
    (D := {w | w ∈ quot ++ rem ++ temps}) hev₅.wellFormed (hev₅.all_allocated hD₁) has hbs hmq hmr
    hdivide hpos hlta hltb
  have hev : c.Evolves ∅ c₈ := hspawn.driven (hev₅.trans_same (hev₈.of_empty _)) fun w hw => .inr hw
  -- the signs
  obtain ⟨hev₉, hsigna, hsigned⟩ := xorSigns_spec input hc hoperands hev hsa hsb hsign
  have hev' := hev.trans_same hev₉
  have hnew : ∀ w ∈ temps, ¬ c.Allocated w := hspawn.fresh
  have hsettled : c₉.Settled {w | w ∈ quot ++ rem ++ temps} sa := by
    have hmem := mem_of_msb hsa
    refine ⟨hev'.allocated (haa sa hmem), .inl fun hm => ?_⟩
    rcases List.mem_append.mp hm with hm | hm
    · exact hwritten sa (List.mem_append_left b hmem) hm
    · exact hnew sa hm (haa sa hmem)
  have hquotfree : ∀ w ∈ quot, w ∉ rem ∧ w ∉ temps := fun w hw =>
    ⟨hdistinct w hw, fun hm => hnew w hm (haq w hw)⟩
  obtain ⟨hresultq, hresultr⟩ := applySigns_spec input hev₉.wellFormed
    (hev₉.all_allocated (hev₈.all_allocated (hev₅.all_allocated hD₁)))
    (hqs.evolves hev.wellFormed hev₉ (Set.empty_subset _))
    (hrs.evolves hev.wellFormed hev₉ (Set.empty_subset _)) hsigna hsettled hquot hrem hquotfree hne
    happly h
  have hx : x = withSign (Encoding.twosComplement.padBit (a.map (c.value input))) (toNat as) := by
    rw [hva]
    exact read_eq_withSign _
  have hy : y = withSign (Encoding.twosComplement.padBit (b.map (c.value input))) (toNat bs) := by
    rw [hvb]
    exact read_eq_withSign _
  rw [← Int.tmod_def, hx, hy, withSign_tdiv, withSign_tmod, withSign_mul, Bool.xor_self]
  refine ⟨?_, ?_, Int.natCast_nonneg _⟩
  · rw [hresultq, hsigned, hvq]
  · rw [hresultr, value_msb (c₉.value input) hsa, hev'.map_value hc haa, hvr]

end Build

/-- **Division computes quotient and remainder** in every circuit that can be built. -/
theorem dividers_compute_quotients {c : Circuit} (hc : Reachable c) (a b quot rem : Bundle)
    (ha : ∀ w ∈ a ++ b ++ quot ++ rem, c.Allocated w) (hquot : quot.Nodup) (hrem : rem.Nodup)
    (obj : Objective) (c' : Circuit) :
    ((Build.divide a b quot rem .unsigned obj).exec c = (.ok (), c') →
      DividesNumbers c c' a b quot rem) ∧
    ((Build.divide a b quot rem .twosComplement obj).exec c = (.ok (), c') →
      DividesIntegers c c' a b quot rem) :=
  ⟨Build.divide_unsigned_spec hc.wellFormed ha hquot hrem,
    Build.divide_signed_spec hc.wellFormed ha hquot hrem⟩

/-- Both divisions on a small circuit, with a quotient that is wider than the dividend. The divisor
has a constant top bit, so it is not zero and negative if it is signed. -/
theorem dividers_compute_quotients_negative :
    ∃ c unsigned signed : Circuit, Reachable c ∧ c.state? ⟨8⟩ = some (.constant true) ∧
      (Build.divide [⟨0⟩, ⟨1⟩] [⟨2⟩, ⟨8⟩] [⟨3⟩, ⟨4⟩, ⟨5⟩] [⟨6⟩, ⟨7⟩] .unsigned .size).exec c =
        (.ok (), unsigned) ∧
      DividesNumbers c unsigned [⟨0⟩, ⟨1⟩] [⟨2⟩, ⟨8⟩] [⟨3⟩, ⟨4⟩, ⟨5⟩] [⟨6⟩, ⟨7⟩] ∧
      (Build.divide [⟨0⟩, ⟨1⟩] [⟨2⟩, ⟨8⟩] [⟨3⟩, ⟨4⟩, ⟨5⟩] [⟨6⟩, ⟨7⟩] .twosComplement .depth).exec c =
        (.ok (), signed) ∧
      DividesIntegers c signed [⟨0⟩, ⟨1⟩] [⟨2⟩, ⟨8⟩] [⟨3⟩, ⟨4⟩, ⟨5⟩] [⟨6⟩, ⟨7⟩] := by
  have hc : Reachable (Call.afterAll
      [.addInput 2, .addInput 1, .addOutput 3, .addOutput 2, .constant true]) :=
    reachable_afterAll (by simp [Call.template?])
  have hboth := dividers_compute_quotients hc [⟨0⟩, ⟨1⟩] [⟨2⟩, ⟨8⟩] [⟨3⟩, ⟨4⟩, ⟨5⟩] [⟨6⟩, ⟨7⟩]
    (by decide +kernel) (by decide) (by decide)
  obtain ⟨unsigned, hunsigned⟩ : ∃ c', (Build.divide [⟨0⟩, ⟨1⟩] [⟨2⟩, ⟨8⟩] [⟨3⟩, ⟨4⟩, ⟨5⟩] [⟨6⟩, ⟨7⟩] .unsigned
      .size).exec (Call.afterAll [.addInput 2, .addInput 1, .addOutput 3, .addOutput 2, .constant true]) =
        (.ok (), c') :=
    Build.exists_ok (by decide +kernel)
  obtain ⟨signed, hsigned⟩ : ∃ c', (Build.divide [⟨0⟩, ⟨1⟩] [⟨2⟩, ⟨8⟩] [⟨3⟩, ⟨4⟩, ⟨5⟩] [⟨6⟩, ⟨7⟩]
      .twosComplement .depth).exec (Call.afterAll
        [.addInput 2, .addInput 1, .addOutput 3, .addOutput 2, .constant true]) = (.ok (), c') :=
    Build.exists_ok (by decide +kernel)
  exact ⟨_, unsigned, signed, hc, by decide +kernel, hunsigned, (hboth .size unsigned).1 hunsigned,
    hsigned, (hboth .depth signed).2 hsigned⟩

end BitCircuit
