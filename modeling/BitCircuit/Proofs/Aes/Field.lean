/-
# The field of 256 elements

A byte is a polynomial of degree below eight with coefficients modulo two, its low bit the
constant term. Bytes are added by `xor` and multiplied modulo `x^8 + x^4 + x^3 + x + 1`. The
operations here are computed on bytes; `Byte.toRing` takes a byte to its class in the ring of
polynomials modulo this one, and says that they are the operations of that ring.

The substitution table is inversion in the field, which leaves zero where it is, followed by an
affine map of the bits.

Key definitions: `Byte.double`, `Byte.mul`, `Byte.inverse`, `Byte.affine`, `sBox`, `Byte.toRing`.
Key theorems: `Byte.toRing_mul`, `Byte.toRing_injective`, `Byte.mul_inverse`,
`substitute_eq_sBox`.
-/
import Mathlib.Algebra.Field.ZMod
import Mathlib.RingTheory.AdjoinRoot
import BitCircuit.Aes.KeySchedule
import BitCircuit.Proofs.Bytes

namespace BitCircuit

namespace Aes

open Bytes Polynomial

/-! ### The table -/

theorem size_substitutionTable : substitutionTable.size = 256 := by
  decide +kernel

theorem getElem?_substitutionTable (b : UInt8) :
    substitutionTable.toList[b.toNat]? = some (substitute b) := by
  have hlt : b.toNat < substitutionTable.size := by
    rw [size_substitutionTable]
    exact b.toNat_lt
  rw [substitute, Array.getElem?_toList, Array.getD_eq_getD_getElem?, Array.getElem?_eq_getElem hlt,
    Option.getD_some]

namespace Byte

/-! ### Operations on bytes -/

/-- A byte times `x`. A term `x^8` that arises is taken back by the modulus. -/
def double (b : UInt8) : UInt8 :=
  (b <<< 1) ^^^ if b.toBitVec.msb then 0x1b else 0

/-- The product of two bytes, from the terms of the first one, the highest first. -/
def mul (a b : UInt8) : UInt8 :=
  (byteBits a).foldr (fun bit acc => double acc ^^^ if bit then b else 0) 0

/-- The byte whose product with `b` is one, or zero if there is none. -/
def inverse (b : UInt8) : UInt8 :=
  (allBytes.find? fun c => mul b c = 1).getD 0

/-- The affine map of the bits: each is added to four others and to a bit of a constant. -/
def affine (b : UInt8) : UInt8 :=
  byteOfBits <| (List.range 8).map fun i =>
    let bit := fun k => b.toBitVec.getLsbD ((i + k) % 8)
    bit 0 ^^ bit 4 ^^ bit 5 ^^ bit 6 ^^ bit 7 ^^ (0x63 : UInt8).toBitVec.getLsbD i

/-- The map that `affine` takes back: the sum of three rotations and a constant. -/
def unaffine (b : UInt8) : UInt8 :=
  (b <<< 1 ||| b >>> 7) ^^^ (b <<< 3 ||| b >>> 5) ^^^ (b <<< 6 ||| b >>> 2) ^^^ 0x05

/-! ### Bits of the results -/

/-- The bits of the double: they move up by one, and the top bit comes back in four places. -/
def doubleBits : List Bool → List Bool
  | [b0, b1, b2, b3, b4, b5, b6, b7] => [b7, b0 ^^ b7, b1, b2 ^^ b7, b3 ^^ b7, b4, b5, b6]
  | _ => []

theorem byteBits_double (b : UInt8) : byteBits (double b) = doubleBits (byteBits b) := by
  revert b
  apply forall_byte
  decide +kernel

/-! ### The ring of polynomials -/

/-- The polynomial with the coefficients `bits`, that of the constant term first. -/
noncomputable def polynomial (bits : List Bool) : (ZMod 2)[X] :=
  bits.foldr (fun bit p => X * p + if bit then 1 else 0) 0

/-- The modulus of products. -/
noncomputable def modulus : (ZMod 2)[X] :=
  X ^ 8 + X ^ 4 + X ^ 3 + X + 1

/-- A byte in the ring of polynomials modulo `modulus`. -/
noncomputable def toRing (b : UInt8) : AdjoinRoot modulus :=
  AdjoinRoot.mk modulus (polynomial (byteBits b))

@[simp] theorem polynomial_nil : polynomial [] = 0 := rfl

@[simp] theorem polynomial_cons (b : Bool) (bits : List Bool) :
    polynomial (b :: bits) = X * polynomial bits + if b then 1 else 0 := rfl

theorem bit_xor (a b : Bool) :
    (if a ^^ b then 1 else 0 : (ZMod 2)[X]) = (if a then 1 else 0) + if b then 1 else 0 := by
  cases a <;> cases b <;> simp [CharTwo.add_self_eq_zero]

theorem polynomial_xor : ∀ {as bs : List Bool}, as.length = bs.length →
    polynomial (List.zipWith xor as bs) = polynomial as + polynomial bs
  | [], [], _ => by simp
  | a :: as, b :: bs, h => by
    have ih := polynomial_xor (Nat.succ.inj h)
    rw [List.zipWith_cons_cons, polynomial_cons, polynomial_cons, polynomial_cons, ih, bit_xor]
    ring

theorem toRing_zero : toRing 0 = 0 := by
  have h : byteBits 0 = List.replicate 8 false := by decide
  simp [toRing, h, List.replicate]

theorem toRing_one : toRing 1 = 1 := by
  have h : byteBits 1 = true :: List.replicate 7 false := by decide
  simp [toRing, h, List.replicate]

theorem toRing_xor (a b : UInt8) : toRing (a ^^^ b) = toRing a + toRing b := by
  rw [toRing, byteBits_xor, polynomial_xor (by simp [length_byteBits]), map_add]
  rfl

/-- The double and the byte times `x` differ by the modulus if the top bit is set. -/
theorem polynomial_doubleBits (b0 b1 b2 b3 b4 b5 b6 b7 : Bool) :
    polynomial (doubleBits [b0, b1, b2, b3, b4, b5, b6, b7]) =
      X * polynomial [b0, b1, b2, b3, b4, b5, b6, b7] + modulus * if b7 then 1 else 0 := by
  simp only [doubleBits, polynomial_cons, polynomial_nil, bit_xor, modulus]
  generalize (if b7 then 1 else 0 : (ZMod 2)[X]) = t
  have h : X ^ 8 * t + X ^ 8 * t = 0 := CharTwo.add_self_eq_zero _
  linear_combination -h

theorem toRing_double (b : UInt8) : toRing (double b) = AdjoinRoot.root modulus * toRing b := by
  have hb : byteBits b = [b.toBitVec.getLsbD 0, b.toBitVec.getLsbD 1, b.toBitVec.getLsbD 2,
    b.toBitVec.getLsbD 3, b.toBitVec.getLsbD 4, b.toBitVec.getLsbD 5, b.toBitVec.getLsbD 6,
    b.toBitVec.getLsbD 7] := rfl
  rw [toRing, toRing, byteBits_double, hb, polynomial_doubleBits, map_add, map_mul, map_mul,
    AdjoinRoot.mk_self, zero_mul, add_zero, AdjoinRoot.mk_X]

/-- Products of bytes are products in the ring. -/
theorem toRing_mul (a b : UInt8) : toRing (mul a b) = toRing a * toRing b := by
  rw [toRing.eq_def a, mul]
  generalize byteBits a = bits
  induction bits with
  | nil => rw [List.foldr_nil, polynomial_nil, map_zero, zero_mul, toRing_zero]
  | cons bit bits ih =>
    rw [List.foldr_cons, toRing_xor, toRing_double, ih, polynomial_cons, map_add, map_mul,
      AdjoinRoot.mk_X]
    cases bit with
    | true => simp [add_mul, mul_assoc]
    | false => simp [toRing_zero, mul_assoc]

example : mul 0x57 0x83 = 0xc1 := by decide

/-! ### Different bytes are different classes -/

theorem coeff_polynomial : ∀ (bits : List Bool) (i : Nat),
    (polynomial bits).coeff i = if bits[i]? = some true then 1 else 0
  | [], i => by simp
  | b :: bits, 0 => by cases b <;> simp
  | b :: bits, i + 1 => by
    rw [polynomial_cons, coeff_add, coeff_X_mul, coeff_polynomial bits i, List.getElem?_cons_succ]
    cases b <;> simp [coeff_one]

theorem degree_polynomial_lt (bits : List Bool) : (polynomial bits).degree < bits.length := by
  rw [degree_lt_iff_coeff_zero]
  intro i hi
  rw [coeff_polynomial, List.getElem?_eq_none hi, if_neg (by simp)]

theorem polynomial_injective {as bs : List Bool} (hlen : as.length = bs.length)
    (h : polynomial as = polynomial bs) : as = bs := by
  apply List.ext_getElem hlen
  intro i ha hb
  have hcoeff := congrArg (coeff · i) h
  simp only [coeff_polynomial, List.getElem?_eq_getElem ha, List.getElem?_eq_getElem hb] at hcoeff
  cases hx : as[i] <;> cases hy : bs[i] <;> simp_all

theorem monic_modulus : modulus.Monic := by
  unfold modulus
  monicity!

theorem degree_modulus : modulus.degree = 8 := by
  unfold modulus
  compute_degree!

theorem toRing_injective : Function.Injective toRing := by
  intro a b h
  apply byteBits_injective
  apply polynomial_injective (by rw [length_byteBits, length_byteBits])
  by_contra hne
  have hsub : polynomial (byteBits a) - polynomial (byteBits b) ≠ 0 := sub_ne_zero.mpr hne
  refine monic_modulus.not_dvd_of_degree_lt hsub ?_ (AdjoinRoot.mk_eq_mk.mp h)
  have ha := degree_polynomial_lt (byteBits a)
  have hb := degree_polynomial_lt (byteBits b)
  rw [length_byteBits] at ha hb
  rw [degree_modulus]
  exact (degree_sub_le _ _).trans_lt (max_lt ha hb)

/-- A byte has one inverse at most. -/
theorem eq_of_mul_eq_one {b c d : UInt8} (hc : mul b c = 1) (hd : mul b d = 1) : c = d := by
  apply toRing_injective
  have hc : toRing b * toRing c = 1 := by rw [← toRing_mul, hc, toRing_one]
  have hd : toRing b * toRing d = 1 := by rw [← toRing_mul, hd, toRing_one]
  calc toRing c = toRing c * (toRing b * toRing d) := by rw [hd, mul_one]
    _ = toRing b * toRing c * toRing d := by ring
    _ = toRing d := by rw [hc, one_mul]

/-! ### Laws for the mixing of columns -/

theorem double_xor (a b : UInt8) : double (a ^^^ b) = double a ^^^ double b := by
  apply toRing_injective
  rw [toRing_double, toRing_xor, toRing_xor, toRing_double, toRing_double]
  ring

theorem one_mul (a : UInt8) : mul 1 a = a := by
  apply toRing_injective
  rw [toRing_mul, toRing_one]
  ring

theorem two_mul (a : UInt8) : mul 2 a = double a := by
  apply toRing_injective
  have h : (2 : UInt8) = double 1 := by decide
  rw [toRing_mul, h, toRing_double, toRing_one, mul_one, toRing_double]

theorem three_mul (a : UInt8) : mul 3 a = double a ^^^ a := by
  apply toRing_injective
  have h : (3 : UInt8) = double 1 ^^^ 1 := by decide
  rw [toRing_mul, h, toRing_xor, toRing_double, toRing_one, mul_one, toRing_xor, toRing_double]
  ring

/-! ### Inversion -/

theorem inverse_eq {b c : UInt8} (h : mul b c = 1) : inverse b = c := by
  unfold inverse
  cases hfind : allBytes.find? fun c => mul b c = 1 with
  | some d =>
    have hd : mul b d = 1 := by simpa using List.find?_some hfind
    exact eq_of_mul_eq_one hd h
  | none =>
    have hnot := List.find?_eq_none.mp hfind c (mem_allBytes c)
    exact absurd h (by simpa using hnot)

theorem zero_mul_ne_one (c : UInt8) : mul 0 c ≠ 1 := by
  have hzero : mul 0 c = 0 := by
    apply toRing_injective
    rw [toRing_mul, toRing_zero, zero_mul]
  rw [hzero]
  decide

theorem inverse_zero : inverse 0 = 0 := by
  have hfind : allBytes.find? (fun c => mul 0 c = 1) = none := by
    simp [List.find?_eq_none, zero_mul_ne_one]
  rw [inverse, hfind, Option.getD_none]

theorem affine_unaffine (b : UInt8) : affine (unaffine b) = b := by
  revert b
  apply forall_byte
  decide +kernel

/-- The entries of the table are inverses before the affine map. -/
theorem mul_unaffine_substitute (b : UInt8) :
    b = 0 ∧ unaffine (substitute b) = 0 ∨ mul b (unaffine (substitute b)) = 1 := by
  have hall : ((allBytes.zip substitutionTable.toList).all fun p =>
      p.1 = 0 ∧ unaffine p.2 = 0 ∨ mul p.1 (unaffine p.2) = 1) = true := by decide +kernel
  have htable := getElem?_substitutionTable b
  -- with the substitute a variable, the table is not unfolded
  generalize substitute b = t at htable ⊢
  have hpair : (allBytes.zip substitutionTable.toList)[b.toNat]? = some (b, t) :=
    List.getElem?_zip_eq_some.mpr ⟨getElem?_allBytes b, htable⟩
  simpa using List.all_eq_true.mp hall (b, t) (List.mem_of_getElem? hpair)

theorem inverse_eq_unaffine (b : UInt8) : inverse b = unaffine (substitute b) := by
  rcases mul_unaffine_substitute b with ⟨rfl, hzero⟩ | hmul
  · rw [hzero, inverse_zero]
  · exact inverse_eq hmul

/-- Every byte but zero has an inverse. -/
theorem mul_inverse {b : UInt8} (hb : b ≠ 0) : mul b (inverse b) = 1 := by
  rcases mul_unaffine_substitute b with ⟨hzero, -⟩ | hmul
  · exact absurd hzero hb
  · rw [inverse_eq_unaffine, hmul]

end Byte

/-- The substitution of bytes: the inverse in the field, then the affine map. -/
def sBox (b : UInt8) : UInt8 :=
  Byte.affine (Byte.inverse b)

/-- The substitution table holds what the field says. -/
theorem substitute_eq_sBox (b : UInt8) : substitute b = sBox b := by
  rw [sBox, Byte.inverse_eq_unaffine, Byte.affine_unaffine]

end Aes
end BitCircuit
