/-
# Bits as integers

How a list of bits, low end first, is read as an integer in either encoding, and what widening
and bitwise addition do to the integers that are read. `addBits` is addition as it is done by
hand; that it adds, and subtracts with the complement and a carry of one, is `toNat_addSubBits`.

Key definitions: `Bits.toNat`, `Encoding.read`, `Direction.apply`, `Encoding.resize`, `addBits`,
`addSubBits`, `Circuit.Delivers`.
Key theorems: `toNat_resize`, `toNat_addSubBits`, `toNat_addSubBits_resize`, `Build.extend_spec`.
-/
import Mathlib.Data.Int.ModEq
import Mathlib.Data.List.Forall2
import Mathlib.Tactic.Ring
import BitCircuit.Integer.Basic
import BitCircuit.Proofs.Bundle
import BitCircuit.Proofs.Folding

namespace BitCircuit

/-- The number that bits spell in plain binary, low end first. -/
def Bits.toNat (bs : List Bool) : Nat :=
  (BitVec.ofBoolListLE bs).toNat

/-- The integer that bits spell, low end first. -/
def Encoding.read : Encoding → List Bool → Int
  | .unsigned, bs => (BitVec.ofBoolListLE bs).toNat
  | .twosComplement, bs => (BitVec.ofBoolListLE bs).toInt

/-- What an adder computes. -/
def Direction.apply : Direction → Int → Int → Int
  | .addition, x, y => x + y
  | .subtraction, x, y => x - y

namespace Bits

/-! ### Reading bits -/

@[simp] theorem toNat_nil : toNat [] = 0 := rfl

@[simp] theorem toNat_cons (b : Bool) (bs : List Bool) : toNat (b :: bs) = b.toNat + 2 * toNat bs := by
  unfold toNat
  rw [BitVec.ofBoolListLE, BitVec.toNat_concat]
  omega

theorem toNat_lt (bs : List Bool) : toNat bs < 2 ^ bs.length :=
  (BitVec.ofBoolListLE bs).isLt

theorem toNat_append (as : List Bool) (bs : List Bool) :
    toNat (as ++ bs) = toNat as + 2 ^ as.length * toNat bs := by
  induction as with
  | nil => simp
  | cons a as ih =>
    rw [List.cons_append, toNat_cons, toNat_cons, ih, List.length_cons, pow_succ]
    ring

theorem toNat_replicate_false (n : Nat) : toNat (List.replicate n false) = 0 := by
  induction n with
  | zero => rfl
  | succ n ih => simp [List.replicate_succ, ih]

theorem toNat_replicate_true (n : Nat) : toNat (List.replicate n true) + 1 = 2 ^ n := by
  induction n with
  | zero => rfl
  | succ n ih =>
    rw [List.replicate_succ, toNat_cons, pow_succ, ← ih, Bool.toNat_true]
    omega

/-- The low bits of a number are its remainder. -/
theorem toNat_take (n : Nat) (bs : List Bool) (h : n ≤ bs.length) :
    toNat (bs.take n) = toNat bs % 2 ^ n := by
  have hlt : toNat (bs.take n) < 2 ^ n := by
    simpa [h] using toNat_lt (bs.take n)
  have hsplit := toNat_append (bs.take n) (bs.drop n)
  rw [List.take_append_drop, List.length_take_of_le h] at hsplit
  rw [hsplit, Nat.add_mul_mod_self_left, Nat.mod_eq_of_lt hlt]

/-- The complement of all bits. -/
theorem toNat_map_not (bs : List Bool) :
    toNat (bs.map (!·)) + toNat bs + 1 = 2 ^ bs.length := by
  induction bs with
  | nil => rfl
  | cons b bs ih =>
    rw [List.map_cons, toNat_cons, toNat_cons, List.length_cons, pow_succ, ← ih]
    cases b <;> simp <;> omega

end Bits

open Bits

/-! ### Widening -/

/-- The bit that fills the positions above: the sign or zero. -/
def Encoding.padBit : Encoding → List Bool → Bool
  | .unsigned, _ => false
  | .twosComplement, bs => bs.getLast?.getD false

/-- The bits brought to `n` positions, high ones dropped or padded. -/
def Encoding.resize (enc : Encoding) (n : Nat) (bs : List Bool) : List Bool :=
  if n ≤ bs.length then bs.take n else bs ++ List.replicate (n - bs.length) (enc.padBit bs)

theorem length_resize (enc : Encoding) (n : Nat) (bs : List Bool) : (enc.resize n bs).length = n := by
  unfold Encoding.resize
  split <;> simp <;> omega

theorem msb_eq (bs : List Bool) : (BitVec.ofBoolListLE bs).msb = bs.getLast?.getD false := by
  rw [BitVec.msb_eq_getLsbD_last, BitVec.getLsbD_ofBoolListLE, List.getLast?_eq_getElem?,
    List.getD_eq_getElem?_getD]

/-- A padding bit of one stands for minus one at the position above the bits. -/
theorem read_eq (enc : Encoding) (bs : List Bool) :
    enc.read bs = Bits.toNat bs - (enc.padBit bs).toNat * 2 ^ bs.length := by
  cases enc with
  | unsigned => simp [Encoding.read, Encoding.padBit, Bits.toNat]
  | twosComplement =>
    rw [Encoding.read, Encoding.padBit, BitVec.toInt_eq_msb_cond, msb_eq]
    cases bs.getLast?.getD false <;> simp [Bits.toNat]

theorem toNat_replicate (n : Nat) (b : Bool) :
    (Bits.toNat (List.replicate n b) : Int) = b.toNat * (2 ^ n - 1) := by
  cases b with
  | false => simp [toNat_replicate_false]
  | true =>
    have h : ((Bits.toNat (List.replicate n true) + 1 : Nat) : Int) = (2 ^ n : Nat) :=
      congrArg _ (toNat_replicate_true n)
    push_cast at h
    rw [Bool.toNat_true]
    omega

/-- **Widening or cutting keeps the integer modulo the new width.** -/
theorem toNat_resize (enc : Encoding) (n : Nat) (bs : List Bool) :
    (Bits.toNat (enc.resize n bs) : Int) = enc.read bs % 2 ^ n := by
  rw [read_eq]
  unfold Encoding.resize
  split
  · rename_i h
    obtain ⟨k, hk⟩ : (2 ^ n : Int) ∣ (enc.padBit bs).toNat * 2 ^ bs.length :=
      Dvd.dvd.mul_left (pow_dvd_pow 2 h) _
    rw [toNat_take n bs h, hk, Int.sub_mul_emod_self_left]
    push_cast
    rfl
  · rename_i h
    have hlen : 2 ^ bs.length * 2 ^ (n - bs.length) = (2 ^ n : Int) := by
      rw [← pow_add]
      congr 1
      omega
    have hsum : (Bits.toNat (bs ++ List.replicate (n - bs.length) (enc.padBit bs)) : Int) =
        Bits.toNat bs - (enc.padBit bs).toNat * 2 ^ bs.length + (enc.padBit bs).toNat * 2 ^ n := by
      rw [toNat_append]
      push_cast
      rw [toNat_replicate, ← hlen]
      ring
    have hlt := toNat_lt (bs ++ List.replicate (n - bs.length) (enc.padBit bs))
    rw [List.length_append, List.length_replicate, Nat.add_sub_cancel' (by omega)] at hlt
    have hmod : (Bits.toNat (bs ++ List.replicate (n - bs.length) (enc.padBit bs)) : Int) % 2 ^ n = _ :=
      Int.emod_eq_of_lt (Int.natCast_nonneg _) (by exact_mod_cast hlt)
    rw [← hmod, hsum, Int.add_mul_emod_self_right]

/-! ### Adding -/

/-- The sum bits of columns of bits, low end first, with a carry coming in. -/
def addBits (carry : Bool) : List (Bool × Bool) → List Bool
  | [] => []
  | (x, y) :: columns => (x ^^ y ^^ carry) :: addBits (Bool.atLeastTwo x y carry) columns

theorem length_addBits : ∀ (columns : List (Bool × Bool)) (carry : Bool),
    (addBits carry columns).length = columns.length
  | [], _ => rfl
  | (x, y) :: columns, carry => by
    rw [addBits, List.length_cons, List.length_cons, length_addBits columns]

/-- The carry into the lowest column: a subtraction has one. -/
def Direction.carryIn : Direction → Bool
  | .addition => false
  | .subtraction => true

/-- What is added: a subtraction adds the complement. -/
def Direction.addend : Direction → Bool → Bool
  | .addition, b => b
  | .subtraction, b => !b

/-- The bits of the sum or difference of two columns of bits. -/
def addSubBits (dir : Direction) (columns : List (Bool × Bool)) : List Bool :=
  addBits dir.carryIn (columns.map fun col => (col.1, dir.addend col.2))

theorem add_column (x y carry : Bool) : x.toNat + y.toNat + carry.toNat =
    (x ^^ y ^^ carry).toNat + 2 * (Bool.atLeastTwo x y carry).toNat := by
  cases x <;> cases y <;> cases carry <;> rfl

/-- Adding by columns adds, with the last carry dropped. -/
theorem toNat_addBits : ∀ (columns : List (Bool × Bool)) (carry : Bool),
    Bits.toNat (addBits carry columns) =
      (Bits.toNat (columns.map Prod.fst) + Bits.toNat (columns.map Prod.snd) + carry.toNat) %
        2 ^ columns.length
  | [], carry => by simp [addBits, Nat.mod_one]
  | (x, y) :: columns, carry => by
    have hcol := add_column x y carry
    have hb := Bool.toNat_lt (x ^^ y ^^ carry)
    have hsum : Bits.toNat (((x, y) :: columns).map Prod.fst) +
        Bits.toNat (((x, y) :: columns).map Prod.snd) + carry.toNat =
        (x ^^ y ^^ carry).toNat + 2 * (Bits.toNat (columns.map Prod.fst) +
          Bits.toNat (columns.map Prod.snd) + (Bool.atLeastTwo x y carry).toNat) := by
      simp only [List.map_cons, toNat_cons]
      omega
    rw [hsum, List.length_cons, pow_succ', Nat.mod_mul, addBits, toNat_cons, toNat_addBits columns]
    congr 1
    · omega
    · congr 2
      omega

/-- **Adding by columns adds, and with the complement and a carry it subtracts.** -/
theorem toNat_addSubBits (dir : Direction) (columns : List (Bool × Bool)) :
    (Bits.toNat (addSubBits dir columns) : Int) =
      dir.apply (Bits.toNat (columns.map Prod.fst)) (Bits.toNat (columns.map Prod.snd)) %
        2 ^ columns.length := by
  unfold addSubBits
  rw [toNat_addBits, List.length_map, List.map_map, List.map_map]
  cases dir with
  | addition =>
    push_cast
    simp [Direction.apply, Direction.carryIn, Direction.addend, Function.comp_def]
  | subtraction =>
    -- the complement of `y` and the carry make `2 ^ n - y`
    have hsnd : columns.map (Prod.snd ∘ fun col => (col.1, Direction.subtraction.addend col.2)) =
        (columns.map Prod.snd).map (!·) := by
      simp [Direction.addend]
    have hnot := toNat_map_not (columns.map Prod.snd)
    rw [List.length_map] at hnot
    have hadd : ((Bits.toNat (columns.map Prod.fst) + Bits.toNat ((columns.map Prod.snd).map (!·)) +
          1 : Nat) : Int) =
        Bits.toNat (columns.map Prod.fst) - Bits.toNat (columns.map Prod.snd) + 2 ^ columns.length := by
      have := congrArg (Nat.cast : Nat → Int) hnot
      push_cast at this ⊢
      omega
    rw [hsnd, Direction.carryIn, Bool.toNat_true, Int.natCast_mod]
    push_cast at hadd ⊢
    simp only [Function.comp_def]
    rw [hadd, Direction.apply, Int.add_emod_right]

/-- The adder's result on operands of any width. -/
theorem toNat_addSubBits_resize (enc : Encoding) (dir : Direction) (n : Nat) (as bs : List Bool) :
    (Bits.toNat (addSubBits dir ((enc.resize n as).zip (enc.resize n bs))) : Int) =
      dir.apply (enc.read as) (enc.read bs) % 2 ^ n := by
  have hlen : (enc.resize n as).length = (enc.resize n bs).length := by
    rw [length_resize, length_resize]
  rw [toNat_addSubBits, List.map_fst_zip (Nat.le_of_eq hlen), List.map_snd_zip (Nat.le_of_eq hlen.symm),
    List.length_zip, length_resize, length_resize, Nat.min_self, toNat_resize, toNat_resize]
  cases dir with
  | addition => simp [Direction.apply, Int.add_emod]
  | subtraction => simp [Direction.apply, Int.sub_emod]

/-! ### Operands and results in a circuit -/

/-- Each wire that is wanted has its bit of the result. -/
def Circuit.Delivers (c : Circuit) (input : Valuation) (targets : List (Option Wire))
    (bits : List Bool) : Prop :=
  List.Forall₂ (fun target b => ∀ out ∈ target, c.value input out = b) targets bits

/-- If all bits are wanted, the result is read off the wires. -/
theorem Circuit.Delivers.map_value {c : Circuit} {input : Valuation} : ∀ {out : Bundle} {bits : List Bool},
    c.Delivers input (out.map some) bits → out.map (c.value input) = bits
  | [], _, h => by
    cases h
    rfl
  | w :: out, _, h => by
    cases h with
    | cons hw hout =>
      rw [List.map_cons, hw w rfl, Circuit.Delivers.map_value hout]

/-- All wires have their bits. -/
theorem Circuit.delivers_map_some (c : Circuit) (input : Valuation) (out : Bundle) :
    c.Delivers input (out.map some) (out.map (c.value input)) := by
  unfold Circuit.Delivers
  rw [List.forall₂_map_left_iff, List.forall₂_map_right_iff, List.forall₂_same]
  rintro w - out ⟨⟩
  rfl

/-- If only one bit is wanted, it is the last one. -/
theorem Circuit.delivers_bit {c : Circuit} {input : Valuation} {out : Wire} :
    ∀ {position : Nat} {bits : List Bool}, c.Delivers input (Sink.bit position out).targets bits ↔
      bits.length = position + 1 ∧ bits.getLast? = some (c.value input out)
  | 0, bits => by
    simp only [Circuit.Delivers, Sink.targets, List.replicate_zero, List.nil_append,
      List.forall₂_cons_left_iff, List.forall₂_nil_left_iff]
    constructor
    · rintro ⟨b, _, hb, rfl, rfl⟩
      exact ⟨rfl, by rw [hb out rfl]; rfl⟩
    · rintro ⟨hlen, hlast⟩
      obtain ⟨b, rfl⟩ := List.length_eq_one_iff.mp hlen
      refine ⟨b, [], ?_, rfl, rfl⟩
      rintro w ⟨⟩
      exact (Option.some.inj hlast).symm
  | position + 1, [] => by
    simp [Circuit.Delivers, Sink.targets, List.replicate_succ]
  | position + 1, b :: bits => by
    have ih : c.Delivers input (Sink.bit position out).targets bits ↔ _ := Circuit.delivers_bit
    simp only [Circuit.Delivers, Sink.targets] at ih ⊢
    rw [List.replicate_succ, List.cons_append, List.forall₂_cons, ih, List.length_cons]
    constructor
    · rintro ⟨-, hlen, hlast⟩
      exact ⟨congrArg (· + 1) hlen, by rw [List.getLast?_cons, hlast]; rfl⟩
    · rintro ⟨hlen, hlast⟩
      have hne : bits ≠ [] := by
        rintro rfl
        simp at hlen
      rw [List.getLast?_cons_of_ne_nil hne] at hlast
      exact ⟨by simp, Nat.succ.inj hlen, hlast⟩

/-- The most significant wire carries the sign. -/
theorem value_msb {a : Bundle} {w : Wire} (v : Valuation) (h : a.msb = .ok w) :
    v w = Encoding.twosComplement.padBit (a.map v) := by
  rw [Encoding.padBit, List.getLast?_map, msb_eq_ok.mp h]
  rfl

namespace Build

variable {c c' : Circuit} {D : Set Wire} {input : Valuation}

/-- No wire is wanted for two bits. -/
def TargetsDistinct (targets : List (Option Wire)) : Prop :=
  targets.Pairwise fun t t' => ∀ w ∈ t, w ∉ t'

theorem targetsDistinct_targets {sink : Sink} (h : sink.wires.Nodup) : TargetsDistinct sink.targets := by
  unfold TargetsDistinct
  cases sink with
  | all out =>
    rw [Sink.targets, List.pairwise_map]
    exact List.Pairwise.imp (fun hne w hw hw' => hne (by simp_all)) h
  | bit position out =>
    rw [Sink.targets, List.pairwise_append, List.pairwise_replicate]
    simp

theorem padding_spec {enc : Encoding} {a : Bundle} {as : List Bool} {pad : Wire} (hc : c.WellFormed)
    (hD : ∀ w ∈ D, c.Allocated w) (ha : c.Signals input D a as)
    (h : (padding enc a).exec c = (.ok pad, c')) :
    c.Evolves ∅ c' ∧ c'.Settled D pad ∧ c'.value input pad = enc.padBit as := by
  cases enc with
  | unsigned =>
    have hpad := constant_spec hc h
    exact ⟨hpad.toEvolves, hpad.settled hD (by simp), hpad.value input⟩
  | twosComplement =>
    obtain ⟨hmsb, rfl⟩ := exec_check_eq_ok.mp h
    refine ⟨.refl hc ∅, ha.settled _ (mem_of_msb hmsb), ?_⟩
    rw [value_msb (c'.value input) hmsb, ha.values]

/-- An operand that is brought to a width has that width, and what it is padded with is one of its
wires or a constant. -/
theorem extend_wires {enc : Encoding} {n : Nat} {a x : Bundle} (hc : c.WellFormed)
    (h : (extend enc n a).exec c = (.ok x, c')) :
    c.Evolves ∅ c' ∧ x.length = n ∧ ∀ w ∈ x, w ∈ a ∨ c'.Given w := by
  unfold extend at h
  by_cases hn : n ≤ a.length
  · rw [if_pos hn] at h
    obtain ⟨rfl, rfl⟩ := exec_pure_eq_ok.mp h
    exact ⟨.refl hc ∅, List.length_take_of_le hn, fun w hw => .inl (List.mem_of_mem_take hw)⟩
  rw [if_neg hn] at h
  obtain ⟨pad, c₁, hpad, h⟩ := exec_bind_eq_ok.mp h
  obtain ⟨-, -, h⟩ := exec_check_bind.mp h
  obtain ⟨rfl, rfl⟩ := exec_pure_eq_ok.mp h
  have hlen : (a ++ List.replicate (n - a.length) pad).length = n := by
    rw [List.length_append, List.length_replicate]
    omega
  cases enc with
  | unsigned =>
    obtain ⟨hev, hs⟩ := constant_state hc hpad
    refine ⟨hev, hlen, fun w hw => (List.mem_append.mp hw).imp_right fun hw => ?_⟩
    rw [List.eq_of_mem_replicate hw]
    exact .inr ⟨false, hs⟩
  | twosComplement =>
    obtain ⟨hmsb, rfl⟩ := exec_check_eq_ok.mp hpad
    refine ⟨.refl hc ∅, hlen, fun w hw => .inl ?_⟩
    rcases List.mem_append.mp hw with hw | hw
    · exact hw
    · rw [List.eq_of_mem_replicate hw]
      exact mem_of_msb hmsb

variable (input) in
/-- An operand is brought to a width as its bits are. -/
theorem extend_spec {enc : Encoding} {n : Nat} {a x : Bundle} {as : List Bool} (hc : c.WellFormed)
    (hD : ∀ w ∈ D, c.Allocated w) (ha : c.Signals input D a as)
    (h : (extend enc n a).exec c = (.ok x, c')) :
    c.Evolves ∅ c' ∧ c'.Signals input D x (enc.resize n as) := by
  unfold extend at h
  unfold Encoding.resize
  rw [← ha.length_eq]
  split at h
  · rename_i hn
    obtain ⟨rfl, rfl⟩ := exec_pure_eq_ok.mp h
    rw [if_pos hn]
    refine ⟨.refl hc ∅, fun w hw => ha.settled w (List.mem_of_mem_take hw), ?_⟩
    rw [List.map_take, ha.values]
  · rename_i hn
    obtain ⟨pad, c₁, hpad, h⟩ := exec_bind_eq_ok.mp h
    obtain ⟨-, -, h⟩ := exec_check_bind.mp h
    obtain ⟨rfl, rfl⟩ := exec_pure_eq_ok.mp h
    obtain ⟨hev, hset, hval⟩ := padding_spec hc hD ha hpad
    have ha' := ha.evolves hc hev (Set.empty_subset D)
    rw [if_neg hn]
    refine ⟨hev, fun w hw => ?_, ?_⟩
    · rcases List.mem_append.mp hw with hw | hw
      · exact ha'.settled w hw
      · rw [List.eq_of_mem_replicate hw]
        exact hset
    · rw [List.map_append, ha'.values, List.map_replicate, hval]

variable (input) in
/-- Two operands are brought to one width. -/
theorem extend_both_spec {enc : Encoding} {n : Nat} {a b x y : Bundle} {as bs : List Bool}
    {c₁ : Circuit} (hc : c.WellFormed) (hD : ∀ w ∈ D, c.Allocated w) (ha : c.Signals input D a as)
    (hb : c.Signals input D b bs) (hx : (extend enc n a).exec c = (.ok x, c₁))
    (hy : (extend enc n b).exec c₁ = (.ok y, c')) :
    c.Evolves ∅ c' ∧ c'.Signals input D x (enc.resize n as) ∧
      c'.Signals input D y (enc.resize n bs) := by
  obtain ⟨hev, hsx⟩ := extend_spec input hc hD ha hx
  obtain ⟨hev', hsy⟩ := extend_spec input hev.wellFormed (hev.all_allocated hD)
    (hb.evolves hc hev (Set.empty_subset D)) hy
  exact ⟨hev.trans_same hev', hsx.evolves hev.wellFormed hev' (Set.empty_subset D), hsy⟩

end Build
end BitCircuit
