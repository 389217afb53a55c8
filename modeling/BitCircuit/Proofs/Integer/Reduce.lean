/-
# What a reduction adds up to

Parts that carry amounts of some monoid are joined so that the amounts add up (`JoinsAmounts`). Then
a chain of joins and a balanced tree of them both end with one part that carries the sum of all
amounts in their order, and what a join takes over from its lower part is that of the first part.

If a join puts its result one level above its parts (`JoinsLevels`), a balanced tree ends as many
levels above them as the number of parts can be halved, rounding up.

Key definitions: `Build.JoinsAmounts`, `Build.JoinsLevels`.
Key theorems: `Build.JoinsAmounts.joinPairs_spec`, `Build.JoinsAmounts.reduce_spec`,
`Build.JoinsAmounts.foldlM_spec`, `Build.JoinsLevels.reduce_levels`.
-/
import Mathlib.Algebra.BigOperators.Group.List.Basic
import Mathlib.Data.List.Forall2
import Mathlib.Data.Nat.Log
import BitCircuit.Integer.Reduce
import BitCircuit.Proofs.Folding

namespace BitCircuit
namespace Build

variable {α M : Type} [AddMonoid M]

/-- Joining two parts in a circuit drives only wires in `D` and new ones, adds the amounts that the
parts carry, and keeps the key of the lower one. Parts carry their amounts while wires in `D` are
driven. What the lowest part carries may say less than what the others do. -/
structure JoinsAmounts (D : Set Wire) (carries : Bool → Circuit → α → M → Prop) (key : α → Nat)
    (join : Bool → α → α → Build α) : Prop where
  kept : ∀ {lowest : Bool} {c c' : Circuit} {p : α} {x : M}, c.WellFormed → carries lowest c p x →
    c.Evolves D c' → carries lowest c' p x
  joined : ∀ {lowest : Bool} {lo hi p : α} {x y : M} {c c' : Circuit}, c.WellFormed →
    (∀ w ∈ D, c.Allocated w) → carries lowest c lo x → carries false c hi y →
    (join lowest lo hi).exec c = (.ok p, c') →
    c.Evolves D c' ∧ carries lowest c' p (x + y) ∧ key p = key lo

namespace JoinsAmounts

variable {D : Set Wire} {carries : Bool → Circuit → α → M → Prop} {key : α → Nat}
  {join : Bool → α → α → Build α} (hj : JoinsAmounts D carries key join)
include hj

theorem kept_all {c c' : Circuit} {ps : List α} {xs : List M} (hc : c.WellFormed)
    (h : List.Forall₂ (carries false c) ps xs) (hev : c.Evolves D c') :
    List.Forall₂ (carries false c') ps xs :=
  h.imp fun _ _ hp => hj.kept hc hp hev

/-- A level halves the parts and keeps their sum. -/
theorem joinPairs_spec : ∀ {rest ps : List α} {first : α} {x : M} {xs : List M} {lowest : Bool}
    {c c' : Circuit}, c.WellFormed → (∀ w ∈ D, c.Allocated w) → carries lowest c first x →
    List.Forall₂ (carries false c) rest xs →
    (joinPairs join lowest (first :: rest)).exec c = (.ok ps, c') →
    c.Evolves D c' ∧ ∃ p ps' y ys, ps = p :: ps' ∧ carries lowest c' p y ∧
      List.Forall₂ (carries false c') ps' ys ∧ y + ys.sum = x + xs.sum ∧ key p = key first ∧
      ps'.length = rest.length / 2
  | [], ps, first, x, xs, _, c, c', hc, _, hfirst, hrest, h => by
    obtain ⟨rfl, rfl⟩ := exec_pure_eq_ok.mp h
    exact ⟨.refl hc D, first, [], x, xs, rfl, hfirst, hrest, rfl, rfl, by simp⟩
  | [hi], ps, first, x, xs, lowest, c, c', hc, hD, hfirst, hrest, h => by
    obtain ⟨y, xs₁, hhi, hnil, rfl⟩ := List.forall₂_cons_left_iff.mp hrest
    obtain rfl := List.forall₂_nil_left_iff.mp hnil
    rw [joinPairs] at h
    obtain ⟨p, c₁, hjoin, h⟩ := exec_bind_eq_ok.mp h
    obtain ⟨rfl, rfl⟩ := exec_pure_eq_ok.mp h
    obtain ⟨hev, hp, hkey⟩ := hj.joined hc hD hfirst hhi hjoin
    exact ⟨hev, p, [], x + y, [], rfl, hp, .nil, by simp, hkey, by simp⟩
  | hi :: next :: rest, ps, first, x, xs, lowest, c, c', hc, hD, hfirst, hrest, h => by
    obtain ⟨y, xs₁, hhi, htail, rfl⟩ := List.forall₂_cons_left_iff.mp hrest
    obtain ⟨z, xs₂, hnext, hupper, rfl⟩ := List.forall₂_cons_left_iff.mp htail
    rw [joinPairs] at h
    obtain ⟨p, c₁, hjoin, h⟩ := exec_bind_eq_ok.mp h
    obtain ⟨ps', c₂, hpairs, h⟩ := exec_bind_eq_ok.mp h
    obtain ⟨rfl, rfl⟩ := exec_pure_eq_ok.mp h
    obtain ⟨hev, hp, hkey⟩ := hj.joined hc hD hfirst hhi hjoin
    obtain ⟨hev', q, qs, y', ys, rfl, hq, hqs, hsum, -, hlen⟩ := joinPairs_spec hev.wellFormed
      (hev.all_allocated hD) (hj.kept hc hnext hev) (hj.kept_all hc hupper hev) hpairs
    refine ⟨hev.trans_same hev', p, q :: qs, x + y, y' :: ys, rfl, hj.kept hev.wellFormed hp hev',
      .cons hq hqs, ?_, hkey, ?_⟩
    · rw [List.sum_cons, List.sum_cons, List.sum_cons, hsum, add_assoc]
    · rw [List.length_cons, hlen, List.length_cons, List.length_cons]
      omega

/-- As many levels as there are parts leave one part. -/
theorem joinLevels_spec : ∀ {levels : Nat} {rest ps : List α} {first : α} {x : M} {xs : List M}
    {c c' : Circuit}, c.WellFormed → (∀ w ∈ D, c.Allocated w) → carries true c first x →
    List.Forall₂ (carries false c) rest xs → rest.length ≤ levels →
    (joinLevels join levels (first :: rest)).exec c = (.ok ps, c') →
    c.Evolves D c' ∧ ∃ p, ps = [p] ∧ carries true c' p (x + xs.sum) ∧ key p = key first
  | levels, [], ps, first, x, xs, c, c', hc, _, hfirst, hrest, _, h => by
    rw [joinLevels.eq_2 _ _ _ (by simp)] at h
    obtain ⟨rfl, rfl⟩ := exec_pure_eq_ok.mp h
    rw [List.forall₂_nil_left_iff.mp hrest, List.sum_nil, add_zero]
    exact ⟨.refl hc D, first, rfl, hfirst, rfl⟩
  | levels + 1, hi :: rest, ps, first, x, xs, c, c', hc, hD, hfirst, hrest, hlen, h => by
    rw [joinLevels] at h
    obtain ⟨parts', c₁, hpairs, h⟩ := exec_bind_eq_ok.mp h
    obtain ⟨hev, p, ps', y, ys, rfl, hp, hps, hsum, hkey, hlen'⟩ :=
      hj.joinPairs_spec hc hD hfirst hrest hpairs
    have hshort : ps'.length ≤ levels := by
      rw [List.length_cons] at hlen hlen'
      omega
    obtain ⟨hev', q, rfl, hq, hkey'⟩ :=
      joinLevels_spec hev.wellFormed (hev.all_allocated hD) hp hps hshort h
    exact ⟨hev.trans_same hev', q, rfl, hsum ▸ hq, hkey'.trans hkey⟩

/-- **A balanced tree of joins carries the sum.** -/
theorem reduce_spec {rest : List α} {first p : α} {x : M} {xs : List M} {c c' : Circuit}
    (hc : c.WellFormed) (hD : ∀ w ∈ D, c.Allocated w) (hfirst : carries true c first x)
    (hrest : List.Forall₂ (carries false c) rest xs)
    (h : (reduce join (first :: rest)).exec c = (.ok p, c')) :
    c.Evolves D c' ∧ carries true c' p (x + xs.sum) ∧ key p = key first := by
  unfold reduce at h
  obtain ⟨ps, c₁, hlevels, h⟩ := exec_bind_eq_ok.mp h
  obtain ⟨hev, q, rfl, hq, hkey⟩ :=
    hj.joinLevels_spec hc hD hfirst hrest (Nat.le_succ _) hlevels
  obtain ⟨rfl, rfl⟩ := exec_pure_eq_ok.mp h
  exact ⟨hev, hq, hkey⟩

/-- **A chain of joins carries the sum.** -/
theorem foldlM_spec (lowest : Bool) : ∀ {rest : List α} {first p : α} {x : M} {xs : List M}
    {c c' : Circuit}, c.WellFormed → (∀ w ∈ D, c.Allocated w) → carries lowest c first x →
    List.Forall₂ (carries false c) rest xs → (rest.foldlM (join lowest) first).exec c = (.ok p, c') →
    c.Evolves D c' ∧ carries lowest c' p (x + xs.sum) ∧ key p = key first
  | [], first, p, x, xs, c, c', hc, _, hfirst, hrest, h => by
    obtain ⟨rfl, rfl⟩ := exec_pure_eq_ok.mp h
    rw [List.forall₂_nil_left_iff.mp hrest, List.sum_nil, add_zero]
    exact ⟨.refl hc D, hfirst, rfl⟩
  | next :: rest, first, p, x, xs, c, c', hc, hD, hfirst, hrest, h => by
    obtain ⟨y, ys, hnext, htail, rfl⟩ := List.forall₂_cons_left_iff.mp hrest
    rw [List.foldlM_cons] at h
    obtain ⟨sum, c₁, hjoin, h⟩ := exec_bind_eq_ok.mp h
    obtain ⟨hev, hsum, hkey⟩ := hj.joined hc hD hfirst hnext hjoin
    obtain ⟨hev', hp, hkey'⟩ := foldlM_spec lowest hev.wellFormed (hev.all_allocated hD) hsum
      (hj.kept_all hc htail hev) h
    rw [List.sum_cons, ← add_assoc]
    exact ⟨hev.trans_same hev', hp, hkey'.trans hkey⟩

end JoinsAmounts

/-! ### The levels of a tree -/

/-- Joining two parts at one level gives a part at the next, driving only wires in `D` and new ones.
A part above the lowest one counts as one at the next level too, where it is carried over. -/
structure JoinsLevels (D : Set Wire) (reaches : Bool → Nat → Circuit → α → Prop)
    (join : Bool → α → α → Build α) : Prop where
  kept : ∀ {lowest : Bool} {k : Nat} {c c' : Circuit} {p : α}, reaches lowest k c p →
    c.Evolves D c' → reaches lowest k c' p
  carried : ∀ {k : Nat} {c : Circuit} {p : α}, reaches false k c p → reaches false (k + 1) c p
  joined : ∀ {lowest : Bool} {k : Nat} {lo hi p : α} {c c' : Circuit}, c.WellFormed →
    (∀ w ∈ D, c.Allocated w) → reaches lowest k c lo → reaches false k c hi →
    (join lowest lo hi).exec c = (.ok p, c') → c.Evolves D c' ∧ reaches lowest (k + 1) c' p

namespace JoinsLevels

variable {D : Set Wire} {reaches : Bool → Nat → Circuit → α → Prop} {join : Bool → α → α → Build α}
  (hj : JoinsLevels D reaches join)
include hj

theorem kept_all {k : Nat} {c c' : Circuit} {ps : List α} (h : ∀ p ∈ ps, reaches false k c p)
    (hev : c.Evolves D c') : ∀ p ∈ ps, reaches false k c' p :=
  fun p hp => hj.kept (h p hp) hev

/-- All parts go up by one level, and there are half as many. A single part has to be carried. -/
theorem joinPairs_levels : ∀ {rest ps : List α} {first : α} {k : Nat} {lowest : Bool} {c c' : Circuit},
    c.WellFormed → (∀ w ∈ D, c.Allocated w) → (rest = [] → lowest = false) →
    reaches lowest k c first → (∀ p ∈ rest, reaches false k c p) →
    (joinPairs join lowest (first :: rest)).exec c = (.ok ps, c') →
    c.Evolves D c' ∧ ∃ p ps', ps = p :: ps' ∧ reaches lowest (k + 1) c' p ∧
      (∀ q ∈ ps', reaches false (k + 1) c' q) ∧ ps'.length = rest.length / 2
  | [], ps, first, k, lowest, c, c', hc, _, hsingle, hfirst, _, h => by
    obtain ⟨rfl, rfl⟩ := exec_pure_eq_ok.mp h
    obtain rfl := hsingle rfl
    exact ⟨.refl hc D, first, [], rfl, hj.carried hfirst, by simp, by simp⟩
  | [hi], ps, first, k, lowest, c, c', hc, hD, _, hfirst, hrest, h => by
    rw [joinPairs] at h
    obtain ⟨p, c₁, hjoin, h⟩ := exec_bind_eq_ok.mp h
    obtain ⟨rfl, rfl⟩ := exec_pure_eq_ok.mp h
    obtain ⟨hev, hp⟩ := hj.joined hc hD hfirst (hrest hi (by simp)) hjoin
    exact ⟨hev, p, [], rfl, hp, by simp, by simp⟩
  | hi :: next :: rest, ps, first, k, lowest, c, c', hc, hD, _, hfirst, hrest, h => by
    obtain ⟨hhi, htail⟩ := List.forall_mem_cons.mp hrest
    obtain ⟨hnext, hupper⟩ := List.forall_mem_cons.mp htail
    rw [joinPairs] at h
    obtain ⟨p, c₁, hjoin, h⟩ := exec_bind_eq_ok.mp h
    obtain ⟨ps', c₂, hpairs, h⟩ := exec_bind_eq_ok.mp h
    obtain ⟨rfl, rfl⟩ := exec_pure_eq_ok.mp h
    obtain ⟨hev, hp⟩ := hj.joined hc hD hfirst hhi hjoin
    obtain ⟨hev', q, qs, rfl, hq, hqs, hlen⟩ := joinPairs_levels hev.wellFormed
      (hev.all_allocated hD) (fun _ => rfl) (hj.kept hnext hev) (hj.kept_all hupper hev) hpairs
    refine ⟨hev.trans_same hev', p, q :: qs, rfl, hj.kept hp hev',
      List.forall_mem_cons.mpr ⟨hq, hqs⟩, ?_⟩
    rw [List.length_cons, hlen, List.length_cons, List.length_cons]
    omega

/-- The number of levels is that of halvings, rounding up, down to one part. -/
theorem joinLevels_levels : ∀ {levels : Nat} {rest ps : List α} {first : α} {k : Nat} {c c' : Circuit},
    c.WellFormed → (∀ w ∈ D, c.Allocated w) → reaches true k c first →
    (∀ p ∈ rest, reaches false k c p) → rest.length ≤ levels →
    (joinLevels join levels (first :: rest)).exec c = (.ok ps, c') →
    c.Evolves D c' ∧ ∃ p, ps = [p] ∧ reaches true (k + Nat.clog 2 (rest.length + 1)) c' p
  | levels, [], ps, first, k, c, c', hc, _, hfirst, _, _, h => by
    rw [joinLevels.eq_2 _ _ _ (by simp)] at h
    obtain ⟨rfl, rfl⟩ := exec_pure_eq_ok.mp h
    exact ⟨.refl hc D, first, rfl, by simpa using hfirst⟩
  | levels + 1, hi :: rest, ps, first, k, c, c', hc, hD, hfirst, hrest, hlen, h => by
    rw [joinLevels] at h
    obtain ⟨parts', c₁, hpairs, h⟩ := exec_bind_eq_ok.mp h
    obtain ⟨hev, p, ps', rfl, hp, hps, hlen'⟩ :=
      hj.joinPairs_levels hc hD (by simp) hfirst hrest hpairs
    rw [List.length_cons] at hlen hlen'
    obtain ⟨hev', q, rfl, hq⟩ :=
      joinLevels_levels hev.wellFormed (hev.all_allocated hD) hp hps (by omega) h
    refine ⟨hev.trans_same hev', q, rfl, ?_⟩
    have hhalf : (rest.length + 2 + 2 - 1) / 2 = ps'.length + 1 := by omega
    have hclog : Nat.clog 2 (rest.length + 2) = Nat.clog 2 (ps'.length + 1) + 1 := by
      rw [Nat.clog_of_two_le (by decide) (by omega), hhalf]
    rw [List.length_cons, hclog, ← Nat.add_assoc, Nat.add_right_comm]
    exact hq

/-- **A balanced tree of joins has logarithmic height.** -/
theorem reduce_levels {rest : List α} {first p : α} {k : Nat} {c c' : Circuit} (hc : c.WellFormed)
    (hD : ∀ w ∈ D, c.Allocated w) (hfirst : reaches true k c first)
    (hrest : ∀ p ∈ rest, reaches false k c p)
    (h : (reduce join (first :: rest)).exec c = (.ok p, c')) :
    c.Evolves D c' ∧ reaches true (k + Nat.clog 2 (rest.length + 1)) c' p := by
  unfold reduce at h
  obtain ⟨ps, c₁, hlevels, h⟩ := exec_bind_eq_ok.mp h
  obtain ⟨hev, q, rfl, hq⟩ := hj.joinLevels_levels hc hD hfirst hrest (Nat.le_succ _) hlevels
  obtain ⟨rfl, rfl⟩ := exec_pure_eq_ok.mp h
  exact ⟨hev, hq⟩

end JoinsLevels

end Build
end BitCircuit
