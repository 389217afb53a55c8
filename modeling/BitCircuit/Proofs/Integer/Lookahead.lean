/-
# The carry-lookahead adder adds

A run of positions hands a carry on if it generates one (`spanCarry`) or propagates the one from
below. The network keeps the invariant `Covers d`: the span of a position says this of the
`d` positions below and including it. A level of stride `d` joins each span to the one below it,
so it doubles `d` (`Build.joinStride_spec`); it joins with `xor`, which is right since a
position above the lowest one never generates and propagates at once. When the spans reach
the lowest position they are the carries (`Build.koggeStone_carries`).

Where a single bit is wanted, a balanced tree joins the runs of all positions to one, and the carry
out of that is the last of the carries (`Build.topCarry_carry`). From there on both forms of the adder
are one argument (`Build.lookahead_spec`).

Key definitions: `spanCarry`, `spanPropagate`, `spanBits`, `Covers`, `Span.Says`.
Key theorems: `Build.joinStride_spec`, `Build.koggeStone_carries`, `Build.topCarry_carry`,
`Build.lookahead_spec`.
-/
import Mathlib.Algebra.FreeMonoid.Basic
import Mathlib.Data.List.Induction
import BitCircuit.Integer.Lookahead
import BitCircuit.Proofs.Bundle
import BitCircuit.Proofs.Integer.Basic
import BitCircuit.Proofs.Integer.Reduce

namespace BitCircuit

/-! ### Spans of positions -/

/-- The carry out of positions, top one first, from what each generates and propagates. -/
def spanCarry : List (Bool × Bool) → Bool
  | [] => false
  | (g, p) :: below => g || (p && spanCarry below)

/-- All positions propagate. -/
def spanPropagate (spans : List (Bool × Bool)) : Bool :=
  spans.all Prod.snd

theorem spanCarry_append (hi lo : List (Bool × Bool)) :
    spanCarry (hi ++ lo) = (spanCarry hi || (spanPropagate hi && spanCarry lo)) := by
  induction hi with
  | nil => simp [spanCarry, spanPropagate]
  | cons s hi ih =>
    obtain ⟨g, p⟩ := s
    rw [List.cons_append, spanCarry, spanCarry, ih]
    cases g <;> cases p <;> simp [spanPropagate]

theorem spanPropagate_append (hi lo : List (Bool × Bool)) :
    spanPropagate (hi ++ lo) = (spanPropagate hi && spanPropagate lo) := by
  simp [spanPropagate]

/-- No position generates and propagates at once. -/
def Exclusive (spans : List (Bool × Bool)) : Prop :=
  ∀ s ∈ spans, (s.1 && s.2) = false

theorem Exclusive.span {spans : List (Bool × Bool)} (h : Exclusive spans) :
    (spanCarry spans && spanPropagate spans) = false := by
  induction spans with
  | nil => rfl
  | cons s spans ih =>
    obtain ⟨g, p⟩ := s
    obtain ⟨hs, hspans⟩ := List.forall_mem_cons.mp h
    have ih := ih hspans
    cases g <;> cases p <;> simp_all [spanCarry, spanPropagate]

theorem Exclusive.take {bits : List (Bool × Bool)} {d : Nat} (h : Exclusive bits.dropLast)
    (hd : d < bits.length) : Exclusive (bits.take d) := by
  have hsub : bits.take d = bits.dropLast.take d := by
    rw [List.dropLast_eq_take, List.take_take, Nat.min_eq_left (by omega)]
  rw [hsub]
  exact fun s hs => h s (List.mem_of_mem_take hs)

theorem Exclusive.tail {b : Bool × Bool} {bits : List (Bool × Bool)}
    (h : Exclusive (b :: bits).dropLast) : Exclusive bits.dropLast := by
  cases bits with
  | nil => simp [Exclusive]
  | cons b' bits =>
    rw [List.dropLast_cons_cons] at h
    exact fun s hs => h s (List.mem_cons_of_mem b hs)

/-- Joining two runs with `xor`, where the upper one is exclusive. -/
theorem spanCarry_append_xor {hi : List (Bool × Bool)} (h : Exclusive hi) (lo : List (Bool × Bool)) :
    spanCarry (hi ++ lo) = (spanCarry hi ^^ (spanPropagate hi && spanCarry lo)) := by
  have hx := h.span
  rw [spanCarry_append]
  cases hc : spanCarry hi <;> cases hp : spanPropagate hi <;> simp_all

/-! ### Carries -/

/-- The carries out of columns of bits, low end first. -/
def columnCarries (carry : Bool) : List (Bool × Bool) → List Bool
  | [] => []
  | (x, y) :: columns =>
    Bool.atLeastTwo x y carry :: columnCarries (Bool.atLeastTwo x y carry) columns

/-- What columns of bits generate and propagate, low end first. The carry into the lowest one
is part of what it generates. -/
def spanBits (carry : Bool) : List (Bool × Bool) → List (Bool × Bool)
  | [] => []
  | (x, y) :: columns => (Bool.atLeastTwo x y carry, x ^^ y) :: columns.map fun q => (q.1 && q.2, q.1 ^^ q.2)

/-- A sum bit is the partial sum and the carry from below. -/
theorem addBits_eq_zipWith : ∀ (columns : List (Bool × Bool)) (carry : Bool),
    addBits carry columns = List.zipWith (· ^^ ·) (columns.map fun q => q.1 ^^ q.2)
      (carry :: columnCarries carry columns.dropLast)
  | [], _ => rfl
  | [(x, y)], carry => by simp [addBits]
  | (x, y) :: q :: columns, carry => by
    rw [addBits, addBits_eq_zipWith (q :: columns), List.dropLast_cons_cons, columnCarries]
    rfl

/-- The carry out of the positions up to each one, top one first. -/
def carriesDown : List (Bool × Bool) → List Bool
  | [] => []
  | s :: below => spanCarry (s :: below) :: carriesDown below

theorem carriesDown_map_reverse : ∀ (columns below : List (Bool × Bool)),
    carriesDown ((columns.map fun q => (q.1 && q.2, q.1 ^^ q.2)).reverse ++ below) =
      (columnCarries (spanCarry below) columns).reverse ++ carriesDown below
  | [], _ => rfl
  | (x, y) :: columns, below => by
    have hcarry : spanCarry ((x && y, x ^^ y) :: below) = Bool.atLeastTwo x y (spanCarry below) := by
      rw [spanCarry]
      cases x <;> cases y <;> simp
    rw [List.map_cons, List.reverse_cons, List.append_assoc, List.singleton_append,
      carriesDown_map_reverse columns, columnCarries, List.reverse_cons, carriesDown, hcarry,
      List.append_assoc, List.singleton_append]

/-- The spans down to the lowest position have the carries. -/
theorem carriesDown_reverse_spanBits (carry : Bool) (columns : List (Bool × Bool)) :
    (carriesDown (spanBits carry columns).reverse).reverse = columnCarries carry columns := by
  cases columns with
  | nil => rfl
  | cons q columns =>
    rw [spanBits, List.reverse_cons, carriesDown_map_reverse]
    simp [carriesDown, spanCarry, columnCarries]

theorem length_columnCarries : ∀ (columns : List (Bool × Bool)) (carry : Bool),
    (columnCarries carry columns).length = columns.length
  | [], _ => rfl
  | (x, y) :: columns, carry => by
    rw [columnCarries, List.length_cons, List.length_cons, length_columnCarries columns]

theorem head?_carriesDown {spans : List (Bool × Bool)} (h : spans ≠ []) :
    (carriesDown spans).head? = some (spanCarry spans) := by
  cases spans with
  | nil => exact (h rfl).elim
  | cons s below => rfl

/-- Above the lowest position no column generates and propagates at once. -/
theorem exclusive_spanBits (carry : Bool) (columns : List (Bool × Bool)) :
    Exclusive (spanBits carry columns).reverse.dropLast := by
  rw [List.dropLast_reverse]
  cases columns with
  | nil => simp [spanBits, Exclusive]
  | cons q columns =>
    intro s hs
    simp only [spanBits, List.tail_cons, List.mem_reverse, List.mem_map] at hs
    obtain ⟨⟨x, y⟩, -, rfl⟩ := hs
    cases x <;> cases y <;> rfl

/-! ### What spans of wires say -/

/-- The spans, top one first, say of the `d` positions at and below each one whether a carry
comes out of them and, unless they reach the lowest position, whether they propagate. -/
def Covers (c : Circuit) (input : Valuation) (D : Set Wire) (d : Nat) :
    List Span → List (Bool × Bool) → Prop
  | [], [] => True
  | s :: spans, b :: bits =>
    (c.Settled D s.generate ∧ c.value input s.generate = spanCarry ((b :: bits).take d)) ∧
    (d ≤ bits.length →
      c.Settled D s.propagate ∧ c.value input s.propagate = spanPropagate ((b :: bits).take d)) ∧
    Covers c input D d spans bits
  | _, _ => False

namespace Covers

variable {c c' : Circuit} {input : Valuation} {D D' : Set Wire} {d : Nat}

theorem evolves (hc : c.WellFormed) (hev : c.Evolves D' c') (hD : D' ⊆ D) :
    ∀ {spans : List Span} {bits : List (Bool × Bool)}, Covers c input D d spans bits →
      Covers c' input D d spans bits
  | [], [], _ => trivial
  | s :: spans, b :: bits, ⟨⟨hg, hgv⟩, hp, hrest⟩ => by
    refine ⟨⟨hg.evolves hev, by rw [hg.value_eq hc hev hD, hgv]⟩, fun hd => ?_, hrest.evolves hc hev hD⟩
    obtain ⟨hps, hpv⟩ := hp hd
    exact ⟨hps.evolves hev, by rw [hps.value_eq hc hev hD, hpv]⟩

theorem length_eq : ∀ {spans : List Span} {bits : List (Bool × Bool)},
    Covers c input D d spans bits → spans.length = bits.length
  | [], [], _ => rfl
  | _ :: _, _ :: _, ⟨_, _, hrest⟩ => congrArg Nat.succ hrest.length_eq

theorem drop : ∀ (n : Nat) {spans : List Span} {bits : List (Bool × Bool)},
    Covers c input D d spans bits → Covers c input D d (spans.drop n) (bits.drop n)
  | 0, _, _, h => h
  | _ + 1, [], [], _ => trivial
  | n + 1, _ :: _, _ :: _, ⟨_, _, hrest⟩ => hrest.drop n

/-- Spans that reach the lowest position reach it whatever the stride. -/
theorem of_length_le {d' : Nat} (hd : d ≤ d') : ∀ {spans : List Span} {bits : List (Bool × Bool)},
    bits.length ≤ d → Covers c input D d spans bits → Covers c input D d' spans bits
  | [], [], _, _ => trivial
  | s :: spans, b :: bits, hle, ⟨hg, hp, hrest⟩ => by
    rw [List.take_of_length_le hle] at hg hp
    refine ⟨?_, fun h => ?_, hrest.of_length_le hd (Nat.le_of_succ_le hle)⟩
    · rwa [List.take_of_length_le (hle.trans hd)]
    · rw [List.length_cons] at hle
      omega

/-- Spans that reach the lowest position have the carries. -/
theorem signals : ∀ {spans : List Span} {bits : List (Bool × Bool)},
    bits.length ≤ d → Covers c input D d spans bits →
      c.Signals input D (spans.map Span.generate) (carriesDown bits)
  | [], [], _, _ => Circuit.signals_nil
  | s :: spans, b :: bits, hle, ⟨hg, _, hrest⟩ => by
    rw [List.take_of_length_le hle] at hg
    exact Circuit.signals_cons.mpr ⟨hg, hrest.signals (Nat.le_of_succ_le hle)⟩

end Covers

/-- The span says of a run of positions, low end first, whether a carry comes out of it and, unless
it is the lowest one, whether it propagates. -/
def Span.Says (input : Valuation) (D : Set Wire) (lowest : Bool) (c : Circuit) (s : Span)
    (run : FreeAddMonoid (Bool × Bool)) : Prop :=
  (c.Settled D s.generate ∧ c.value input s.generate = spanCarry run.toList.reverse) ∧
  (lowest = false → Exclusive run.toList.reverse ∧ c.Settled D s.propagate ∧
    c.value input s.propagate = spanPropagate run.toList.reverse)

/-- The run of single positions. -/
theorem toList_sum_map_of (bits : List (Bool × Bool)) :
    (bits.map FreeAddMonoid.of).sum.toList = bits := by
  rw [FreeAddMonoid.toList_sum, List.map_map, ← List.flatMap_def]
  exact List.flatMap_singleton' bits

namespace Build

variable {c c' : Circuit} {input : Valuation} {D : Set Wire}

/-! ### The network -/

variable (input) in
/-- A gate on settled wires. -/
theorem gate_settled {kind : GateKind} {x y w : Wire} (hc : c.WellFormed)
    (hD : ∀ w ∈ D, c.Allocated w) (hx : c.Settled D x) (hy : c.Settled D y)
    (h : (gate kind x y).exec c = (.ok w, c')) :
    c.Evolves ∅ c' ∧ c'.Settled D w ∧
      c'.value input w = kind.eval (c.value input x) (c.value input y) := by
  have hw := gate_spec hc h
  exact ⟨hw.toEvolves, hw.settled hD (by simp [hx, hy]), hw.value input⟩

/-- Two neighbouring spans joined, with what follows. -/
theorem joined_spec {hi lo : Span} {skip : Bool} {unused : Wire} {his los : List (Bool × Bool)}
    {α : Type} {f : Wire → Wire → Build α} {a : α} (hc : c.WellFormed) (hD : ∀ w ∈ D, c.Allocated w)
    (hex : Exclusive his)
    (hg : c.Settled D hi.generate ∧ c.value input hi.generate = spanCarry his)
    (hp : c.Settled D hi.propagate ∧ c.value input hi.propagate = spanPropagate his)
    (hg' : c.Settled D lo.generate ∧ c.value input lo.generate = spanCarry los)
    (hp' : skip = false →
      c.Settled D lo.propagate ∧ c.value input lo.propagate = spanPropagate los)
    (h : (gate .and hi.propagate lo.generate >>= fun t => gate .xor hi.generate t >>= fun g =>
      propagateBoth skip unused lo hi >>= fun p => f g p).exec c = (.ok a, c')) :
    ∃ g p c₁, c.Evolves ∅ c₁ ∧
      (c₁.Settled D g ∧ c₁.value input g = spanCarry (his ++ los)) ∧
      (skip = false → c₁.Settled D p ∧ c₁.value input p = spanPropagate (his ++ los)) ∧
      (f g p).exec c₁ = (.ok a, c') := by
  obtain ⟨t, c₁, ht, h⟩ := exec_bind_eq_ok.mp h
  obtain ⟨g, c₂, hgate, h⟩ := exec_bind_eq_ok.mp h
  obtain ⟨p, c₃, hboth, hf⟩ := exec_bind_eq_ok.mp h
  obtain ⟨hev₁, hts, htv⟩ := gate_settled input hc hD hp.1 hg'.1 ht
  obtain ⟨hev₂, hgs, hgv⟩ := gate_settled input hev₁.wellFormed
    (hev₁.all_allocated hD) (hg.1.evolves hev₁) hts hgate
  have hev : c.Evolves ∅ c₂ := hev₁.trans_same hev₂
  have hcarry : c₂.value input g = spanCarry (his ++ los) := by
    rw [hgv, htv, hg.1.value_eq hc hev₁ (Set.empty_subset D), hg.2, hp.2, hg'.2,
      spanCarry_append_xor hex]
    rfl
  cases skip with
  | true =>
    obtain ⟨rfl, rfl⟩ := exec_pure_eq_ok.mp hboth
    exact ⟨g, _, _, hev, ⟨hgs, hcarry⟩, by simp, hf⟩
  | false =>
    obtain ⟨hps', hpv'⟩ := hp' rfl
    obtain ⟨hev₃, hps, hpv⟩ := gate_settled input hev.wellFormed
      (hev.all_allocated hD) (hp.1.evolves hev) (hps'.evolves hev) hboth
    refine ⟨g, p, c₃, hev.trans_same hev₃, ⟨hgs.evolves hev₃, ?_⟩, fun _ => ⟨hps, ?_⟩, hf⟩
    · rw [hgs.value_eq hev.wellFormed hev₃ (Set.empty_subset D), hcarry]
    · rw [hpv, hp.1.value_eq hc hev (Set.empty_subset D), hps'.value_eq hc hev (Set.empty_subset D),
        hp.2, hpv', spanPropagate_append]
      rfl

/-- **A level of the network doubles what the spans cover.** -/
theorem joinStride_spec {d : Nat} (hd : 0 < d) : ∀ {spans out : List Span} {bits : List (Bool × Bool)}
    {c c' : Circuit}, c.WellFormed → (∀ w ∈ D, c.Allocated w) → Covers c input D d spans bits →
    Exclusive bits.dropLast →
    (joinStride spans (spans.drop d) (spans.drop (2 * d))).exec c = (.ok out, c') →
    c.Evolves ∅ c' ∧ Covers c' input D (2 * d) out bits
  | [], out, bits, c, c', hc, _, hcov, _, h => by
    rw [joinStride.eq_2 _ _ _ (by simp)] at h
    obtain ⟨rfl, rfl⟩ := exec_pure_eq_ok.mp h
    cases bits with
    | nil => exact ⟨.refl hc ∅, trivial⟩
    | cons b bits => exact hcov.elim
  | hi :: spans, out, [], c, c', hc, _, hcov, _, h => hcov.elim
  | hi :: spans, out, b :: bits, c, c', hc, hD, hcov, hex, h => by
    have hlen := hcov.length_eq
    cases hlo : (hi :: spans).drop d with
    | nil =>
      -- the spans from here on reach the lowest position already
      rw [hlo, joinStride.eq_2 _ _ _ (by simp)] at h
      obtain ⟨rfl, rfl⟩ := exec_pure_eq_ok.mp h
      have hle : (b :: bits).length ≤ d := hlen ▸ List.drop_eq_nil_iff.mp hlo
      exact ⟨.refl hc ∅, hcov.of_length_le (by omega) hle⟩
    | cons lo los =>
      have hlt : d < (b :: bits).length := by
        rw [← hlen]
        by_contra hle
        rw [List.drop_eq_nil_of_le (Nat.not_lt.mp hle)] at hlo
        cases hlo
      have hlow := hcov.drop d
      rw [hlo] at hlow
      cases hbits : (b :: bits).drop d with
      | nil => rw [hbits] at hlow; exact hlow.elim
      | cons b' bits' =>
        rw [hbits] at hlow
        have hlen' := congrArg List.length hbits
        simp only [List.length_drop, List.length_cons] at hlen hlen' hlt
        obtain ⟨hg, hp, hrest⟩ := hcov
        obtain ⟨hg', hp', -⟩ := hlow
        rw [hlo, joinStride] at h
        obtain ⟨g, p, c₁, hev, hgj, hpj, h⟩ := joined_spec hc hD (hex.take (by simpa using hlt)) hg
          (hp (by omega)) hg' (fun hs => hp' (by simp at hs; omega)) h
        obtain ⟨rest, c₂, hjoin, h⟩ := exec_bind_eq_ok.mp h
        obtain ⟨rfl, rfl⟩ := exec_pure_eq_ok.mp h
        have hlos : los = spans.drop d := by
          have htail := congrArg List.tail hlo
          rwa [List.tail_drop, List.drop_succ_cons, eq_comm] at htail
        rw [hlos, List.tail_drop, List.drop_succ_cons] at hjoin
        obtain ⟨hev', hcov'⟩ := joinStride_spec hd hev.wellFormed
          (hev.all_allocated hD) (hrest.evolves hc hev (Set.empty_subset D)) hex.tail hjoin
        have hsplit : (b :: bits).take (2 * d) = (b :: bits).take d ++ (b' :: bits').take d := by
          rw [two_mul, List.take_add, hbits]
        refine ⟨hev.trans_same hev', ?_, fun hle => ?_, hcov'⟩
        · rw [hsplit, hgj.1.value_eq hev.wellFormed hev' (Set.empty_subset D)]
          exact ⟨hgj.1.evolves hev', hgj.2⟩
        · obtain ⟨hps, hpv⟩ := hpj (by simp; omega)
          rw [hsplit, hps.value_eq hev.wellFormed hev' (Set.empty_subset D)]
          exact ⟨hps.evolves hev', hpv⟩

/-- The levels of the network, from the stride that is covered up. -/
theorem joinStrides_spec {n : Nat} {bits : List (Bool × Bool)} (hex : Exclusive bits.dropLast) :
    ∀ {d : Nat} {spans out : List Span} {c c' : Circuit}, 0 < d →
    c.WellFormed → (∀ w ∈ D, c.Allocated w) → Covers c input D d spans bits →
    ((strides n d).foldlM (fun top d => joinStride top (top.drop d) (top.drop (2 * d))) spans).exec c =
      (.ok out, c') →
    c.Evolves ∅ c' ∧ ∃ d', n ≤ d' ∧ Covers c' input D d' out bits := by
  intro d
  fun_induction strides n d with
  | case1 d hd ih =>
    intro spans out c c' _ hc hD hcov h
    rw [List.foldlM_cons] at h
    obtain ⟨joined, c₁, hjoin, h⟩ := exec_bind_eq_ok.mp h
    obtain ⟨hev, hcov₁⟩ := joinStride_spec hd.1 hc hD hcov hex hjoin
    obtain ⟨hev', hcov'⟩ := ih (by omega) hev.wellFormed (hev.all_allocated hD) hcov₁ h
    exact ⟨hev.trans_same hev', hcov'⟩
  | case2 d hd =>
    intro spans out c c' hpos hc hD hcov h
    obtain ⟨rfl, rfl⟩ := exec_pure_eq_ok.mp h
    exact ⟨.refl hc ∅, d, by omega, hcov⟩

/-- Each position on its own. -/
theorem covers_one : ∀ {spans : List Span} {bits : List (Bool × Bool)},
    c.Signals input D (spans.map Span.generate) (bits.map Prod.fst) →
    c.Signals input D (spans.map Span.propagate) (bits.map Prod.snd) →
    Covers c input D 1 spans bits
  | [], [], _, _ => trivial
  | [], _ :: _, hg, _ => by cases hg.values
  | _ :: _, [], hg, _ => by cases hg.values
  | s :: spans, b :: bits, hg, hp => by
    obtain ⟨⟨hgs, hgv⟩, hg⟩ := Circuit.signals_cons.mp hg
    obtain ⟨⟨hps, hpv⟩, hp⟩ := Circuit.signals_cons.mp hp
    refine ⟨⟨hgs, ?_⟩, fun _ => ⟨hps, ?_⟩, covers_one hg hp⟩
    · simp [spanCarry, hgv]
    · simp [spanPropagate, hpv]

theorem signals_reverse {ws : Bundle} {bs : List Bool} (h : c.Signals input D ws bs) :
    c.Signals input D ws.reverse bs.reverse :=
  ⟨fun w hw => h.settled w (List.mem_reverse.mp hw), by rw [List.map_reverse, h.values]⟩

/-- **The network gives the carry out of every position**, whatever the positions generate and
propagate, as long as only the lowest one does both. -/
theorem koggeStone_carries {spans : List Span} {carries : Bundle} {bits : List (Bool × Bool)}
    (hc : c.WellFormed) (hD : ∀ w ∈ D, c.Allocated w) (hex : Exclusive bits.reverse.dropLast)
    (hg : c.Signals input D (spans.map Span.generate) (bits.map Prod.fst))
    (hp : c.Signals input D (spans.map Span.propagate) (bits.map Prod.snd))
    (h : (koggeStone spans).exec c = (.ok carries, c')) :
    c.Evolves ∅ c' ∧ c'.Signals input D carries (carriesDown bits.reverse).reverse := by
  have hcov : Covers c input D 1 spans.reverse bits.reverse := by
    refine covers_one ?_ ?_
    · rw [List.map_reverse, List.map_reverse]
      exact signals_reverse hg
    · rw [List.map_reverse, List.map_reverse]
      exact signals_reverse hp
  unfold koggeStone at h
  obtain ⟨top, c₁, hstrides, h⟩ := exec_bind_eq_ok.mp h
  obtain ⟨rfl, rfl⟩ := exec_pure_eq_ok.mp h
  have hlen : bits.reverse.length = spans.length := by
    rw [← hcov.length_eq, List.length_reverse]
  obtain ⟨hev, d, hd, hcov'⟩ := joinStrides_spec hex Nat.zero_lt_one hc hD hcov hstrides
  refine ⟨hev, ?_⟩
  rw [List.map_reverse]
  exact signals_reverse (hcov'.signals (hlen ▸ hd))

/-- The network on columns of bits. -/
theorem koggeStone_spec {spans : List Span} {carries : Bundle} {cin : Bool} {columns : List (Bool × Bool)}
    (hc : c.WellFormed) (hD : ∀ w ∈ D, c.Allocated w)
    (hg : c.Signals input D (spans.map Span.generate) ((spanBits cin columns).map Prod.fst))
    (hp : c.Signals input D (spans.map Span.propagate) ((spanBits cin columns).map Prod.snd))
    (h : (koggeStone spans).exec c = (.ok carries, c')) :
    c.Evolves ∅ c' ∧ c'.Signals input D carries (columnCarries cin columns) := by
  rw [← carriesDown_reverse_spanBits]
  exact koggeStone_carries hc hD (exclusive_spanBits cin columns) hg hp h

/-! ### The tree -/

variable (input D) in
/-- **Spans are joined so that their runs are put together.** -/
theorem joinSpans_joins : JoinsAmounts D (Span.Says input D) (fun _ => 0) joinSpans where
  kept hc hspan hev := by
    obtain ⟨⟨hg, hgv⟩, hp⟩ := hspan
    refine ⟨⟨hg.evolves hev, by rw [hg.value_eq hc hev subset_rfl, hgv]⟩, fun hl => ?_⟩
    obtain ⟨hex, hps, hpv⟩ := hp hl
    exact ⟨hex, hps.evolves hev, by rw [hps.value_eq hc hev subset_rfl, hpv]⟩
  joined := by
    rintro lowest lo hi p x y c c' hc hD ⟨hg, hp⟩ ⟨hg', hp'⟩ h
    obtain ⟨hex', hp'⟩ := hp' rfl
    obtain ⟨g, p, c₁, hev, hgj, hpj, h⟩ := joined_spec hc hD hex' hg' hp' hg
      (fun hl => (hp hl).2) h
    obtain ⟨rfl, rfl⟩ := exec_pure_eq_ok.mp h
    have hrun : (x + y).toList.reverse = y.toList.reverse ++ x.toList.reverse := by
      rw [FreeAddMonoid.toList_add, List.reverse_append]
    refine ⟨hev.of_empty D, ⟨hrun ▸ hgj, fun hl => hrun ▸ ⟨?_, hpj hl⟩⟩, rfl⟩
    intro s hs
    rcases List.mem_append.mp hs with hs | hs
    · exact hex' s hs
    · exact (hp hl).1 s hs

/-- Each position above the lowest one on its own. -/
theorem forall₂_single : ∀ {spans : List Span} {bits : List (Bool × Bool)}, Exclusive bits →
    c.Signals input D (spans.map Span.generate) (bits.map Prod.fst) →
    c.Signals input D (spans.map Span.propagate) (bits.map Prod.snd) →
    List.Forall₂ (Span.Says input D false c) spans (bits.map FreeAddMonoid.of)
  | [], [], _, _, _ => .nil
  | [], _ :: _, _, hg, _ => by cases hg.values
  | _ :: _, [], _, hg, _ => by cases hg.values
  | s :: spans, b :: bits, hex, hg, hp => by
    obtain ⟨hb, hex⟩ := List.forall_mem_cons.mp hex
    obtain ⟨⟨hgs, hgv⟩, hg⟩ := Circuit.signals_cons.mp hg
    obtain ⟨⟨hps, hpv⟩, hp⟩ := Circuit.signals_cons.mp hp
    refine .cons ⟨⟨hgs, ?_⟩, fun _ => ⟨?_, hps, ?_⟩⟩ (forall₂_single hex hg hp)
    · simp [spanCarry, hgv]
    · simpa [Exclusive] using hb
    · simp [spanPropagate, hpv]

/-- **The tree gives the carry out of all positions**, under the same condition. -/
theorem topCarry_carry {spans : List Span} {w : Wire} {bits : List (Bool × Bool)}
    (hc : c.WellFormed) (hD : ∀ w ∈ D, c.Allocated w) (hex : Exclusive bits.reverse.dropLast)
    (hg : c.Signals input D (spans.map Span.generate) (bits.map Prod.fst))
    (hp : c.Signals input D (spans.map Span.propagate) (bits.map Prod.snd))
    (h : (topCarry spans).exec c = (.ok w, c')) :
    c.Evolves D c' ∧ c'.Settled D w ∧
      (carriesDown bits.reverse).head? = some (c'.value input w) := by
  unfold topCarry at h
  obtain ⟨top, c₁, hreduce, h⟩ := exec_bind_eq_ok.mp h
  obtain ⟨rfl, rfl⟩ := exec_pure_eq_ok.mp h
  cases spans with
  | nil => exact (exec_throw_eq_ok.mp hreduce).elim
  | cons first rest =>
    cases bits with
    | nil => cases hg.values
    | cons lowest upper =>
      rw [List.dropLast_reverse, List.tail_cons] at hex
      obtain ⟨⟨hgs, hgv⟩, hg⟩ := Circuit.signals_cons.mp hg
      obtain ⟨-, hp⟩ := Circuit.signals_cons.mp hp
      have hfirst : first.Says input D true c (FreeAddMonoid.of lowest) :=
        ⟨⟨hgs, by simp [spanCarry, hgv]⟩, by simp⟩
      obtain ⟨hev, ⟨⟨hs, hv⟩, -⟩, -⟩ := (joinSpans_joins input D).reduce_spec hc hD hfirst
        (forall₂_single (fun s hs => hex s (List.mem_reverse.mpr hs)) hg hp) hreduce
      refine ⟨hev, hs, ?_⟩
      rw [head?_carriesDown (by simp), hv, FreeAddMonoid.toList_add, toList_sum_map_of]
      rfl

/-- The tree on columns of bits. -/
theorem topCarry_spec {spans : List Span} {w : Wire} {cin : Bool} {columns : List (Bool × Bool)}
    (hc : c.WellFormed) (hD : ∀ w ∈ D, c.Allocated w)
    (hg : c.Signals input D (spans.map Span.generate) ((spanBits cin columns).map Prod.fst))
    (hp : c.Signals input D (spans.map Span.propagate) ((spanBits cin columns).map Prod.snd))
    (h : (topCarry spans).exec c = (.ok w, c')) :
    c.Evolves D c' ∧ c'.Settled D w ∧
      (columnCarries cin columns).getLast? = some (c'.value input w) := by
  rw [← carriesDown_reverse_spanBits, List.getLast?_reverse]
  exact topCarry_carry hc hD (exclusive_spanBits cin columns) hg hp h

/-! ### The adder -/

variable (input) in
theorem addend_spec {dir : Direction} {y y' : Bundle} {ys : List Bool} (hc : c.WellFormed)
    (hD : ∀ w ∈ D, c.Allocated w) (hy : c.Signals input D y ys)
    (h : (addend dir y).exec c = (.ok y', c')) :
    c.Evolves ∅ c' ∧ c'.Signals input D y' (ys.map dir.addend) := by
  cases dir with
  | addition =>
    obtain ⟨rfl, rfl⟩ := exec_pure_eq_ok.mp h
    have hid : ys.map Direction.addition.addend = ys := List.map_id ys
    exact ⟨.refl hc ∅, hid.symm ▸ hy⟩
  | subtraction =>
    obtain ⟨hev, hs⟩ := mapM_inv_spec input hc hD hy.settled h
    refine ⟨hev, ?_⟩
    rw [← hy.values, List.map_map]
    exact hs

/-- The bits on a list of pairs of wires. -/
def pairBits (v : Valuation) (columns : List (Wire × Wire)) : List (Bool × Bool) :=
  columns.map fun q => (v q.1, v q.2)

theorem pairBits_zip (v : Valuation) (x y : Bundle) :
    pairBits v (x.zip y) = (x.map v).zip (y.map v) := by
  rw [pairBits, List.zip_map]
  rfl

theorem eq_nil_of_signals {ws : Bundle} (h : c.Signals input D ws []) : ws = [] :=
  List.length_eq_zero_iff.mp h.length_eq

variable (input) in
theorem generateBits_spec {dir : Direction} {columns : List (Wire × Wire)} {g : Bundle}
    (hc : c.WellFormed) (hD : ∀ w ∈ D, c.Allocated w)
    (hcol : ∀ q ∈ columns, c.Settled D q.1 ∧ c.Settled D q.2)
    (h : (generateBits dir columns).exec c = (.ok g, c')) :
    c.Evolves ∅ c' ∧ c'.Signals input D g
      ((spanBits dir.carryIn (pairBits (c.value input) columns.dropLast)).map Prod.fst) := by
  unfold generateBits at h
  obtain ⟨ands, c₁, hands, h⟩ := exec_bind_eq_ok.mp h
  obtain ⟨hev, hs⟩ := mapM_gate_spec input hc hD (fun q hq => hcol q (List.dropLast_subset _ hq)) hands
  match columns, ands, hs with
  | [], ands, hs =>
    rw [eq_nil_of_signals hs] at h
    cases dir <;> obtain ⟨rfl, rfl⟩ := exec_pure_eq_ok.mp h <;> exact ⟨hev, Circuit.signals_nil⟩
  | [q], ands, hs =>
    rw [eq_nil_of_signals hs] at h
    cases dir <;> obtain ⟨rfl, rfl⟩ := exec_pure_eq_ok.mp h <;> exact ⟨hev, Circuit.signals_nil⟩
  | q :: q' :: columns, [], hs => cases hs.values
  | q :: q' :: columns, w :: ws, hs =>
    obtain ⟨⟨hw, hwv⟩, hws⟩ := Circuit.signals_cons.mp hs
    have hrest : c₁.Signals input D ws (((pairBits (c.value input) (q' :: columns).dropLast).map
        fun q => (q.1 && q.2, q.1 ^^ q.2)).map Prod.fst) := by
      rw [pairBits, List.map_map, List.map_map]
      exact hws
    cases dir with
    | addition =>
      obtain ⟨rfl, rfl⟩ := exec_pure_eq_ok.mp h
      refine ⟨hev, Circuit.signals_cons.mpr ⟨⟨hw, ?_⟩, hrest⟩⟩
      rw [hwv]
      simp [Direction.carryIn, GateKind.eval]
    | subtraction =>
      -- the carry that comes in makes the lowest position generate if one of its bits is set
      obtain ⟨o, c₂, hor, h⟩ := exec_bind_eq_ok.mp h
      obtain ⟨rfl, rfl⟩ := exec_pure_eq_ok.mp h
      obtain ⟨hq, hq'⟩ := hcol q List.mem_cons_self
      obtain ⟨hev₂, ho, hov⟩ := gate_settled input hev.wellFormed
        (hev.all_allocated hD) (hq.evolves hev) (hq'.evolves hev) hor
      refine ⟨hev.trans_same hev₂, Circuit.signals_cons.mpr ⟨⟨ho, ?_⟩, ?_⟩⟩
      · rw [hov, hq.value_eq hc hev (Set.empty_subset D), hq'.value_eq hc hev (Set.empty_subset D)]
        simp [Direction.carryIn, GateKind.eval]
      · exact hrest.evolves hev.wellFormed hev₂ (Set.empty_subset D)

theorem map_snd_spanBits (carry : Bool) (columns : List (Bool × Bool)) :
    (spanBits carry columns).map Prod.snd = columns.map fun q => q.1 ^^ q.2 := by
  cases columns with
  | nil => rfl
  | cons q columns => simp [spanBits]

variable (input) in
/-- The upper sum bits are the partial sums and the carries from below. -/
theorem driveAllUpper_spec {p out : Bundle} {spans : List Span} {cin : Bool}
    {bits : List (Bool × Bool)} {u : Unit} (hc : c.WellFormed) (hD : ∀ w ∈ D, c.Allocated w)
    (hout : ∀ w ∈ out, w ∈ D) (hnd : out.Nodup)
    (hp : c.Signals input D p (bits.map fun q => q.1 ^^ q.2))
    (hgs : c.Signals input D (spans.map Span.generate) ((spanBits cin bits.dropLast).map Prod.fst))
    (hps : c.Signals input D (spans.map Span.propagate) ((spanBits cin bits.dropLast).map Prod.snd))
    (h : (driveUpper p spans (.all out)).exec c = (.ok u, c')) :
    c.Evolves {w | w ∈ out.tail} c' ∧ out.tail.map (c'.value input) =
      List.zipWith (· ^^ ·) (bits.map fun q => q.1 ^^ q.2).tail (columnCarries cin bits.dropLast) := by
  unfold driveUpper at h
  obtain ⟨carries, c₁, hcarries, h⟩ := exec_bind_eq_ok.mp h
  obtain ⟨pc, hpc, h⟩ := exec_check_bind.mp h
  obtain ⟨l, hl, h⟩ := exec_check_bind.mp h
  obtain ⟨hlen₁, rfl⟩ := inStep_eq_ok.mp hpc
  obtain ⟨hlen₂, rfl⟩ := inStep_eq_ok.mp hl
  obtain ⟨hev, hs⟩ := koggeStone_spec hc hD hgs hps hcarries
  have hp₁ := hp.evolves hc hev (Set.empty_subset D)
  have hsnd : ((p.tail.zip carries).zip out.tail).map Prod.snd = out.tail :=
    List.map_snd_zip (Nat.le_of_eq hlen₂.symm)
  obtain ⟨hev', hvals⟩ := forM_gateTo_spec (D := D) input hev.wellFormed
    (hsnd.symm ▸ hnd.sublist (List.tail_sublist out))
    (fun q hq => hout _ (List.mem_of_mem_tail (List.of_mem_zip hq).2))
    (fun q hq => by
      obtain ⟨hq₁, hq₂⟩ := List.of_mem_zip (List.of_mem_zip hq).1
      exact ⟨hp₁.settled _ (List.mem_of_mem_tail hq₁), hs.settled _ hq₂⟩) h
  rw [hsnd] at hev' hvals
  refine ⟨(hev.of_empty _).trans_same hev', ?_⟩
  calc
    _ = (((p.tail.zip carries).zip out.tail).map Prod.fst).map
        fun q => GateKind.xor.eval (c₁.value input q.1) (c₁.value input q.2) := by
      rw [hvals, List.map_map]
      rfl
    _ = List.zipWith (· ^^ ·) (p.tail.map (c₁.value input)) (carries.map (c₁.value input)) := by
      rw [List.map_fst_zip (Nat.le_of_eq hlen₂), List.zipWith_map, List.map_zip_eq_zipWith]
      rfl
    _ = _ := by
      rw [List.map_tail, hp₁.values, hs.values]

variable (input) in
/-- The highest sum bit is its partial sum and the carry out of all positions below. -/
theorem driveHighest_spec {p : Bundle} {out : Wire} {spans : List Span} {cin : Bool} {position : Nat}
    {bits : List (Bool × Bool)} {u : Unit} (hc : c.WellFormed) (hD : ∀ w ∈ D, c.Allocated w)
    (hout : out ∈ D) (hlen : bits.length = position + 2)
    (hp : c.Signals input D p (bits.map fun q => q.1 ^^ q.2))
    (hgs : c.Signals input D (spans.map Span.generate) ((spanBits cin bits.dropLast).map Prod.fst))
    (hps : c.Signals input D (spans.map Span.propagate) ((spanBits cin bits.dropLast).map Prod.snd))
    (h : (driveUpper p spans (.bit (position + 1) out)).exec c = (.ok u, c')) :
    c.Evolves D c' ∧ c'.Delivers input (Sink.bit position out).targets
      (List.zipWith (· ^^ ·) (bits.map fun q => q.1 ^^ q.2).tail (columnCarries cin bits.dropLast)) := by
  unfold driveUpper at h
  obtain ⟨carry, c₁, hcarry, h⟩ := exec_bind_eq_ok.mp h
  obtain ⟨top, htop, h⟩ := exec_check_bind.mp h
  obtain ⟨hev, -, hv⟩ := topCarry_spec hc hD hgs hps hcarry
  have hset := gateTo_spec hev.wellFormed h
  have hp₁ := hp.evolves hc hev subset_rfl
  have hcarries : (columnCarries cin bits.dropLast).length = position + 1 := by
    rw [length_columnCarries, List.length_dropLast, hlen]
    rfl
  have hpartial : (bits.map fun q => q.1 ^^ q.2)[position + 1]? = some (c₁.value input top) := by
    rw [← hp₁.values, List.getElem?_map, wireAt_eq_ok.mp htop]
    rfl
  have hsums : (List.zipWith (· ^^ ·) (bits.map fun q => q.1 ^^ q.2).tail
      (columnCarries cin bits.dropLast)).length = position + 1 := by
    rw [List.length_zipWith, List.length_tail, List.length_map, hlen, hcarries]
    omega
  rw [List.getLast?_eq_getElem?, hcarries, Nat.add_sub_cancel] at hv
  refine ⟨hev.trans_same (hset.toEvolves.mono (Set.singleton_subset_iff.mpr hout)),
    Circuit.delivers_bit.mpr ⟨hsums, ?_⟩⟩
  rw [List.getLast?_eq_getElem?, hsums, Nat.add_sub_cancel, List.getElem?_zipWith, List.getElem?_tail,
    hpartial, hv, hset.value]
  rfl

variable (input) in
theorem driveUpper_spec {sink : Sink} {p g : Bundle} {spans : List (Wire × Wire)} {cin : Bool}
    {bits : List (Bool × Bool)} {u : Unit} (hc : c.WellFormed)
    (hD : ∀ w ∈ {w | w ∈ sink.wires}, c.Allocated w) (hnd : sink.wires.Nodup)
    (hlen : bits.length = sink.targets.length)
    (hp : c.Signals input {w | w ∈ sink.wires} p (bits.map fun q => q.1 ^^ q.2))
    (hg : c.Signals input {w | w ∈ sink.wires} g ((spanBits cin bits.dropLast).map Prod.fst))
    (hspans : inStep g p.dropLast = .ok spans)
    (h : (driveUpper p (spans.map fun (g, p) => ⟨g, p⟩) sink).exec c = (.ok u, c')) :
    c.Evolves {w | some w ∈ sink.targets.tail} c' ∧ c'.Delivers input sink.targets.tail
      (List.zipWith (· ^^ ·) (bits.map fun q => q.1 ^^ q.2).tail (columnCarries cin bits.dropLast)) := by
  obtain ⟨hlen', rfl⟩ := inStep_eq_ok.mp hspans
  have hgs : c.Signals input {w | w ∈ sink.wires}
      (((g.zip p.dropLast).map fun (g, p) => (⟨g, p⟩ : Span)).map Span.generate)
      ((spanBits cin bits.dropLast).map Prod.fst) := by
    rw [List.map_map]
    exact (List.map_fst_zip (Nat.le_of_eq hlen')).symm ▸ hg
  have hps : c.Signals input {w | w ∈ sink.wires}
      (((g.zip p.dropLast).map fun (g, p) => (⟨g, p⟩ : Span)).map Span.propagate)
      ((spanBits cin bits.dropLast).map Prod.snd) := by
    rw [List.map_map]
    refine (List.map_snd_zip (Nat.le_of_eq hlen'.symm)).symm ▸
      ⟨fun w hw => hp.settled w (List.dropLast_subset _ hw), ?_⟩
    rw [map_snd_spanBits, List.map_dropLast, hp.values, List.map_dropLast]
  cases sink with
  | all out =>
    obtain ⟨hev, hvals⟩ := driveAllUpper_spec input hc hD (fun w hw => hw) hnd hp hgs hps h
    rw [← hvals, Sink.targets, ← List.map_tail]
    exact ⟨hev.mono fun w hw => List.mem_map_of_mem hw, c'.delivers_map_some input out.tail⟩
  | bit position out =>
    cases position with
    | zero =>
      obtain ⟨-, rfl⟩ := exec_pure_eq_ok.mp h
      obtain ⟨q, rfl⟩ := List.length_eq_one_iff.mp hlen
      exact ⟨.refl hc _, .nil⟩
    | succ position =>
      obtain ⟨hev, hbits⟩ := driveHighest_spec input hc hD List.mem_cons_self
        (by simpa [Sink.targets] using hlen) hp hgs hps h
      exact ⟨hev.mono (by simp [Sink.wires, Sink.targets, List.replicate_succ]), hbits⟩

variable (input) in
/-- The lowest sum bit has the carry into it built in. -/
theorem driveLowest_spec {dir : Direction} {target : Option Wire} {targets : List (Option Wire)}
    {p : Wire} {ps : Bundle} {u : Unit} (hc : c.WellFormed)
    (h : (driveLowest dir (target :: targets) (p :: ps)).exec c = (.ok u, c')) :
    c.Evolves {w | target = some w} c' ∧ ∀ out ∈ target, c'.Allocated out ∧
      c'.value input out = (c.value input p ^^ dir.carryIn) := by
  cases target with
  | none =>
    obtain ⟨-, rfl⟩ := exec_pure_eq_ok.mp h
    exact ⟨.refl hc _, by simp⟩
  | some out =>
    have hset : c.Sets {out} c' out fun v => v p ^^ dir.carryIn := by
      cases dir with
      | addition => exact (copyTo_spec hc h).congr fun v => by simp [Direction.carryIn]
      | subtraction => exact (invTo_spec hc h).congr fun v => by simp [Direction.carryIn]
    refine ⟨hset.toEvolves.mono fun w hw => ?_, fun w hw => ?_⟩
    · exact congrArg some (Set.mem_singleton_iff.mp hw).symm
    · cases hw
      exact ⟨hset.readable.allocated, hset.value input⟩

variable (input) in
/-- What the columns propagate and generate. -/
theorem columnSpans_spec {dir : Direction} {columns : List (Wire × Wire)} {p g : Bundle} {c₁ : Circuit}
    (hc : c.WellFormed) (hD : ∀ w ∈ D, c.Allocated w)
    (hset : ∀ q ∈ columns, c.Settled D q.1 ∧ c.Settled D q.2)
    (hp : (columns.mapM fun (x, y) => gate .xor x y).exec c = (.ok p, c₁))
    (hg : (generateBits dir columns).exec c₁ = (.ok g, c')) :
    c.Evolves ∅ c' ∧
      c'.Signals input D p ((pairBits (c.value input) columns).map fun q => q.1 ^^ q.2) ∧
      c'.Signals input D g
        ((spanBits dir.carryIn (pairBits (c.value input) columns).dropLast).map Prod.fst) := by
  obtain ⟨hev₁, hsp⟩ := mapM_gate_spec input hc hD hset hp
  obtain ⟨hev₂, hsg⟩ := generateBits_spec input hev₁.wellFormed (hev₁.all_allocated hD)
    (fun q hq => (hset q hq).imp (·.evolves hev₁) (·.evolves hev₁)) hg
  have hsame : pairBits (c₁.value input) columns.dropLast =
      (pairBits (c.value input) columns).dropLast := by
    rw [pairBits, pairBits, ← List.map_dropLast]
    refine List.map_congr_left fun q hq => ?_
    obtain ⟨hx, hy⟩ := hset q (List.dropLast_subset _ hq)
    rw [hx.value_eq hc hev₁ (Set.empty_subset _), hy.value_eq hc hev₁ (Set.empty_subset _)]
  have hpair : (columns.map fun q => GateKind.xor.eval (c.value input q.1) (c.value input q.2)) =
      (pairBits (c.value input) columns).map fun q => q.1 ^^ q.2 := by
    rw [pairBits, List.map_map]
    rfl
  exact ⟨hev₁.trans_same hev₂, hpair ▸ hsp.evolves hev₁.wellFormed hev₂ (Set.empty_subset _),
    hsame ▸ hsg⟩

variable (input) in
/-- The adder from its columns on. -/
theorem lookaheadColumns_spec {dir : Direction} {columns : List (Wire × Wire)} {sink : Sink} {u : Unit}
    (hc : c.WellFormed) (hD : ∀ w ∈ {w | w ∈ sink.wires}, c.Allocated w) (hnd : sink.wires.Nodup)
    (hset : ∀ q ∈ columns, c.Settled {w | w ∈ sink.wires} q.1 ∧ c.Settled {w | w ∈ sink.wires} q.2)
    (hlen : columns.length = sink.targets.length)
    (h : (columns.mapM (fun (x, y) => gate .xor x y) >>= fun p => generateBits dir columns >>= fun g =>
      driveLowest dir sink.targets p >>= fun _ => liftM (inStep g p.dropLast) >>= fun spans =>
      driveUpper p (spans.map fun (g, p) => ⟨g, p⟩) sink).exec c = (.ok u, c')) :
    c'.Delivers input sink.targets (addBits dir.carryIn (pairBits (c.value input) columns)) := by
  obtain ⟨p, c₁, hp, h⟩ := exec_bind_eq_ok.mp h
  obtain ⟨g, c₂, hg, h⟩ := exec_bind_eq_ok.mp h
  obtain ⟨u₁, c₃, hlowest, h⟩ := exec_bind_eq_ok.mp h
  obtain ⟨spans, hspans, h⟩ := exec_check_bind.mp h
  obtain ⟨hev, hsp, hsg⟩ := columnSpans_spec input hc hD hset hp hg
  rw [addBits_eq_zipWith]
  have hbits : (pairBits (c.value input) columns).length = sink.targets.length := by
    rw [← hlen, pairBits, List.length_map]
  generalize pairBits (c.value input) columns = bits at *
  -- the lowest bit is driven on its own, then the upper ones
  cases htargets : sink.targets with
  | nil =>
    rw [htargets] at hlowest
    exact (exec_throw_eq_ok.mp hlowest).elim
  | cons target targets =>
    cases p with
    | nil =>
      rw [htargets] at hlowest
      cases target <;> exact (exec_throw_eq_ok.mp hlowest).elim
    | cons p ps =>
      rw [htargets] at hlowest
      obtain ⟨hevl, hlow⟩ := driveLowest_spec input hev.wellFormed hlowest
      have hsub : {w | target = some w} ⊆ {w | w ∈ sink.wires} := fun w hw =>
        some_mem_targets.mp (htargets ▸ hw ▸ List.mem_cons_self)
      obtain ⟨hevu, hupper⟩ := driveUpper_spec input hevl.wellFormed
        (hevl.all_allocated (hev.all_allocated hD)) hnd hbits
        (hsp.evolves hev.wellFormed hevl hsub) (hsg.evolves hev.wellFormed hevl hsub) hspans h
      have hdistinct := targetsDistinct_targets hnd
      rw [htargets] at hevu hupper hdistinct
      cases bits with
      | nil => cases hsp.values
      | cons b bits =>
        obtain ⟨hb, -⟩ := List.cons.inj hsp.values
        refine .cons (fun out hout => ?_) hupper
        obtain ⟨halloc, hvalue⟩ := hlow out hout
        have hkept : c'.value input out = c₃.value input out :=
          hevu.value_eq hevl.wellFormed halloc fun hm =>
            (List.pairwise_cons.mp hdistinct).1 _ hm out hout rfl
        rw [hkept, hvalue, hb]

variable (input) in
/-- **The carry-lookahead adder adds and subtracts**, in any circuit and to any width. -/
theorem lookahead_spec {a b : Bundle} {sink : Sink} {enc : Encoding} {dir : Direction} {u : Unit}
    (hc : c.WellFormed) (ha : ∀ w ∈ a ++ b ++ sink.wires, c.Allocated w)
    (hdisjoint : ∀ w ∈ sink.wires, w ∉ a ∧ w ∉ b) (hnd : sink.wires.Nodup)
    (h : (lookahead a b sink enc dir).exec c = (.ok u, c')) :
    ∃ width, sink.width = .ok width ∧ c'.Delivers input sink.targets
      (addSubBits dir ((enc.resize width (a.map (c.value input))).zip
        (enc.resize width (b.map (c.value input))))) := by
  simp only [List.forall_mem_append] at ha
  obtain ⟨⟨haa, hab⟩, hasink⟩ := ha
  unfold lookahead at h
  obtain ⟨width, hwidth, h⟩ := exec_check_bind.mp h
  obtain ⟨x, c₁, hx, h⟩ := exec_bind_eq_ok.mp h
  obtain ⟨y, c₂, hy, h⟩ := exec_bind_eq_ok.mp h
  obtain ⟨y', c₃, hy', h⟩ := exec_bind_eq_ok.mp h
  obtain ⟨columns, hcolumns, h⟩ := exec_check_bind.mp h
  obtain ⟨hlen, rfl⟩ := inStep_eq_ok.mp hcolumns
  refine ⟨width, hwidth, ?_⟩
  obtain ⟨hev₂, hsx, hsy⟩ := extend_both_spec input (D := {w | w ∈ sink.wires}) hc hasink
    (Circuit.signals_self haa fun w hw hm => (hdisjoint w hm).1 hw)
    (Circuit.signals_self hab fun w hw hm => (hdisjoint w hm).2 hw) hx hy
  obtain ⟨hev₃, hsy'⟩ := addend_spec input hev₂.wellFormed (hev₂.all_allocated hasink) hsy hy'
  have hsx := hsx.evolves hev₂.wellFormed hev₃ (Set.empty_subset _)
  have hcount : (x.zip y').length = sink.targets.length := by
    rw [List.length_zip, ← hlen, Nat.min_self, hsx.length_eq, length_resize, Sink.length_targets hwidth]
  have hdel := lookaheadColumns_spec input hev₃.wellFormed
    (hev₃.all_allocated (hev₂.all_allocated hasink)) hnd
    (fun q hq => ⟨hsx.settled _ (List.of_mem_zip hq).1, hsy'.settled _ (List.of_mem_zip hq).2⟩) hcount h
  rwa [pairBits_zip, hsx.values, hsy'.values, List.zip_map_right] at hdel

end Build
end BitCircuit
