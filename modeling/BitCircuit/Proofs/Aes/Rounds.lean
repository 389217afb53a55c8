/-
# The rounds in a circuit

Each operation of a round, on a bundle that carries the bits of a state, gives a bundle that
carries the bits of the state after it: the substitution of all bytes with the turned rows, the
mixed columns, the sum with a round key. Rounds in a row are those of the cipher
(`Build.encrypt_yields`).

Key theorems: `Build.mixColumns_yields`, `Build.substituteAndShift_yields`,
`Build.innerRound_yields`, `Build.lastRound_yields`, `Build.encrypt_yields`.
-/
import BitCircuit.Proofs.Aes.Network
import BitCircuit.Proofs.Aes.Standard

namespace BitCircuit

variable {c : Circuit} {input : Valuation} {D : Set Wire}

/-! ### Bytes of bundles -/

theorem Circuit.Live.block {ws : Bundle} {bs : List Bool} (h : c.Live input D ws bs) (j : Nat) :
    c.Live input D (block ws j) (block bs j) :=
  (h.take _).drop _

theorem Circuit.Vacant.block {out : Bundle} (h : c.Vacant D out) (j : Nat) :
    c.Vacant D (block out j) :=
  h.sublist ((List.drop_sublist _ _).trans (List.take_sublist _ _))

namespace Build

open Aes Bytes

theorem byteAt_eq_ok {ws : Bundle} {j : Nat} (h : 8 * j + 8 ≤ ws.length) :
    byteAt ws j = .ok (block ws j) :=
  slice_eq_ok.mpr ⟨⟨by omega, h⟩, rfl⟩

theorem length_of_state {ws : Bundle} {s : State} (h : c.Live input D ws s.toBits) :
    ws.length = 128 := by
  rw [h.toSignals.length_eq, State.length_toBits]

/-- The bytes of a bundle that carries a state are those of the state. -/
theorem live_byteAt {ws : Bundle} {s : State} {j : Nat} (h : c.Live input D ws s.toBits) (hj : j < 16) :
    byteAt ws j = .ok (block ws j) ∧ c.Live input D (block ws j) (byteBits (s.byte j)) := by
  constructor
  · apply byteAt_eq_ok
    rw [length_of_state h]
    omega
  · rw [← State.block_toBits s hj]
    exact h.block j

/-! ### Sums and doubles -/

theorem xorBundles_yields {a b : Bundle} {as bs : List Bool} (hc : c.WellFormed)
    (hD : ∀ w ∈ D, c.Allocated w) (ha : c.Live input D a as) (hb : c.Live input D b bs)
    (hlen : as.length = bs.length) :
    (xorBundles a b).Yields c fun ws c' =>
      c.Evolves ∅ c' ∧ c'.Live input D ws (List.zipWith xor as bs) := by
  have hwires : a.length = b.length := by
    rw [ha.toSignals.length_eq, hb.toSignals.length_eq, hlen]
  exact .checked (inStep_eq_ok.mpr ⟨hwires, rfl⟩) (mapM_gate_yields rfl hc hD ha hb)

theorem xorBytes_yields {a b : Bundle} {x y : UInt8} (hc : c.WellFormed)
    (hD : ∀ w ∈ D, c.Allocated w) (ha : c.Live input D a (byteBits x))
    (hb : c.Live input D b (byteBits y)) :
    (xorBundles a b).Yields c fun ws c' =>
      c.Evolves ∅ c' ∧ c'.Live input D ws (byteBits (x ^^^ y)) := by
  rw [byteBits_xor]
  exact xorBundles_yields hc hD ha hb (by simp)

theorem doubleByte_yields {a : Bundle} {x : UInt8} (hc : c.WellFormed) (hD : ∀ w ∈ D, c.Allocated w)
    (ha : c.Live input D a (byteBits x)) :
    (doubleByte a).Yields c fun ws c' =>
      c.Evolves ∅ c' ∧ c'.Live input D ws (byteBits (Byte.double x)) := by
  have hlen : a.length = 8 := length_of_byte ha
  rw [Byte.byteBits_double, ← ha.values]
  match a, hlen with
  | [b0, b1, b2, b3, b4, b5, b6, b7], _ =>
    have hbit : ∀ {c' : Circuit}, c.Evolves ∅ c' → ∀ w ∈ [b0, b1, b2, b3, b4, b5, b6, b7],
        c'.Carries input D w (c.value input w) := fun hev w hw =>
      (ha.mem hw).evolves hc hev (Set.empty_subset D)
    refine .bind (gate_yields hc hD rfl (hbit (.refl hc ∅) b0 (by simp)) (hbit (.refl hc ∅) b7 (by simp))) ?_
    rintro d1 c₁ ⟨hev₁, h1⟩
    have hD₁ := hev₁.all_allocated hD
    refine .bind (gate_yields hev₁.wellFormed hD₁ rfl (hbit hev₁ b2 (by simp)) (hbit hev₁ b7 (by simp))) ?_
    rintro d3 c₂ ⟨hev₂, h3⟩
    have hD₂ := hev₂.all_allocated hD₁
    have hev₂' := hev₁.trans_same hev₂
    refine .bind (gate_yields hev₂.wellFormed hD₂ rfl (hbit hev₂' b3 (by simp)) (hbit hev₂' b7 (by simp))) ?_
    rintro d4 c₃ ⟨hev₃, h4⟩
    have hev := hev₂'.trans_same hev₃
    have h1 := h1.evolves hev₁.wellFormed (hev₂.trans_same hev₃) (Set.empty_subset D)
    have h3 := h3.evolves hev₂.wellFormed hev₃ (Set.empty_subset D)
    refine .pure ⟨hev, ?_⟩
    refine .cons (hbit hev b7 (by simp)) <| .cons h1 <| .cons (hbit hev b1 (by simp)) <| .cons h3 <|
      .cons h4 <| .cons (hbit hev b4 (by simp)) <| .cons (hbit hev b5 (by simp)) <|
      .cons (hbit hev b6 (by simp)) .nil

/-! ### Mixed columns -/

/-- Sums of two live bundles, bit by bit. -/
theorem map_xor_zip {a b : Bundle} {as bs : List Bool} (ha : c.Live input D a as)
    (hb : c.Live input D b bs) :
    (a.zip b).map (fun p => c.value input p.1 ^^ c.value input p.2) = List.zipWith xor as bs := by
  rw [List.map_zip_eq_zipWith, ← ha.values, ← hb.values, List.zipWith_map]
  rfl

theorem mixByte_yields {a pair parity out : Bundle} {x p q : UInt8} (hc : c.WellFormed)
    (hD : ∀ w ∈ D, c.Allocated w) (ha : c.Live input D a (byteBits x))
    (hpair : c.Live input D pair (byteBits p)) (hparity : c.Live input D parity (byteBits q))
    (hout : c.Vacant D out) (hlen : out.length = 8) :
    (mixByte a pair parity out).Yields c fun _ c' =>
      c.Drives input out (byteBits (x ^^^ q ^^^ Byte.double p)) c' := by
  refine .bind (doubleByte_yields hc hD hpair) ?_
  rintro doubled c₁ ⟨hev, hdoubled⟩
  have ha := ha.evolves hc hev (Set.empty_subset D)
  have hparity := hparity.evolves hc hev (Set.empty_subset D)
  have halen := length_of_byte ha
  have hplen := length_of_byte hparity
  have hdlen := length_of_byte hdoubled
  refine .checked (inStep_eq_ok.mpr ⟨halen.trans hplen.symm, rfl⟩) ?_
  refine .checked (inStep_eq_ok.mpr ⟨by simp [halen, hplen, hdlen], rfl⟩) ?_
  refine .checked (inStep_eq_ok.mpr ⟨by simp [halen, hplen, hdlen, hlen], rfl⟩) ?_
  have hbits : ((a.zip parity).zip doubled).map (fun t => (c₁.value input t.1.1 ^^ c₁.value input t.1.2) ^^
      c₁.value input t.2) = byteBits (x ^^^ q ^^^ Byte.double p) := by
    rw [byteBits_xor, byteBits_xor, ← map_xor_zip ha hparity, ← hdoubled.values, List.zipWith_map,
      List.map_zip_eq_zipWith]
    rfl
  rw [← hbits]
  refine (forM_zip_drives input _ hev.wellFormed (by simp [halen, hplen, hdlen, hlen])
    (hout.evolves hev) ?_).mono fun _ _ hdrive => .after hev hdrive
  rintro ⟨⟨wa, wp⟩, wd⟩ ht o ho c₂ hev₂
  obtain ⟨hap, hd⟩ := List.of_mem_zip ht
  obtain ⟨hwa, hwp⟩ := List.of_mem_zip hap
  have hcarries := fun {ws : Bundle} {bs : List Bool} {w : Wire} (h : c₁.Live input D ws bs) (hw : w ∈ ws) =>
    (h.mem hw).evolves hev.wellFormed hev₂ subset_rfl
  refine .bind (gate_yields hev₂.wellFormed (hev₂.all_allocated (hev.all_allocated hD)) rfl
    (hcarries ha hwa) (hcarries hparity hwp)) ?_
  rintro w c₃ ⟨hev₃, hw⟩
  refine (gateTo_yields hev₃.wellFormed rfl hw
    ((hcarries hdoubled hd).evolves hev₂.wellFormed hev₃ (Set.empty_subset D))
    (hev₃.writable (hev₂.writable ((hout.evolves hev).writable o ho)))).mono ?_
  exact fun _ _ hdrive => .after hev₃ hdrive

/-- What belongs to the four bytes of a column. -/
def columnOf {α : Type} (f : Nat → List α) (column : Nat) : List α :=
  f (4 * column) ++ f (4 * column + 1) ++ f (4 * column + 2) ++ f (4 * column + 3)

theorem flatMap_columnOf {α : Type} (f : Nat → List α) :
    (List.range 4).flatMap (columnOf f) = (List.range 16).flatMap f := by
  have hfour : List.range 4 = [0, 1, 2, 3] := rfl
  have hsixteen : List.range 16 = [0, 1, 2, 3, 4, 5, 6, 7, 8, 9, 10, 11, 12, 13, 14, 15] := rfl
  simp [hfour, hsixteen, columnOf]

/-- The bytes of a column are mixed one after the other. -/
theorem mixBytes_yields {a0 a1 a2 a3 u0 u1 u2 u3 parity out : Bundle}
    {x0 x1 x2 x3 p0 p1 p2 p3 q : UInt8} {j : Nat} (hj : 8 * j + 32 ≤ out.length) (hc : c.WellFormed)
    (hD : ∀ w ∈ D, c.Allocated w) (hout : c.Vacant D out)
    (ha0 : c.Live input D a0 (byteBits x0)) (ha1 : c.Live input D a1 (byteBits x1))
    (ha2 : c.Live input D a2 (byteBits x2)) (ha3 : c.Live input D a3 (byteBits x3))
    (hu0 : c.Live input D u0 (byteBits p0)) (hu1 : c.Live input D u1 (byteBits p1))
    (hu2 : c.Live input D u2 (byteBits p2)) (hu3 : c.Live input D u3 (byteBits p3))
    (hparity : c.Live input D parity (byteBits q)) :
    (do
      mixByte a0 u0 parity (← byteAt out j)
      mixByte a1 u1 parity (← byteAt out (j + 1))
      mixByte a2 u2 parity (← byteAt out (j + 2))
      mixByte a3 u3 parity (← byteAt out (j + 3)) : Build Unit).Yields c fun _ c' =>
      c.Drives input (block out j ++ block out (j + 1) ++ block out (j + 2) ++ block out (j + 3))
        (byteBits (x0 ^^^ q ^^^ Byte.double p0) ++ byteBits (x1 ^^^ q ^^^ Byte.double p1) ++
          byteBits (x2 ^^^ q ^^^ Byte.double p2) ++ byteBits (x3 ^^^ q ^^^ Byte.double p3)) c' := by
  have hmix : ∀ {a u : Bundle} {x p : UInt8} {k : Nat} {c' : Circuit}, c.Live input D a (byteBits x) →
      c.Live input D u (byteBits p) → k < j + 4 → c.Evolves D c' →
      (mixByte a u parity (block out k)).Yields c' fun _ c'' =>
        c.Evolves D c'' ∧ c'.Drives input (block out k) (byteBits (x ^^^ q ^^^ Byte.double p)) c'' := by
    intro a u x p k c' ha hu hk hev
    refine (mixByte_yields hev.wellFormed (hev.all_allocated hD) (ha.evolves hc hev subset_rfl)
      (hu.evolves hc hev subset_rfl) (hparity.evolves hc hev subset_rfl) ((hout.block k).evolves hev)
      (length_block (by omega))).mono fun _ _ hdrive => ⟨hev.trans_same (hdrive.toEvolves.mono ?_), hdrive⟩
    exact fun w hw => hout.mem w (mem_of_mem_block hw)
  have hdisj : ∀ {k l : Nat} {w : Wire}, k < l → w ∈ block out k → w ∉ block out l :=
    fun hkl => disjoint_block hout.nodup hkl
  refine .checked (byteAt_eq_ok (by omega)) (.bind (hmix ha0 hu0 (by omega) (.refl hc D)) ?_)
  rintro _ c₁ ⟨hev₁, hd0⟩
  refine .checked (byteAt_eq_ok (by omega)) (.bind (hmix ha1 hu1 (by omega) hev₁) ?_)
  rintro _ c₂ ⟨hev₂, hd1⟩
  refine .checked (byteAt_eq_ok (by omega)) (.bind (hmix ha2 hu2 (by omega) hev₂) ?_)
  rintro _ c₃ ⟨hev₃, hd2⟩
  refine .checked (byteAt_eq_ok (by omega)) ((hmix ha3 hu3 (by omega) hev₃).mono ?_)
  rintro _ c₄ ⟨-, hd3⟩
  have hd01 := hd0.append hd1 fun w hw => hdisj (by omega) hw
  have hd012 := hd01.append hd2 fun w hw => (List.mem_append.mp hw).elim (hdisj (by omega)) (hdisj (by omega))
  refine hd012.append hd3 fun w hw => ?_
  rcases List.mem_append.mp hw with hw | hw
  · exact (List.mem_append.mp hw).elim (hdisj (by omega)) (hdisj (by omega))
  · exact hdisj (by omega) hw

theorem mixColumn_yields {state out : Bundle} {s : State} {column : Nat} (hcolumn : column < 4)
    (hc : c.WellFormed) (hD : ∀ w ∈ D, c.Allocated w) (hstate : c.Live input D state s.toBits)
    (hout : c.Vacant D out) (hlen : out.length = 128) :
    (mixColumn state out column).Yields c fun _ c' =>
      c.Drives input (columnOf (block out) column)
        (columnOf (fun j => byteBits (s.mixColumns.byte j)) column) c' := by
  obtain ⟨h0, ha0⟩ := live_byteAt hstate (j := 4 * column) (by omega)
  obtain ⟨h1, ha1⟩ := live_byteAt hstate (j := 4 * column + 1) (by omega)
  obtain ⟨h2, ha2⟩ := live_byteAt hstate (j := 4 * column + 2) (by omega)
  obtain ⟨h3, ha3⟩ := live_byteAt hstate (j := 4 * column + 3) (by omega)
  refine .checked h0 (.checked h1 (.checked h2 (.checked h3 ?_)))
  -- the sums of neighbours and of the column
  refine .bind (xorBytes_yields hc hD ha0 ha1) ?_
  rintro u0 c₁ ⟨hev₁, hu0⟩
  have hkeep₁ := fun {ws bs} (h : c.Live input D ws bs) => h.evolves hc hev₁ (Set.empty_subset D)
  refine .bind (xorBytes_yields hev₁.wellFormed (hev₁.all_allocated hD) (hkeep₁ ha1) (hkeep₁ ha2)) ?_
  rintro u1 c₂ ⟨hev₂, hu1⟩
  have hc₂ := hev₁.trans_same hev₂
  have hkeep₂ := fun {ws bs} (h : c.Live input D ws bs) => h.evolves hc hc₂ (Set.empty_subset D)
  refine .bind (xorBytes_yields hc₂.wellFormed (hc₂.all_allocated hD) (hkeep₂ ha2) (hkeep₂ ha3)) ?_
  rintro u2 c₃ ⟨hev₃, hu2⟩
  have hc₃ := hc₂.trans_same hev₃
  have hkeep₃ := fun {ws bs} (h : c.Live input D ws bs) => h.evolves hc hc₃ (Set.empty_subset D)
  refine .bind (xorBytes_yields hc₃.wellFormed (hc₃.all_allocated hD) (hkeep₃ ha3) (hkeep₃ ha0)) ?_
  rintro u3 c₄ ⟨hev₄, hu3⟩
  have hc₄ := hc₃.trans_same hev₄
  have hu0 := hu0.evolves hev₁.wellFormed (hev₂.trans_same (hev₃.trans_same hev₄)) (Set.empty_subset D)
  have hu2 := hu2.evolves hev₃.wellFormed hev₄ (Set.empty_subset D)
  refine .bind (xorBytes_yields hc₄.wellFormed (hc₄.all_allocated hD) hu0 hu2) ?_
  rintro parity c₅ ⟨hev₅, hparity⟩
  have hc₅ := hc₄.trans_same hev₅
  have hkeep₅ := fun {ws bs} (h : c.Live input D ws bs) => h.evolves hc hc₅ (Set.empty_subset D)
  have hkept := fun {ws bs} (h : c₄.Live input D ws bs) => h.evolves hc₄.wellFormed hev₅ (Set.empty_subset D)
  obtain ⟨hm0, hm1, hm2, hm3⟩ := s.byte_mixColumns column
  simp only [columnOf, hm0, hm1, hm2, hm3]
  have hu1 := hu1.evolves hev₂.wellFormed (hev₃.trans_same hev₄) (Set.empty_subset D)
  refine (mixBytes_yields (by omega) hc₅.wellFormed (hc₅.all_allocated hD) (hout.evolves hc₅) (hkeep₅ ha0)
    (hkeep₅ ha1) (hkeep₅ ha2) (hkeep₅ ha3) (hkept hu0) (hkept hu1) (hkept hu2) (hkept hu3) hparity).mono ?_
  exact fun _ _ hdrive => .after hc₅ hdrive

/-- **The columns of a state are mixed.** -/
theorem mixColumns_yields {state out : Bundle} {s : State} (hc : c.WellFormed)
    (hD : ∀ w ∈ D, c.Allocated w) (hstate : c.Live input D state s.toBits) (hout : c.Vacant D out)
    (hlen : out.length = 128) :
    (mixColumns state out).Yields c fun _ c' => c.Drives input out s.mixColumns.toBits c' := by
  have hdistinct : requireDistinct [out] [state] = .ok () :=
    requireDistinct_eq_ok.mpr (by simpa using hout.not_mem_live hstate)
  have hblocks : (List.range 4).flatMap (columnOf (block out)) = out := by
    rw [flatMap_columnOf, flatMap_block (n := 16) hlen]
  refine .checked (requireWidth_eq_ok.mpr (length_of_state hstate)) (.checked (requireWidth_eq_ok.mpr hlen) ?_)
  refine .checked hdistinct ?_
  have hdrive : ((List.range 4).forM (mixColumn state out)).Yields c fun _ c' =>
      c.Drives input ((List.range 4).flatMap (columnOf (block out)))
        ((List.range 4).flatMap (columnOf fun j => byteBits (s.mixColumns.byte j))) c' := by
    refine forM_drives input _ hc (hblocks.symm ▸ hout.nodup) (hblocks.symm ▸ hout.mem) ?_
    intro column hcolumn c' hev
    exact mixColumn_yields (List.mem_range.mp hcolumn) hev.wellFormed (hev.all_allocated hD)
      (hstate.evolves hc hev subset_rfl) (hout.evolves hev) hlen
  rwa [hblocks, flatMap_columnOf, ← State.toBits_eq] at hdrive

/-! ### Substitution and rows -/

theorem shiftRows_eq_ok {state : Bundle} (h : state.length = 128) :
    shiftRows state = .ok ((List.range 16).flatMap fun j => block state (shiftedFrom j)) := by
  have hbytes : ((List.range 16).mapM fun j => byteAt state (shiftedFrom j)) =
      .ok ((List.range 16).map fun j => block state (shiftedFrom j)) := by
    refine mapM_eq_ok fun j hj => byteAt_eq_ok ?_
    have hbound := shiftedFrom_lt j (List.mem_range.mp hj)
    omega
  refine bind_eq_ok.mpr ⟨(), requireWidth_eq_ok.mpr h, bind_eq_ok.mpr ⟨_, hbytes, ?_⟩⟩
  rw [List.flatMap_def]
  rfl

/-- Drives the bytes of `out` with the substitutes of those of `state`. -/
def substituteBytes (state out : Bundle) : Build Unit :=
  (List.range 16).forM fun j => do
    substituteByte (← byteAt state j) (← byteAt out j)

theorem substituteBytes_yields {state out : Bundle} {s : State} (hc : c.WellFormed)
    (hD : ∀ w ∈ D, c.Allocated w) (hstate : c.Live input D state s.toBits) (hout : c.Vacant D out)
    (hlen : out.length = 128) :
    (substituteBytes state out).Yields c fun _ c' => c.Drives input out s.subBytes.toBits c' := by
  have hblocks : (List.range 16).flatMap (block out) = out := flatMap_block (n := 16) hlen
  have hdrive : (substituteBytes state out).Yields c fun _ c' =>
      c.Drives input ((List.range 16).flatMap (block out))
        ((List.range 16).flatMap fun j => byteBits (s.subBytes.byte j)) c' := by
    refine forM_drives input _ hc (hblocks.symm ▸ hout.nodup) (hblocks.symm ▸ hout.mem) ?_
    intro j hj c' hev
    have hj : j < 16 := List.mem_range.mp hj
    obtain ⟨hbyte, hlive⟩ := live_byteAt (hstate.evolves hc hev subset_rfl) hj
    refine .checked hbyte (.checked (byteAt_eq_ok (by omega)) ?_)
    exact substituteByte_yields hev.wellFormed (hev.all_allocated hD) hlive ((hout.block j).evolves hev)
      (length_block (by omega))
  rwa [hblocks, ← State.toBits_eq] at hdrive

/-- **The bytes of a state are substituted and its rows turned.** -/
theorem substituteAndShift_yields {state : Bundle} {s : State} (hc : c.WellFormed)
    (hD : ∀ w ∈ D, c.Allocated w) (hstate : c.Live input D state s.toBits) :
    (substituteAndShift state).Yields c fun ws c' =>
      c.Evolves ∅ c' ∧ c'.Live input D ws s.subBytes.shiftRows.toBits := by
  refine newBundle_drives input s.subBytes.toBits hc hD (by decide) ?_ ?_
  · intro b c₁ D₁ hc₁ hD₁ hlive hvacant hlen
    exact substituteBytes_yields hc₁ hD₁ (hlive _ _ hstate) hvacant hlen
  · intro b c₂ hev hlive
    refine .check (shiftRows_eq_ok (length_of_state hlive)) ⟨hev, ?_⟩
    rw [State.toBits_eq]
    refine .flatMap fun j hj => ?_
    have hj : j < 16 := List.mem_range.mp hj
    rw [State.byte_shiftRows _ hj, ← State.block_toBits _ (shiftedFrom_lt j hj)]
    exact hlive.block _

/-! ### Rounds -/

theorem live_roundKey {expandedKey : Bundle} {bits : List Bool} {r : Nat}
    (hkey : c.Live input D expandedKey bits) (hr : 128 * (r + 1) ≤ bits.length) :
    ∃ key, roundKey expandedKey r = .ok key ∧ c.Live input D key (keyOfRound bits r).toBits := by
  have hlen : 128 * (r + 1) ≤ expandedKey.length := by rwa [hkey.toSignals.length_eq]
  refine ⟨_, slice_eq_ok.mpr ⟨⟨by omega, hlen⟩, rfl⟩, ?_⟩
  have hbits : (bits.take (128 * (r + 1))).drop (128 * r) = (bits.drop (128 * r)).take 128 := by
    rw [List.drop_take]
    congr 1
    omega
  rw [keyOfRound, State.toBits_ofBits (by simp; omega), ← hbits]
  exact (hkey.take _).drop _

theorem addRoundKey_yields {state key : Bundle} {s k : State} (hc : c.WellFormed)
    (hD : ∀ w ∈ D, c.Allocated w) (hstate : c.Live input D state s.toBits)
    (hkey : c.Live input D key k.toBits) :
    (xorBundles state key).Yields c fun ws c' =>
      c.Evolves ∅ c' ∧ c'.Live input D ws (s.addRoundKey k).toBits := by
  rw [State.toBits_addRoundKey]
  exact xorBundles_yields hc hD hstate hkey (by simp)

/-- **A round of the circuit is a round of the cipher.** -/
theorem innerRound_yields {expandedKey state : Bundle} {bits : List Bool} {s : State} {r : Nat}
    (hc : c.WellFormed) (hD : ∀ w ∈ D, c.Allocated w) (hkey : c.Live input D expandedKey bits)
    (hr : 128 * (r + 1) ≤ bits.length) (hstate : c.Live input D state s.toBits) :
    (innerRound expandedKey state r).Yields c fun ws c' =>
      c.Evolves ∅ c' ∧ c'.Live input D ws (s.round (keyOfRound bits r)).toBits := by
  refine .bind (substituteAndShift_yields hc hD hstate) ?_
  rintro shifted c₁ ⟨hev₁, hshifted⟩
  refine newBundle_drives input s.subBytes.shiftRows.mixColumns.toBits hev₁.wellFormed
    (hev₁.all_allocated hD) (by decide) ?_ ?_
  · intro mixed c₂ D₂ hc₂ hD₂ hlive hvacant hlen
    exact mixColumns_yields hc₂ hD₂ (hlive _ _ hshifted) hvacant hlen
  · intro mixed c₂ hev₂ hmixed
    have hev := hev₁.trans_same hev₂
    obtain ⟨key, hround, hlive⟩ := live_roundKey (hkey.evolves hc hev (Set.empty_subset D)) hr
    refine .checked hround ((addRoundKey_yields hev.wellFormed (hev.all_allocated hD) hmixed hlive).mono ?_)
    rintro ws c₃ ⟨hev₃, hws⟩
    exact ⟨hev.trans_same hev₃, hws⟩

/-- Rounds in a row. -/
theorem foldlM_innerRound_yields {expandedKey : Bundle} {bits : List Bool} : ∀ {rs : List Nat}
    {state : Bundle} {s : State} {c : Circuit}, c.WellFormed → (∀ w ∈ D, c.Allocated w) →
    c.Live input D expandedKey bits → (∀ r ∈ rs, 128 * (r + 1) ≤ bits.length) →
    c.Live input D state s.toBits →
    (rs.foldlM (innerRound expandedKey) state).Yields c fun ws c' => c.Evolves ∅ c' ∧
      c'.Live input D ws (rs.foldl (fun s r => s.round (keyOfRound bits r)) s).toBits
  | [], state, s, c, hc, _, _, _, hstate => .pure ⟨.refl hc ∅, hstate⟩
  | r :: rs, state, s, c, hc, hD, hkey, hr, hstate => by
    obtain ⟨hr, hrs⟩ := List.forall_mem_cons.mp hr
    rw [List.foldlM_cons, List.foldl_cons]
    refine .bind (innerRound_yields hc hD hkey hr hstate) ?_
    rintro state₁ c₁ ⟨hev, hstate₁⟩
    refine (foldlM_innerRound_yields hev.wellFormed (hev.all_allocated hD)
      (hkey.evolves hc hev (Set.empty_subset D)) hrs hstate₁).mono ?_
    rintro ws c₂ ⟨hev₂, hws⟩
    exact ⟨hev.trans_same hev₂, hws⟩

/-- The last round drives the ciphertext. -/
theorem lastRound_yields {expandedKey state ciphertext : Bundle} {bits : List Bool} {s : State}
    {r : Nat} (hc : c.WellFormed) (hD : ∀ w ∈ D, c.Allocated w)
    (hkey : c.Live input D expandedKey bits) (hr : 128 * (r + 1) ≤ bits.length)
    (hstate : c.Live input D state s.toBits) (hout : c.Vacant D ciphertext)
    (hlen : ciphertext.length = 128) :
    (do
      let shifted ← substituteAndShift state
      let key ← roundKey expandedKey r
      (← inStep (← inStep shifted key) ciphertext).forM fun ((s, k), o) =>
        gateTo .xor s k o : Build Unit).Yields c fun _ c' =>
      c.Drives input ciphertext (s.lastRound (keyOfRound bits r)).toBits c' := by
  refine .bind (substituteAndShift_yields hc hD hstate) ?_
  rintro shifted c₁ ⟨hev, hshifted⟩
  obtain ⟨key, hround, hlive⟩ := live_roundKey (hkey.evolves hc hev (Set.empty_subset D)) hr
  have hslen := length_of_state hshifted
  have hkeylen := length_of_state hlive
  refine .checked hround (.checked (inStep_eq_ok.mpr ⟨hslen.trans hkeylen.symm, rfl⟩) ?_)
  refine .checked (inStep_eq_ok.mpr ⟨by simp [hslen, hkeylen, hlen], rfl⟩) ?_
  rw [State.lastRound, State.toBits_addRoundKey, ← map_xor_zip hshifted hlive]
  refine (forM_zip_drives input _ hev.wellFormed (by simp [hslen, hkeylen, hlen])
    (hout.evolves hev) ?_).mono fun _ _ hdrive => .after hev hdrive
  rintro ⟨ws, wk⟩ hp o ho c₂ hev₂
  obtain ⟨hws, hwk⟩ := List.of_mem_zip hp
  exact gateTo_yields hev₂.wellFormed rfl ((hshifted.mem hws).evolves hev.wellFormed hev₂ subset_rfl)
    ((hlive.mem hwk).evolves hev.wellFormed hev₂ subset_rfl)
    (hev₂.writable (hev.writable (hout.writable o ho)))

/-- **The circuit of so many rounds drives the cipher of the state it reads.** -/
theorem encrypt_yields {message expandedKey ciphertext : Bundle} {s : State} {bits : List Bool}
    {rounds : Nat} (hrounds : 1 ≤ rounds) (hbits : bits.length = 128 * (rounds + 1))
    (hc : c.WellFormed) (hmessage : c.Live input D message s.toBits)
    (hkey : c.Live input D expandedKey bits) (hout : c.Vacant D ciphertext)
    (hD : ∀ w ∈ D, c.Allocated w) (hlen : ciphertext.length = 128) :
    (encrypt message expandedKey ciphertext).Yields c fun _ c' =>
      c.Drives input ciphertext (cipher rounds (keyOfRound bits) s).toBits c' := by
  have hklen : expandedKey.length = 128 * (rounds + 1) := by rw [hkey.toSignals.length_eq, hbits]
  have hkeys : requireRoundKeys expandedKey = .ok () := by
    rw [requireRoundKeys, if_neg (by omega)]
  have hdistinct : requireDistinct [ciphertext] [message, expandedKey] = .ok () := by
    refine requireDistinct_eq_ok.mpr ?_
    simpa using ⟨hout.not_mem_live hmessage, hout.not_mem_live hkey⟩
  have hnumber : expandedKey.length / 128 - 1 = rounds := by omega
  unfold encrypt
  refine .checked (requireWidth_eq_ok.mpr (length_of_state hmessage)) (.checked (requireWidth_eq_ok.mpr hlen) ?_)
  refine .checked hkeys (.checked hdistinct ?_)
  rw [hnumber]
  obtain ⟨key₀, hround₀, hlive₀⟩ := live_roundKey hkey (r := 0) (by omega)
  refine .checked hround₀ (.bind (addRoundKey_yields hc hD hmessage hlive₀) ?_)
  rintro start c₁ ⟨hev₁, hstart⟩
  have hkey₁ := hkey.evolves hc hev₁ (Set.empty_subset D)
  refine .bind (foldlM_innerRound_yields hev₁.wellFormed (hev₁.all_allocated hD) hkey₁ ?_ hstart) ?_
  · intro r hr
    have hr := List.mem_range'_1.mp hr
    omega
  rintro state c₂ ⟨hev₂, hstate⟩
  have hev := hev₁.trans_same hev₂
  refine (lastRound_yields hev.wellFormed (hev.all_allocated hD) (hkey.evolves hc hev (Set.empty_subset D))
    hbits.ge hstate (hout.evolves hev) hlen).mono ?_
  exact fun _ _ hdrive => .after hev hdrive

end Build
end BitCircuit
