/-
# The ripple-carry adder adds

One column puts the sum of its bits and the carry on the wire it goes to, and the next carry on
the register that held the carry, in each of the forms a column can take (`rippleKnown_spec`,
`rippleFull_spec`). This takes two registers: if both are one wire, a column that needs them puts
`false` on its target and passes the sum of its two bits on as its carry (`rippleFull_shared`), while
a column one of whose bits is known needs the carry register only.

What a chain of columns leaves is said for both cases, and for targets that may be wanted several times,
at once (`rippleColumns_leaves`, `ripple_leaves`). With two registers and distinct targets the adder does
bitwise addition (`ripple_spec`).

Key definitions: `Build.Registers`, `Build.Apart`, `Build.chainDriven`, `columnResult`, `chainBits`,
`Circuit.DeliversLast`.
Key theorems: `Build.rippleColumn_spec`, `Build.rippleColumn_leaves`, `Build.rippleColumns_leaves`,
`Build.ripple_eq_ok`, `Build.ripple_leaves`, `Build.ripple_spec`.
-/
import BitCircuit.Integer.Ripple
import BitCircuit.Proofs.Bundle
import BitCircuit.Proofs.Integer.Basic

namespace BitCircuit

theorem Circuit.knownBit_cases {c : Circuit} {dir : Direction} {x y x' y' : Wire} {known : Option Bool}
    (h : c.knownBit dir x y = (x', y', known)) :
    known = c.constantValue? y' ∧
      (x' = x ∧ y' = y ∨ dir = .addition ∧ x' = y ∧ y' = x ∧ known ≠ none) := by
  unfold Circuit.knownBit at h
  split at h
  · rename_i v hx hy
    cases h
    exact ⟨hx.symm, .inr ⟨rfl, rfl, rfl, by simp⟩⟩
  · cases h
    exact ⟨rfl, .inl ⟨rfl, rfl⟩⟩

/-! ### Bits of a chain -/

/-- The sum bit and the carry of a column with the bits `x` and `y`. If the registers are shared and no
bit is known, the partial sum has overwritten the carry. -/
def columnResult (shared known x y carry : Bool) : Bool × Bool :=
  if shared && !known then (false, x ^^ y) else (x ^^ y ^^ carry, Bool.atLeastTwo x y carry)

/-- The sum bits of a chain. Of each column it is given whether a bit is known, and its bits. -/
def chainBits (shared carry : Bool) : List (Bool × Bool × Bool) → List Bool
  | [] => []
  | (known, x, y) :: columns =>
    (columnResult shared known x y carry).1 ::
      chainBits shared (columnResult shared known x y carry).2 columns

/-- As long as no column has lost its carry, the chain adds. -/
theorem chainBits_eq_addBits {shared : Bool} : ∀ (columns : List (Bool × Bool × Bool)) (carry : Bool)
    (i : Nat), (∀ col ∈ columns.take (i + 1), shared = false ∨ col.1 = true) →
    (chainBits shared carry columns)[i]? = (addBits carry (columns.map Prod.snd))[i]?
  | [], _, _, _ => rfl
  | (known, x, y) :: columns, carry, i, h => by
    rw [List.take_succ_cons, List.forall_mem_cons] at h
    have hresult : columnResult shared known x y carry = (x ^^ y ^^ carry, Bool.atLeastTwo x y carry) := by
      unfold columnResult
      rcases h.1 with hs | hk
      · simp [hs]
      · simp [show known = true from hk]
    rw [chainBits, hresult, List.map_cons, addBits]
    cases i with
    | zero => rfl
    | succ i =>
      rw [List.getElem?_cons_succ, List.getElem?_cons_succ]
      exact chainBits_eq_addBits columns _ i h.2

theorem chainBits_false (carry : Bool) (columns : List (Bool × Bool × Bool)) :
    chainBits false carry columns = addBits carry (columns.map Prod.snd) :=
  List.ext_getElem? fun i => chainBits_eq_addBits columns carry i fun _ _ => .inl rfl

/-- A column that has lost its carry gives `false`. -/
theorem chainBits_of_unknown {x y : Bool} : ∀ (columns : List (Bool × Bool × Bool)) (carry : Bool) (i : Nat),
    columns[i]? = some (false, x, y) → (chainBits true carry columns)[i]? = some false
  | [], _, _, h => by simp at h
  | (known, x', y') :: columns, carry, i, h => by
    rw [chainBits]
    cases i with
    | zero =>
      obtain ⟨rfl, -⟩ := Prod.mk.inj (Option.some.inj h)
      rfl
    | succ i =>
      rw [List.getElem?_cons_succ] at h ⊢
      exact chainBits_of_unknown columns _ i h

namespace Circuit

variable {c c' : Circuit} {D : Set Wire} {input : Valuation} {w : Wire} {dir : Direction}

/-! ### Wires that are wanted several times -/

/-- Each wire that is wanted has the bit of the last position that it is wanted for. -/
def DeliversLast (c : Circuit) (input : Valuation) (targets : List (Option Wire)) (bits : List Bool) : Prop :=
  ∀ i w, targets[i]? = some (some w) → some w ∉ targets.drop (i + 1) → bits[i]? = some (c.value input w)

theorem deliversLast_cons {t : Option Wire} {ts : List (Option Wire)} {b : Bool} {bs : List Bool}
    (ht : ∀ w ∈ t, some w ∉ ts → c.value input w = b) (hts : c.DeliversLast input ts bs) :
    c.DeliversLast input (t :: ts) (b :: bs) := by
  intro i w hw hlast
  cases i with
  | zero =>
    have hnot : some w ∉ ts := by simpa using hlast
    have hmem : w ∈ t := Option.some.inj hw
    show some b = some (c.value input w)
    rw [ht w hmem hnot]
  | succ i => exact hts i w hw hlast

/-- Where no wire is wanted twice, every position is the last one of its wire. -/
theorem DeliversLast.delivers : ∀ {targets : List (Option Wire)} {bits : List Bool},
    c.DeliversLast input targets bits → Build.TargetsDistinct targets → bits.length = targets.length →
    c.Delivers input targets bits
  | [], [], _, _, _ => .nil
  | t :: ts, b :: bs, h, hd, hlength => by
    obtain ⟨hhead, htail⟩ := List.pairwise_cons.mp hd
    refine .cons (fun w hw => ?_) (DeliversLast.delivers (fun i w => h (i + 1) w) htail (Nat.succ.inj hlength))
    have hlast : some w ∉ ts := fun hm => hhead (some w) hm w hw rfl
    have hb : some b = some (c.value input w) := h 0 w (congrArg some hw) (by simpa using hlast)
    exact (Option.some.inj hb).symm

/-! ### Known bits -/

/-- The wire is a constant. -/
def knows (c : Circuit) (w : Wire) : Bool := (c.constantValue? w).isSome

/-- A column can do with half an adder: the bit that is added is known, or one of two that may be
exchanged. -/
def knowsColumn (c : Circuit) (dir : Direction) (x y : Wire) : Bool :=
  c.knows y || dir == .addition && c.knows x

theorem isSome_knownBit (c : Circuit) (dir : Direction) (x y : Wire) :
    (c.knownBit dir x y).2.2.isSome = c.knowsColumn dir x y := by
  unfold knownBit knowsColumn knows
  cases dir <;> cases c.constantValue? x <;> cases c.constantValue? y <;> rfl

/-- Which wires are constants does not change while a circuit evolves. -/
theorem Evolves.knows_eq (h : c.Evolves D c') (hw : c.Allocated w) : c'.knows w = c.knows w := by
  unfold knows
  cases hv : c.constantValue? w with
  | none => rw [h.toExtends.grows.constantValue? hw hv]
  | some v =>
    rcases h.state w _ (constantValue?_eq_some.mp hv) with hs | ⟨hs, -⟩
    · rw [constantValue?_eq_some.mpr hs]
    · cases hs

end Circuit

namespace Build

variable {c c' : Circuit} {D : Set Wire} {input : Valuation} {dir : Direction}
  {carry spare x y : Wire} {target : Option Wire} {targets : List (Option Wire)} {more : Bool} {u : Unit}

/-- The wires that a chain drives: its two registers and the wires the results go to. -/
def chainDriven (carry spare : Wire) (targets : List (Option Wire)) : Set Wire :=
  {w | w = carry ∨ w = spare ∨ some w ∈ targets}

theorem chainDriven_mono {targets targets' : List (Option Wire)} (h : targets ⊆ targets') :
    chainDriven carry spare targets ⊆ chainDriven carry spare targets' :=
  fun _ hw => hw.imp_right (Or.imp_right fun hm => h hm)

theorem target_subset_chainDriven (carry spare : Wire) (target : Option Wire) :
    {w | target = some w} ⊆ chainDriven carry spare [target] :=
  fun w hw => .inr (.inr (by simpa using hw.symm))

/-- The two registers of a chain are there, are distinct and hold no result. -/
structure Registers (c : Circuit) (carry spare : Wire) (targets : List (Option Wire)) : Prop where
  carry_allocated : c.Allocated carry
  spare_allocated : c.Allocated spare
  ne : carry ≠ spare
  not_target : ∀ w, some w ∈ targets → w ≠ carry ∧ w ≠ spare

/-- The two registers of a chain are there and hold no result. They may be one wire. -/
structure Apart (c : Circuit) (carry spare : Wire) (targets : List (Option Wire)) : Prop where
  carry_allocated : c.Allocated carry
  spare_allocated : c.Allocated spare
  not_target : ∀ w, some w ∈ targets → w ≠ carry ∧ w ≠ spare

theorem Registers.apart {targets : List (Option Wire)} (h : Registers c carry spare targets) :
    Apart c carry spare targets :=
  ⟨h.carry_allocated, h.spare_allocated, h.not_target⟩

theorem Apart.mono {targets' : List (Option Wire)} (h : Apart c carry spare targets')
    (ht : targets ⊆ targets') : Apart c carry spare targets :=
  ⟨h.carry_allocated, h.spare_allocated, fun w hw => h.not_target w (ht hw)⟩

theorem Apart.evolves (h : Apart c carry spare targets) (hev : c.Evolves D c') :
    Apart c' carry spare targets :=
  ⟨hev.allocated h.carry_allocated, hev.allocated h.spare_allocated, h.not_target⟩

/-! ### One column -/

variable (input) in
theorem driveTarget_spec {kind : GateKind} (hc : c.WellFormed)
    (h : (driveTarget kind x y target).exec c = (.ok u, c')) :
    c.Evolves {w | target = some w} c' ∧ ∀ out ∈ target, c'.Allocated out ∧
      c'.value input out = kind.eval (c.value input x) (c.value input y) := by
  cases target with
  | none =>
    obtain ⟨-, rfl⟩ := exec_pure_eq_ok.mp h
    exact ⟨.refl hc _, by simp⟩
  | some out =>
    have hset := gateTo_spec hc h
    refine ⟨hset.toEvolves.mono fun w hw => ?_, fun w hw => ?_⟩
    · exact congrArg some (Set.mem_singleton_iff.mp hw).symm
    · cases hw
      exact ⟨hset.readable.allocated, hset.value input⟩

/-- What a column has done with the bits `x` and `y` and the carry `cin`. -/
structure ColumnDone (c : Circuit) (input : Valuation) (carry spare : Wire) (target : Option Wire)
    (more : Bool) (x y cin : Bool) (c' : Circuit) : Prop where
  evolves : c.Evolves (chainDriven carry spare [target]) c'
  allocated : ∀ out ∈ target, c'.Allocated out
  sum : ∀ out ∈ target, c'.value input out = (x ^^ y ^^ cin)
  carry : more = true → c'.value input carry = Bool.atLeastTwo x y cin

/-- A column that has its sum and goes on to drive its registers. -/
theorem ColumnDone.next {c₁ : Circuit} {bx bit cin : Bool} (hr : Apart c carry spare [target])
    (h : ColumnDone c input carry spare target false bx bit cin c₁)
    (hev : c₁.Evolves {w | w = carry ∨ w = spare} c')
    (hcarry : c'.value input carry = Bool.atLeastTwo bx bit cin) :
    ColumnDone c input carry spare target true bx bit cin c' := by
  refine ⟨h.evolves.trans_same (hev.mono fun w hw => ?_), fun out hout => ?_, fun out hout => ?_,
    fun _ => hcarry⟩
  · exact hw.imp_right .inl
  · exact hev.allocated (h.allocated out hout)
  · obtain ⟨hc, hs⟩ := hr.not_target out (by simpa using hout.symm)
    rw [hev.value_eq h.evolves.wellFormed (h.allocated out hout) (by simp [hc, hs]), h.sum out hout]

variable (input) in
theorem rippleKnown_spec {bit : Bool} (hc : c.WellFormed) (hr : Apart c carry spare [target])
    (hD : chainDriven carry spare [target] ⊆ D) (hx : c.Settled D x)
    (h : (rippleKnown bit carry x target more).exec c = (.ok u, c')) :
    ColumnDone c input carry spare target more (c.value input x) bit (c.value input carry) c' := by
  unfold rippleKnown at h
  obtain ⟨u₁, c₁, hdrive, h⟩ := exec_bind_eq_ok.mp h
  obtain ⟨hev, hout⟩ := driveTarget_spec input hc hdrive
  have hdriven := target_subset_chainDriven carry spare target
  have hsum : ColumnDone c input carry spare target false (c.value input x) bit (c.value input carry) c₁ := by
    refine ⟨hev.mono hdriven, fun out hm => (hout out hm).1, fun out hm => ?_, by simp⟩
    rw [(hout out hm).2]
    cases bit <;> simp [GateKind.eval]
  cases more with
  | false =>
    obtain ⟨-, rfl⟩ := exec_pure_eq_ok.mp h
    exact hsum
  | true =>
    have hset := gateTo_spec hev.wellFormed h
    refine hsum.next hr (hset.toEvolves.mono fun w hw => .inl hw) ?_
    have hcarry : c₁.value input carry = c.value input carry :=
      hev.value_eq hc hr.carry_allocated fun hm => (hr.not_target carry (by simpa using hm.symm)).1 rfl
    rw [hset.value, hx.value_eq hc hev (hdriven.trans hD), hcarry]
    cases bit <;> cases c.value input x <;> cases c.value input carry <;> rfl

variable (input) in
/-- The three gates that bring the carry register from one column to the next. -/
theorem rippleCarry_spec (hc : c.WellFormed) (hx : c.Settled {carry} x) (hs : c.Allocated spare)
    (hne : spare ≠ carry)
    (h : (gateTo .xor x carry carry >>= fun _ => gateTo .and carry spare carry >>= fun _ =>
      gateTo .xor carry x carry).exec c = (.ok u, c')) :
    c.Evolves {carry} c' ∧ c'.value input carry =
      (((c.value input x ^^ c.value input carry) && c.value input spare) ^^ c.value input x) := by
  obtain ⟨u₁, c₁, h₁, h⟩ := exec_bind_eq_ok.mp h
  obtain ⟨u₂, c₂, h₂, h₃⟩ := exec_bind_eq_ok.mp h
  have hset₁ := gateTo_spec hc h₁
  have hset₂ := gateTo_spec hset₁.wellFormed h₂
  have hset₃ := gateTo_spec hset₂.wellFormed h₃
  have hev₂ := hset₁.toEvolves.trans_same hset₂.toEvolves
  refine ⟨hev₂.trans_same hset₃.toEvolves, ?_⟩
  rw [hset₃.value, hset₂.value, hset₁.value, hx.value_eq hc hev₂ subset_rfl,
    hset₁.value_eq hc hs hne]
  rfl

theorem rippleFull_spec (hc : c.WellFormed) (hr : Registers c carry spare [target])
    (hD : chainDriven carry spare [target] ⊆ D) (hx : c.Settled D x)
    (h : (rippleFull dir carry spare x y target more).exec c = (.ok u, c')) :
    ColumnDone c input carry spare target more (c.value input x) (dir.addend (c.value input y))
      (c.value input carry) c' := by
  unfold rippleFull at h
  obtain ⟨u₁, c₁, hspare, h⟩ := exec_bind_eq_ok.mp h
  obtain ⟨u₂, c₂, hdrive, h⟩ := exec_bind_eq_ok.mp h
  have hset := gateTo_spec hc hspare
  obtain ⟨hev, hout⟩ := driveTarget_spec input hset.wellFormed hdrive
  -- the partial sum is on the spare register, the carry is where it was
  have hpartial : c₁.value input spare = (c.value input x ^^ dir.addend (c.value input y)) := by
    rw [hset.value]
    cases dir <;> simp [GateKind.eval, Direction.addend]
  have hcarry : c₁.value input carry = c.value input carry :=
    hset.value_eq hc hr.carry_allocated hr.ne
  have hspare : {spare} ⊆ chainDriven carry spare [target] := fun w hw => .inr (.inl hw)
  have hdriven := target_subset_chainDriven carry spare target
  have hev₂ := (hset.toEvolves.mono hspare).trans_same (hev.mono hdriven)
  have hsum : ColumnDone c input carry spare target false (c.value input x)
      (dir.addend (c.value input y)) (c.value input carry) c₂ := by
    refine ⟨hev₂, fun out hm => (hout out hm).1, fun out hm => ?_, by simp⟩
    rw [(hout out hm).2, hpartial, hcarry]
    rfl
  cases more with
  | false =>
    obtain ⟨-, rfl⟩ := exec_pure_eq_ok.mp h
    exact hsum
  | true =>
    have hkept {w : Wire} (hw : w = carry ∨ w = spare) (ha : c₁.Allocated w) :
        c₂.value input w = c₁.value input w :=
      hev.value_eq hset.wellFormed ha fun hm => by
        have hne := hr.not_target w (by simpa using hm.symm)
        exact hw.elim hne.1 hne.2
    have hx₂ : c₂.Settled {carry} x :=
      (hx.evolves hev₂).mono fun w hw => hD (.inl hw)
    obtain ⟨hev₃, hval⟩ := rippleCarry_spec input hev.wellFormed hx₂
      (hev₂.allocated hr.spare_allocated) hr.ne.symm h
    refine hsum.next hr.apart (hev₃.mono fun w hw => .inl hw) ?_
    rw [hval, hx.value_eq hc hev₂ hD, hkept (.inl rfl) (hset.allocated hr.carry_allocated),
      hkept (.inr rfl) (hset.allocated hr.spare_allocated), hpartial, hcarry]
    generalize c.value input x = a
    generalize dir.addend (c.value input y) = b
    generalize c.value input carry = d
    cases a <;> cases b <;> cases d <;> rfl

theorem atLeastTwo_comm (a b d : Bool) : Bool.atLeastTwo a b d = Bool.atLeastTwo b a d := by
  cases a <;> cases b <;> cases d <;> rfl

variable (input) in
/-- A column one of whose bits is known adds with half an adder, which needs one register only. -/
theorem rippleColumn_known {col : AdderColumn} {x' y' : Wire} {v : Bool} (hc : c.WellFormed)
    (hr : Apart c carry spare [col.target]) (hD : chainDriven carry spare [col.target] ⊆ D)
    (hx : c.Settled D col.x) (hy : c.Settled D col.y)
    (hk : c.knownBit dir col.x col.y = (x', y', some v))
    (h : (rippleKnown (v != (dir == .subtraction)) carry x' col.target more).exec c = (.ok u, c')) :
    ColumnDone c input carry spare col.target more (c.value input col.x)
      (dir.addend (c.value input col.y)) (c.value input carry) c' := by
  obtain ⟨hknown, hxy⟩ := Circuit.knownBit_cases hk
  have hbit : (v != (dir == .subtraction)) = dir.addend (c.value input y') := by
    rw [Circuit.value_of_constantValue? hc hknown.symm]
    cases dir <;> cases v <;> rfl
  rcases hxy with ⟨rfl, rfl⟩ | ⟨rfl, rfl, rfl, -⟩
  · exact hbit ▸ rippleKnown_spec input hc hr hD hx h
  · -- an addition with its operands exchanged
    have hdone := rippleKnown_spec input hc hr hD hy h
    rw [hbit] at hdone
    refine ⟨hdone.evolves, hdone.allocated, fun out hm => ?_, fun hmore => ?_⟩
    · rw [hdone.sum out hm]
      simp [Direction.addend, Bool.xor_comm]
    · rw [hdone.carry hmore]
      exact atLeastTwo_comm _ _ _

variable (input) in
/-- **A column adds its bits and the carry.** -/
theorem rippleColumn_spec {col : AdderColumn} (hc : c.WellFormed)
    (hr : Registers c carry spare [col.target]) (hD : chainDriven carry spare [col.target] ⊆ D)
    (hx : c.Settled D col.x) (hy : c.Settled D col.y)
    (h : (rippleColumn dir carry spare col more).exec c = (.ok u, c')) :
    ColumnDone c input carry spare col.target more (c.value input col.x)
      (dir.addend (c.value input col.y)) (c.value input carry) c' := by
  unfold rippleColumn at h
  rw [exec_get_bind] at h
  rcases hk : c.knownBit dir col.x col.y with ⟨x, y, known⟩
  rw [hk] at h
  cases known with
  | some v => exact rippleColumn_known input hc hr.apart hD hx hy hk h
  | none =>
    obtain ⟨-, ⟨rfl, rfl⟩ | ⟨-, -, -, hne⟩⟩ := Circuit.knownBit_cases hk
    · exact rippleFull_spec hc hr hD hx h
    · exact absurd rfl hne

variable (input) in
/-- The lowest column has the carry into it built in. -/
theorem rippleLowest_spec {col : AdderColumn} (hc : c.WellFormed)
    (hr : Apart c carry spare [col.target]) (hD : chainDriven carry spare [col.target] ⊆ D)
    (hx : c.Settled D col.x) (hy : c.Settled D col.y)
    (h : (rippleLowest dir carry spare col more).exec c = (.ok u, c')) :
    ColumnDone c input carry spare col.target more (c.value input col.x)
      (dir.addend (c.value input col.y)) dir.carryIn c' := by
  unfold rippleLowest at h
  obtain ⟨u₁, c₁, hdrive, h⟩ := exec_bind_eq_ok.mp h
  obtain ⟨hev, hout⟩ := driveTarget_spec input hc hdrive
  have hdriven := target_subset_chainDriven carry spare col.target
  have hsum : ColumnDone c input carry spare col.target false (c.value input col.x)
      (dir.addend (c.value input col.y)) dir.carryIn c₁ := by
    refine ⟨hev.mono hdriven, fun out hm => (hout out hm).1, fun out hm => ?_, by simp⟩
    rw [(hout out hm).2]
    cases dir <;> simp [GateKind.eval, Direction.addend, Direction.carryIn]
  have hx₁ : c₁.value input col.x = c.value input col.x := hx.value_eq hc hev (hdriven.trans hD)
  have hy₁ : c₁.value input col.y = c.value input col.y := hy.value_eq hc hev (hdriven.trans hD)
  cases more with
  | false =>
    obtain ⟨-, rfl⟩ := exec_pure_eq_ok.mp h
    exact hsum
  | true =>
    cases dir with
    | addition =>
      have hset := gateTo_spec hev.wellFormed h
      refine hsum.next hr (hset.toEvolves.mono fun w hw => .inl hw) ?_
      rw [hset.value, hx₁, hy₁]
      simp [GateKind.eval, Direction.addend, Direction.carryIn]
    | subtraction =>
      obtain ⟨u₂, c₂, hinv, h⟩ := exec_bind_eq_ok.mp h
      have hset₂ := invTo_spec hev.wellFormed hinv
      have hset₃ := gateTo_spec hset₂.wellFormed h
      have hx₂ : c₂.value input col.x = c₁.value input col.x :=
        (hx.evolves hev).value_eq hev.wellFormed hset₂.toEvolves
          (Set.singleton_subset_iff.mpr (hD (.inr (.inl rfl))))
      refine hsum.next hr ((hset₂.toEvolves.mono fun w hw => .inr hw).trans_same
        (hset₃.toEvolves.mono fun w hw => .inl hw)) ?_
      rw [hset₃.value, hset₂.value, hx₂, hx₁, hy₁]
      simp [GateKind.eval, Direction.addend, Direction.carryIn]

/-! ### What a column leaves -/

/-- What a column has left on its target and on the carry register. -/
structure ColumnLeaves (c : Circuit) (input : Valuation) (carry spare : Wire) (target : Option Wire)
    (more : Bool) (result : Bool × Bool) (c' : Circuit) : Prop where
  evolves : c.Evolves (chainDriven carry spare [target]) c'
  allocated : ∀ out ∈ target, c'.Allocated out
  sum : ∀ out ∈ target, c'.value input out = result.1
  carry : more = true → c'.value input carry = result.2

theorem ColumnDone.leaves {shared known bx bit cin : Bool} (hk : (shared && !known) = false)
    (h : ColumnDone c input carry spare target more bx bit cin c') :
    ColumnLeaves c input carry spare target more (columnResult shared known bx bit cin) c' := by
  have hresult : columnResult shared known bx bit cin = (bx ^^ bit ^^ cin, Bool.atLeastTwo bx bit cin) := by
    simp [columnResult, hk]
  rw [hresult]
  exact ⟨h.evolves, h.allocated, h.sum, h.carry⟩

/-- **With one wire for both registers a column loses its carry.** The partial sum takes its place, is
compared with itself, and is what remains. -/
theorem rippleFull_shared (hc : c.WellFormed) (hr : Apart c carry carry [target])
    (hD : chainDriven carry carry [target] ⊆ D) (hx : c.Settled D x)
    (h : (rippleFull dir carry carry x y target more).exec c = (.ok u, c')) :
    ColumnLeaves c input carry carry target more
      (false, c.value input x ^^ dir.addend (c.value input y)) c' := by
  unfold rippleFull at h
  obtain ⟨u₁, c₁, hpartial, h⟩ := exec_bind_eq_ok.mp h
  obtain ⟨u₂, c₂, hdrive, h⟩ := exec_bind_eq_ok.mp h
  have hset := gateTo_spec hc hpartial
  obtain ⟨hev, hout⟩ := driveTarget_spec input hset.wellFormed hdrive
  have hregister : {carry} ⊆ chainDriven carry carry [target] := fun w hw => .inl hw
  have hev₂ := (hset.toEvolves.mono hregister).trans_same
    (hev.mono (target_subset_chainDriven carry carry target))
  have hsum : ∀ out ∈ target, c₂.value input out = false := by
    intro out hm
    rw [(hout out hm).2]
    exact Bool.xor_self _
  cases more with
  | false =>
    obtain ⟨-, rfl⟩ := exec_pure_eq_ok.mp h
    exact ⟨hev₂, fun out hm => (hout out hm).1, hsum, by simp⟩
  | true =>
    obtain ⟨u₃, c₃, h₃, h⟩ := exec_bind_eq_ok.mp h
    obtain ⟨u₄, c₄, h₄, h₅⟩ := exec_bind_eq_ok.mp h
    have hset₃ := gateTo_spec hev.wellFormed h₃
    have hset₄ := gateTo_spec hset₃.wellFormed h₄
    have hset₅ := gateTo_spec hset₄.wellFormed h₅
    have hev₄ := hset₃.toEvolves.trans_same hset₄.toEvolves
    have hev₅ := hev₄.trans_same hset₅.toEvolves
    have hx₂ : c₂.value input x = c.value input x := hx.value_eq hc hev₂ hD
    have hx₄ : c₄.value input x = c₂.value input x :=
      (hx.evolves hev₂).value_eq hev.wellFormed hev₄ (hregister.trans hD)
    have hkept : c₂.value input carry = (c.value input x ^^ dir.addend (c.value input y)) := by
      have hnot : carry ∉ {w | target = some w} := fun hm =>
        (hr.not_target carry (by simpa using hm.symm)).1 rfl
      rw [hev.value_eq hset.wellFormed (hset.allocated hr.carry_allocated) hnot, hset.value]
      cases dir <;> simp [GateKind.eval, Direction.addend]
    refine ⟨hev₂.trans_same (hev₅.mono hregister), fun out hm => hev₅.allocated (hout out hm).1,
      fun out hm => ?_, fun _ => ?_⟩
    · have hne := (hr.not_target out (by simpa using hm.symm)).1
      rw [hev₅.value_eq hev.wellFormed (hout out hm).1 hne, hsum out hm]
    · rw [hset₅.value, hx₄, hset₄.value, hset₃.value, hkept, hx₂]
      generalize c.value input x = a
      generalize dir.addend (c.value input y) = b
      cases a <;> cases b <;> rfl

variable (input) in
/-- What a column leaves, whether the registers are shared or not. -/
theorem rippleColumn_leaves {col : AdderColumn} (hc : c.WellFormed)
    (hr : Apart c carry spare [col.target]) (hD : chainDriven carry spare [col.target] ⊆ D)
    (hx : c.Settled D col.x) (hy : c.Settled D col.y)
    (h : (rippleColumn dir carry spare col more).exec c = (.ok u, c')) :
    ColumnLeaves c input carry spare col.target more
      (columnResult (decide (carry = spare)) (c.knowsColumn dir col.x col.y) (c.value input col.x)
        (dir.addend (c.value input col.y)) (c.value input carry)) c' := by
  by_cases hshared : carry = spare
  case neg =>
    have hregisters : Registers c carry spare [col.target] :=
      ⟨hr.carry_allocated, hr.spare_allocated, hshared, hr.not_target⟩
    exact (rippleColumn_spec input hc hregisters hD hx hy h).leaves (by simp [hshared])
  subst hshared
  unfold rippleColumn at h
  rw [exec_get_bind] at h
  have hknows := c.isSome_knownBit dir col.x col.y
  rcases hk : c.knownBit dir col.x col.y with ⟨x, y, known⟩
  rw [hk] at h hknows
  cases known with
  | some v =>
    have hdone := rippleColumn_known input hc hr hD hx hy hk h
    exact hdone.leaves (by simp [← hknows])
  | none =>
    obtain ⟨-, ⟨rfl, rfl⟩ | ⟨-, -, -, hne⟩⟩ := Circuit.knownBit_cases hk
    · have hresult : columnResult (decide (carry = carry)) (c.knowsColumn dir col.x col.y)
          (c.value input col.x) (dir.addend (c.value input col.y)) (c.value input carry) =
          (false, c.value input col.x ^^ dir.addend (c.value input col.y)) := by
        simp [columnResult, ← hknows]
      rw [hresult]
      exact rippleFull_shared hc hr hD hx h
    · exact absurd rfl hne

/-! ### The chain -/

/-- The bits of a column. -/
def columnBits (dir : Direction) (v : Valuation) (col : AdderColumn) : Bool × Bool :=
  (v col.x, dir.addend (v col.y))

/-- Whether a bit of the column is known, and its bits. -/
def columnView (c : Circuit) (input : Valuation) (dir : Direction) (col : AdderColumn) : Bool × Bool × Bool :=
  (c.knowsColumn dir col.x col.y, columnBits dir (c.value input) col)

/-- A chain has run: what it drove and what its targets have in the end. -/
def ChainLeaves (c : Circuit) (input : Valuation) (carry spare : Wire) (targets : List (Option Wire))
    (cin : Bool) (views : List (Bool × Bool × Bool)) (c' : Circuit) : Prop :=
  c.Evolves (chainDriven carry spare targets) c' ∧
    c'.DeliversLast input targets (chainBits (decide (carry = spare)) cin views)

/-- A column that has run and the chain above it. -/
theorem ColumnLeaves.chain {c₁ : Circuit} {col : AdderColumn} {cols : List AdderColumn} {known cin : Bool}
    (hc : c.WellFormed) (hr : Apart c carry spare ((col :: cols).map (·.target)))
    (hD : chainDriven carry spare ((col :: cols).map (·.target)) ⊆ D)
    (hset : ∀ col' ∈ cols, c.Settled D col'.x ∧ c.Settled D col'.y)
    (h : ColumnLeaves c input carry spare col.target (!cols.isEmpty)
      (columnResult (decide (carry = spare)) known (c.value input col.x)
        (dir.addend (c.value input col.y)) cin) c₁)
    (hcols : ChainLeaves c₁ input carry spare (cols.map (·.target)) (c₁.value input carry)
      (cols.map (columnView c₁ input dir)) c') :
    ChainLeaves c input carry spare ((col :: cols).map (·.target)) cin
      ((known, columnBits dir (c.value input) col) :: cols.map (columnView c input dir)) c' := by
  obtain ⟨hev, hbits⟩ := hcols
  have hhead : chainDriven carry spare [col.target] ⊆
      chainDriven carry spare ((col :: cols).map (·.target)) := chainDriven_mono (by simp)
  have htail : chainDriven carry spare (cols.map (·.target)) ⊆
      chainDriven carry spare ((col :: cols).map (·.target)) := chainDriven_mono (by simp)
  refine ⟨(h.evolves.mono hhead).trans_same (hev.mono htail), ?_⟩
  refine Circuit.deliversLast_cons (fun out hm hlast => ?_) ?_
  · -- a later column drives this target only if it is its own as well
    obtain ⟨hcarry, hspare⟩ := hr.not_target out (by simp [Option.mem_def.mp hm])
    have hnot : out ∉ chainDriven carry spare (cols.map (·.target)) := by
      intro hw
      rcases hw with hw | hw | hw
      · exact hcarry hw
      · exact hspare hw
      · exact hlast hw
    rw [hev.value_eq h.evolves.wellFormed (h.allocated out hm) hnot, h.sum out hm]
  · -- the columns above find their bits and this column's carry
    have hsame : cols.map (columnView c₁ input dir) = cols.map (columnView c input dir) := by
      refine List.map_congr_left fun col' hm => ?_
      obtain ⟨hx, hy⟩ := hset col' hm
      unfold columnView columnBits Circuit.knowsColumn
      rw [hx.value_eq hc h.evolves (hhead.trans hD), hy.value_eq hc h.evolves (hhead.trans hD),
        h.evolves.knows_eq hx.allocated, h.evolves.knows_eq hy.allocated]
    cases cols with
    | nil => exact hbits
    | cons col' cols => rwa [h.carry rfl, hsame] at hbits

/-- **What a chain of columns leaves**, by the columns. -/
theorem rippleColumns_leaves : ∀ {cols : List AdderColumn} {c c' : Circuit} {u : Unit}, c.WellFormed →
    Apart c carry spare (cols.map (·.target)) →
    chainDriven carry spare (cols.map (·.target)) ⊆ D →
    (∀ col ∈ cols, c.Settled D col.x ∧ c.Settled D col.y) →
    (rippleColumns dir carry spare cols).exec c = (.ok u, c') →
    ChainLeaves c input carry spare (cols.map (·.target)) (c.value input carry)
      (cols.map (columnView c input dir)) c'
  | [], c, c', u, hc, _, _, _, h => by
    obtain ⟨-, rfl⟩ := exec_pure_eq_ok.mp h
    refine ⟨.refl hc _, fun i w hw => ?_⟩
    simp at hw
  | col :: cols, c, c', u, hc, hr, hD, hset, h => by
    obtain ⟨⟨hx, hy⟩, hsettled⟩ := List.forall_mem_cons.mp hset
    obtain ⟨u₁, c₁, hcolumn, h⟩ := exec_bind_eq_ok.mp h
    have hleaves := rippleColumn_leaves input hc (hr.mono (by simp))
      ((chainDriven_mono (by simp)).trans hD) hx hy hcolumn
    refine hleaves.chain hc hr hD hsettled ?_
    refine rippleColumns_leaves hleaves.evolves.wellFormed ((hr.mono (by simp)).evolves hleaves.evolves)
      ((chainDriven_mono (by simp)).trans hD) (fun col' hm => ?_) h
    exact (hsettled col' hm).imp (·.evolves hleaves.evolves) (·.evolves hleaves.evolves)

/-- What a chain sees of its columns. The lowest one has its carry built in and counts as known. -/
def chainViews (c : Circuit) (input : Valuation) (dir : Direction) :
    List AdderColumn → List (Bool × Bool × Bool)
  | [] => []
  | lowest :: rest => (true, columnBits dir (c.value input) lowest) :: rest.map (columnView c input dir)

theorem map_snd_chainViews (c : Circuit) (input : Valuation) (dir : Direction) (cols : List AdderColumn) :
    (chainViews c input dir cols).map Prod.snd = cols.map (columnBits dir (c.value input)) := by
  cases cols with
  | nil => rfl
  | cons lowest rest =>
    rw [chainViews, List.map_cons, List.map_map]
    rfl

variable (input) in
/-- All columns from the lowest one on. -/
theorem rippleAll_leaves {lowest : AdderColumn} {rest : List AdderColumn} (hc : c.WellFormed)
    (hr : Apart c carry spare ((lowest :: rest).map (·.target)))
    (hD : chainDriven carry spare ((lowest :: rest).map (·.target)) ⊆ D)
    (hset : ∀ col ∈ lowest :: rest, c.Settled D col.x ∧ c.Settled D col.y)
    (h : (rippleLowest dir carry spare lowest (!rest.isEmpty) >>= fun _ =>
      rippleColumns dir carry spare rest).exec c = (.ok u, c')) :
    ChainLeaves c input carry spare ((lowest :: rest).map (·.target)) dir.carryIn
      (chainViews c input dir (lowest :: rest)) c' := by
  obtain ⟨⟨hx, hy⟩, hsettled⟩ := List.forall_mem_cons.mp hset
  obtain ⟨u₁, c₁, hlowest, h⟩ := exec_bind_eq_ok.mp h
  have hdone := rippleLowest_spec input hc (hr.mono (by simp))
    ((chainDriven_mono (by simp)).trans hD) hx hy hlowest
  refine (hdone.leaves (by simp)).chain hc hr hD hsettled ?_
  refine rippleColumns_leaves (D := D) hdone.evolves.wellFormed
    ((hr.mono (by simp)).evolves hdone.evolves)
    ((chainDriven_mono (by simp)).trans hD) (fun col hm => ?_) h
  exact (hsettled col hm).imp (·.evolves hdone.evolves) (·.evolves hdone.evolves)

/-! ### The adder -/

theorem adderColumns_eq_ok {x y : Bundle} {targets : List (Option Wire)} {cols : List AdderColumn}
    (h : adderColumns x y targets = .ok cols) :
    cols.map (·.target) = targets ∧ (∀ col ∈ cols, col.x ∈ x ∧ col.y ∈ y) ∧
      ∀ (dir : Direction) (v : Valuation), cols.map (columnBits dir v) =
        ((x.map v).zip (y.map v)).map fun col => (col.1, dir.addend col.2) := by
  unfold adderColumns at h
  obtain ⟨xy, hxy, h⟩ := bind_eq_ok.mp h
  obtain ⟨l, hl, h⟩ := bind_eq_ok.mp h
  obtain ⟨-, rfl⟩ := inStep_eq_ok.mp hxy
  obtain ⟨hlen, rfl⟩ := inStep_eq_ok.mp hl
  cases h
  refine ⟨?_, fun col hcol => ?_, fun dir v => ?_⟩
  · rw [List.map_map]
    exact List.map_snd_zip (Nat.le_of_eq hlen.symm)
  · obtain ⟨p, hp, rfl⟩ := List.mem_map.mp hcol
    exact List.of_mem_zip (List.of_mem_zip hp).1
  · calc
      _ = (((x.zip y).zip targets).map Prod.fst).map fun p => (v p.1, dir.addend (v p.2)) := by
        rw [List.map_map, List.map_map]
        rfl
      _ = _ := by
        rw [List.map_fst_zip (Nat.le_of_eq hlen), List.zip_map, List.map_map]
        rfl

/-- An adder that is not refused has registers, brings its operands to the width, and then runs its
columns. -/
theorem ripple_eq_ok {a b temps : Bundle} {sink : Sink} {enc : Encoding}
    (h : (ripple a b sink temps enc dir).exec c = (.ok u, c')) :
    ∃ width x y carry spare lowest rest c₁ c₂, requireDistinct [temps] [a, b, sink.wires] = .ok () ∧
      sink.width = .ok width ∧ temps[0]? = some carry ∧ temps[1]? = some spare ∧
      (extend enc width a).exec c = (.ok x, c₁) ∧ (extend enc width b).exec c₁ = (.ok y, c₂) ∧
      adderColumns x y sink.targets = .ok (lowest :: rest) ∧
      (rippleLowest dir carry spare lowest (!rest.isEmpty) >>= fun _ =>
        rippleColumns dir carry spare rest).exec c₂ = (.ok u, c') := by
  unfold ripple at h
  obtain ⟨-, -, h⟩ := exec_check_bind.mp h
  obtain ⟨⟨⟩, hdistinct, h⟩ := exec_check_bind.mp h
  obtain ⟨width, hwidth, h⟩ := exec_check_bind.mp h
  obtain ⟨x, c₁, hx, h⟩ := exec_bind_eq_ok.mp h
  obtain ⟨y, c₂, hy, h⟩ := exec_bind_eq_ok.mp h
  obtain ⟨carry, hcarry, h⟩ := exec_check_bind.mp h
  obtain ⟨spare, hspare, h⟩ := exec_check_bind.mp h
  obtain ⟨cols, hcols, h⟩ := exec_check_bind.mp h
  cases cols with
  | nil => exact (exec_throw_eq_ok.mp h).elim
  | cons lowest rest =>
    exact ⟨width, x, y, carry, spare, lowest, rest, c₁, c₂, hdistinct, hwidth, wireAt_eq_ok.mp hcarry,
      wireAt_eq_ok.mp hspare, hx, hy, hcols, h⟩

section Wiring

variable {a b temps : Bundle} {sink : Sink}
  (hdistinct : requireDistinct [temps] [a, b, sink.wires] = .ok ())
  (hcarry : temps[0]? = some carry) (hspare : temps[1]? = some spare)
include hdistinct hcarry hspare

/-- The registers of an adder hold none of its results. -/
theorem apart_of_requireDistinct (hatemps : ∀ w ∈ temps, c.Allocated w) :
    Apart c carry spare sink.targets := by
  have htemps := requireDistinct_eq_ok.mp hdistinct temps (by simp)
  refine ⟨hatemps _ (List.mem_of_getElem? hcarry), hatemps _ (List.mem_of_getElem? hspare), fun w hw => ?_⟩
  have hw := some_mem_targets.mp hw
  constructor <;> rintro rfl
  · exact htemps sink.wires (by simp) _ (List.mem_of_getElem? hcarry) hw
  · exact htemps sink.wires (by simp) _ (List.mem_of_getElem? hspare) hw

/-- The registers and results of an adder are free of its operands. -/
theorem not_mem_chainDriven (hdisjoint : ∀ w ∈ sink.wires, w ∉ a ∧ w ∉ b) {o : Bundle} (ho : o = a ∨ o = b) :
    ∀ w ∈ o, w ∉ chainDriven carry spare sink.targets := by
  have htemps := requireDistinct_eq_ok.mp hdistinct temps (by simp)
  have hmem : o ∈ [a, b, sink.wires] := by rcases ho with rfl | rfl <;> simp
  rintro w hw (rfl | rfl | hm)
  · exact htemps o hmem _ (List.mem_of_getElem? hcarry) hw
  · exact htemps o hmem _ (List.mem_of_getElem? hspare) hw
  · obtain ⟨hwa, hwb⟩ := hdisjoint w (some_mem_targets.mp hm)
    rcases ho with rfl | rfl
    · exact hwa hw
    · exact hwb hw

end Wiring

/-- What an adder drives is there. -/
theorem Apart.allocated {sink : Sink} (h : Apart c carry spare sink.targets)
    (hasink : ∀ w ∈ sink.wires, c.Allocated w) :
    ∀ w ∈ chainDriven carry spare sink.targets, c.Allocated w := by
  rintro w (rfl | rfl | hm)
  · exact h.carry_allocated
  · exact h.spare_allocated
  · exact hasink w (some_mem_targets.mp hm)

variable (input) in
/-- **What an adder leaves on its results**, by columns that have the bits of the widened operands. -/
theorem ripple_leaves {a b temps : Bundle} {sink : Sink} {enc : Encoding} (hc : c.WellFormed)
    (ha : ∀ w ∈ a ++ b ++ temps ++ sink.wires, c.Allocated w)
    (hdisjoint : ∀ w ∈ sink.wires, w ∉ a ∧ w ∉ b)
    (h : (ripple a b sink temps enc dir).exec c = (.ok u, c')) :
    ∃ width xs ys cols c₁ c₂, sink.width = .ok width ∧ (extend enc width a).exec c = (.ok xs, c₁) ∧
      (extend enc width b).exec c₁ = (.ok ys, c₂) ∧ adderColumns xs ys sink.targets = .ok cols ∧
      cols.map (columnBits dir (c₂.value input)) = ((enc.resize width (a.map (c.value input))).zip
        (enc.resize width (b.map (c.value input)))).map (fun col => (col.1, dir.addend col.2)) ∧
      c'.DeliversLast input sink.targets
        (chainBits (decide (temps[0]? = temps[1]?)) dir.carryIn (chainViews c₂ input dir cols)) := by
  simp only [List.forall_mem_append] at ha
  obtain ⟨⟨⟨haa, hab⟩, hatemps⟩, hasink⟩ := ha
  obtain ⟨width, xs, ys, carry, spare, lowest, rest, c₁, c₂, hdistinct, hwidth, hcarry, hspare, hx, hy,
    hcols, h⟩ := ripple_eq_ok h
  have hr := apart_of_requireDistinct hdistinct hcarry hspare hatemps
  -- the operands are brought to the width
  obtain ⟨hev, hsx, hsy⟩ := extend_both_spec input hc (hr.allocated hasink)
    (Circuit.signals_self haa (not_mem_chainDriven hdistinct hcarry hspare hdisjoint (.inl rfl)))
    (Circuit.signals_self hab (not_mem_chainDriven hdistinct hcarry hspare hdisjoint (.inr rfl))) hx hy
  -- the columns
  obtain ⟨htargets, hmem, hbits⟩ := adderColumns_eq_ok hcols
  obtain ⟨-, hlast⟩ := rippleAll_leaves input (D := chainDriven carry spare sink.targets)
    hev.wellFormed (htargets ▸ hr.evolves hev) (htargets ▸ subset_rfl)
    (fun col hm => ⟨hsx.settled _ (hmem col hm).1, hsy.settled _ (hmem col hm).2⟩) h
  have hshared : decide (temps[0]? = temps[1]?) = decide (carry = spare) := by
    simp [hcarry, hspare]
  rw [htargets, ← hshared] at hlast
  refine ⟨width, xs, ys, lowest :: rest, c₁, c₂, hwidth, hx, hy, hcols, ?_, hlast⟩
  rw [hbits, hsx.values, hsy.values]

variable (input) in
/-- **The ripple-carry adder adds and subtracts**, in any circuit and to any width. -/
theorem ripple_spec {a b temps : Bundle} {sink : Sink} {enc : Encoding} (hc : c.WellFormed)
    (ha : ∀ w ∈ a ++ b ++ temps ++ sink.wires, c.Allocated w)
    (hdisjoint : ∀ w ∈ sink.wires, w ∉ a ∧ w ∉ b) (hd : TargetsDistinct sink.targets)
    (hne : temps[0]? ≠ temps[1]?) (h : (ripple a b sink temps enc dir).exec c = (.ok u, c')) :
    ∃ width, sink.width = .ok width ∧ c'.Delivers input sink.targets
      (addSubBits dir ((enc.resize width (a.map (c.value input))).zip
        (enc.resize width (b.map (c.value input))))) := by
  obtain ⟨width, xs, ys, cols, c₁, c₂, hwidth, -, -, hcols, hbits, hlast⟩ :=
    ripple_leaves input hc ha hdisjoint h
  rw [decide_eq_false hne, chainBits_false, map_snd_chainViews] at hlast
  have hlength : (addBits dir.carryIn (cols.map (columnBits dir (c₂.value input)))).length =
      sink.targets.length := by
    rw [length_addBits, ← (adderColumns_eq_ok hcols).1, List.length_map, List.length_map]
  have hdel := hlast.delivers hd hlength
  rw [hbits] at hdel
  exact ⟨width, hwidth, hdel⟩

end Build
end BitCircuit
