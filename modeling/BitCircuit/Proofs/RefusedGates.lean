/-
# Gates that are refused

A gate that drives a wire of the caller's is refused for its kind, for the first wire it reads that has
no value, or for the wire it is to drive. What is reported follows from the states that the wires had
before the call (`Circuit.Refusal`, `gate_refusals_follow_state`), with one exception: a gate whose value
is decided by the constants it reads asks for the constant wire of this value first. If there is none yet,
the next free position becomes this wire, and a caller who named that position as the target is told that
it is read only, not that it does not exist (`refusal_blames_new_constant`).

A refused gate leaves the meaning of the circuit alone. At most the constant wire it asked for is there
afterwards, so every evaluation ends as before (`refused_gates_keep_meaning`).

Key definitions: `Circuit.Decides`, `Circuit.Claims`, `Circuit.Refusal`, `Circuit.SameButConstant`.
Key theorems: `Circuit.exists_refusal_iff`, `Build.gateTo_eq_error`, `Build.invTo_eq_error`,
`Circuit.SameButConstant.evalBits_eq`, `gate_refusals_follow_state`, `refused_gates_keep_meaning`.
-/
import BitCircuit.Proofs.Evaluator
import BitCircuit.Proofs.Folding

namespace BitCircuit
namespace Circuit

variable {c c' : Circuit} {g : Gate} {w : Wire} {e : Error}

/-! ### What is reported -/

/-- The first of some wires that a gate must not read. -/
def FirstUnreadable (c : Circuit) (ws : List Wire) (w : Wire) : Prop :=
  ∃ before after, ws = before ++ w :: after ∧ (∀ r ∈ before, c.Readable r) ∧ ¬ c.Readable w

/-- The constants that the gate reads decide that its value is `v`. -/
def Decides (c : Circuit) (g : Gate) (v : Bool) : Prop :=
  ∀ p q, (∀ b, c.state? g.x = some (.constant b) → p = b) →
    (∀ b, c.state? g.y = some (.constant b) → q = b) → g.kind.eval p q = v

/-- The target of the gate is the position at which the constant that the gate amounts to is allocated. -/
def Claims (c : Circuit) (g : Gate) : Prop :=
  g.out = c.nextWire ∧ ∃ v, c.Decides g v ∧ ∀ w, c.state? w ≠ some (.constant v)

/-- Why a gate is refused, told by the states of the wires before the call. -/
inductive Refusal (c : Circuit) (g : Gate) : Error → Prop
  /-- The first wire without a value does not exist. -/
  | unallocatedOperand {w : Wire} : c.FirstUnreadable g.reads w → ¬ c.Allocated w →
    Refusal c g (.unallocated w)
  /-- The first wire without a value is one that no gate drives. -/
  | undrivenOperand {w : Wire} : c.FirstUnreadable g.reads w → c.state? w = some .undriven →
    Refusal c g (.undriven w)
  /-- The target does not exist and does not become a constant either. -/
  | unallocatedTarget : (∀ w ∈ g.reads, c.Readable w) → ¬ c.Allocated g.out → ¬ c.Claims g →
    Refusal c g (.unallocated g.out)
  /-- The target is an input or a constant. -/
  | givenTarget : (∀ w ∈ g.reads, c.Readable w) → c.Given g.out → Refusal c g (.readOnly g.out)
  /-- The target is where a constant is allocated. -/
  | claimedTarget : (∀ w ∈ g.reads, c.Readable w) → c.Claims g → Refusal c g (.readOnly g.out)

theorem requireReadable_eq_error : c.requireReadable w = .error e ↔
    ¬ c.Allocated w ∧ e = .unallocated w ∨ c.state? w = some .undriven ∧ e = .undriven w := by
  rw [← state?_eq_none]
  unfold requireReadable
  cases hs : c.state? w with
  | none => simp [eq_comm]
  | some s => cases s <;> simp [eq_comm]

theorem requireWritable_eq_error : c.requireWritable w = .error e ↔
    ¬ c.Allocated w ∧ e = .unallocated w ∨ c.Given w ∧ e = .readOnly w := by
  rw [← state?_eq_none]
  unfold requireWritable Given
  cases hs : c.state? w with
  | none => simp [eq_comm]
  | some s => cases s <;> simp [eq_comm]

theorem firstUnreadable_nil : ¬ c.FirstUnreadable [] w := by
  intro h
  obtain ⟨before, after, hsplit, -⟩ := h
  simp at hsplit

theorem firstUnreadable_cons {r : Wire} {ws : List Wire} : c.FirstUnreadable (r :: ws) w ↔
    w = r ∧ ¬ c.Readable r ∨ c.Readable r ∧ c.FirstUnreadable ws w := by
  unfold FirstUnreadable
  constructor
  · intro h
    obtain ⟨before, after, hsplit, hbefore, hw⟩ := h
    cases before with
    | nil =>
      obtain ⟨rfl, -⟩ := List.cons.inj hsplit
      exact .inl ⟨rfl, hw⟩
    | cons r' before =>
      obtain ⟨rfl, hws⟩ := List.cons.inj hsplit
      obtain ⟨hr, hbefore⟩ := List.forall_mem_cons.mp hbefore
      exact .inr ⟨hr, before, after, hws, hbefore, hw⟩
  · intro h
    rcases h with ⟨rfl, hw⟩ | ⟨hr, before, after, rfl, hbefore, hw⟩
    · exact ⟨[], ws, rfl, by simp, hw⟩
    · exact ⟨r :: before, after, rfl, List.forall_mem_cons.mpr ⟨hr, hbefore⟩, hw⟩

/-- Of wires that are not all readable there is a first one that is not. -/
theorem exists_firstUnreadable : ∀ {ws : List Wire},
    (∃ w, c.FirstUnreadable ws w) ↔ ¬ ∀ w ∈ ws, c.Readable w
  | [] => by simp [firstUnreadable_nil]
  | r :: ws => by
    have ih : (∃ w, c.FirstUnreadable ws w) ↔ ¬ ∀ w ∈ ws, c.Readable w := exists_firstUnreadable
    rw [List.forall_mem_cons]
    by_cases hr : c.Readable r
    · simp [firstUnreadable_cons, hr, ih]
    · simp [firstUnreadable_cons, hr]

/-- The reasons in the order of the checks: the operands one after the other, then the target. -/
theorem refusal_iff : c.Refusal g e ↔
    (∃ w, c.FirstUnreadable g.reads w ∧ c.requireReadable w = .error e) ∨
      (∀ w ∈ g.reads, c.Readable w) ∧
        (c.Claims g ∧ e = .readOnly g.out ∨ ¬ c.Claims g ∧ c.requireWritable g.out = .error e) := by
  simp only [requireReadable_eq_error, requireWritable_eq_error]
  constructor
  · intro h
    cases h with
    | unallocatedOperand hw ha => exact .inl ⟨_, hw, .inl ⟨ha, rfl⟩⟩
    | undrivenOperand hw hs => exact .inl ⟨_, hw, .inr ⟨hs, rfl⟩⟩
    | unallocatedTarget hr ha hclaim => exact .inr ⟨hr, .inr ⟨hclaim, .inl ⟨ha, rfl⟩⟩⟩
    | givenTarget hr hgiven =>
      have hclaim : ¬ c.Claims g := fun hclaim =>
        not_allocated_nextWire (hclaim.1 ▸ hgiven.readable.allocated)
      exact .inr ⟨hr, .inr ⟨hclaim, .inr ⟨hgiven, rfl⟩⟩⟩
    | claimedTarget hr hclaim => exact .inr ⟨hr, .inl ⟨hclaim, rfl⟩⟩
  · intro h
    rcases h with ⟨w, hw, ⟨ha, rfl⟩ | ⟨hs, rfl⟩⟩ | ⟨hr, ⟨hclaim, rfl⟩ | ⟨hclaim, h⟩⟩
    · exact .unallocatedOperand hw ha
    · exact .undrivenOperand hw hs
    · exact .claimedTarget hr hclaim
    · rcases h with ⟨ha, rfl⟩ | ⟨hgiven, rfl⟩
      · exact .unallocatedTarget hr ha hclaim
      · exact .givenTarget hr hgiven

/-- The reasons leave no gap: a gate has one unless its operands can be read and its target driven. -/
theorem exists_refusal_iff :
    (∃ e, c.Refusal g e) ↔ ¬ ((∀ w ∈ g.reads, c.Readable w) ∧ c.Writable g.out) := by
  by_cases hr : ∀ w ∈ g.reads, c.Readable w
  · rw [and_iff_right hr, not_writable_iff]
    constructor
    · intro h
      obtain ⟨e, h⟩ := h
      cases h with
      | unallocatedOperand hw _ => exact absurd hr (exists_firstUnreadable.mp ⟨_, hw⟩)
      | undrivenOperand hw _ => exact absurd hr (exists_firstUnreadable.mp ⟨_, hw⟩)
      | unallocatedTarget _ ha _ => exact .inl ha
      | givenTarget _ hgiven => exact .inr hgiven
      | claimedTarget _ hclaim => exact .inl (hclaim.1 ▸ not_allocated_nextWire)
    · intro h
      by_cases hclaim : c.Claims g
      · exact ⟨_, .claimedTarget hr hclaim⟩
      · rcases h with ha | hgiven
        · exact ⟨_, .unallocatedTarget hr ha hclaim⟩
        · exact ⟨_, .givenTarget hr hgiven⟩
  · obtain ⟨w, hw⟩ := exists_firstUnreadable.mpr hr
    have hstate : ¬ c.Allocated w ∨ c.state? w = some .undriven := by
      obtain ⟨-, -, -, -, hnot⟩ := hw
      exact not_readable_iff.mp hnot
    refine ⟨fun _ h => hr h.1, fun _ => ?_⟩
    rcases hstate with ha | hs
    · exact ⟨_, .unallocatedOperand hw ha⟩
    · exact ⟨_, .undrivenOperand hw hs⟩

/-! ### Gates that amount to a constant -/

/-- Folding finds a constant exactly if the constants that a gate reads decide its value. -/
theorem decides_iff {v : Bool} (hk : g.kind.isUnary = false ∨ g.kind = .inv ∧ g.x = g.y) :
    c.Decides g v ↔ c.fold? g.kind g.x g.y = some (.constant v) := by
  unfold Decides fold?
  simp only [← constantValue?_eq_some]
  obtain ⟨kind, x, y, out⟩ := g
  dsimp only at hk ⊢
  rcases hk with hk | ⟨rfl, rfl⟩
  · cases c.constantValue? x with
    | none =>
      cases c.constantValue? y with
      | none => cases kind <;> cases v <;> simp [GateKind.eval, GateKind.isUnary] at hk ⊢
      | some b => cases kind <;> cases v <;> cases b <;>
          simp [GateKind.eval, GateKind.isUnary, GateKind.foldWith] at hk ⊢
    | some a =>
      cases c.constantValue? y with
      | none => cases kind <;> cases v <;> cases a <;>
          simp [GateKind.eval, GateKind.isUnary, GateKind.foldWith] at hk ⊢
      | some b => simp
  · cases c.constantValue? x with
    | none => cases v <;> simp [GateKind.eval]
    | some a => simp [GateKind.eval]

/-- The circuit once the constant that a gate amounts to is there. -/
def afterFolding (c : Circuit) (g : Gate) : Circuit :=
  match c.fold? g.kind g.x g.y with
  | some (.constant v) => ((Build.constant v).exec c).2
  | _ => c

/-- The gate amounts to a constant for which there is no wire yet. -/
def Missing (c : Circuit) (g : Gate) (v : Bool) : Prop :=
  c.fold? g.kind g.x g.y = some (.constant v) ∧ c.constantWire? v = none

theorem Missing.afterFolding {v : Bool} (h : c.Missing g v) : c.afterFolding g = c.addConstant v := by
  unfold Circuit.afterFolding
  rw [h.1]
  simp only
  rw [Build.exec_constant, h.2]

theorem afterFolding_of_not_missing (h : ∀ v, ¬ c.Missing g v) : c.afterFolding g = c := by
  unfold Circuit.afterFolding
  split
  · rename_i v hfold
    rw [Build.exec_constant]
    cases hv : c.constantWire? v with
    | some w => rfl
    | none => exact absurd ⟨hfold, hv⟩ (h v)
  · rfl

theorem claims_iff (hc : c.WellFormed) (hk : g.kind.isUnary = false ∨ g.kind = .inv ∧ g.x = g.y) :
    c.Claims g ↔ g.out = c.nextWire ∧ ∃ v, c.Missing g v := by
  have hnone : ∀ v, (∀ w, c.state? w ≠ some (.constant v)) ↔ c.constantWire? v = none := by
    intro v
    rw [Option.eq_none_iff_forall_ne_some]
    exact forall_congr' fun w => not_congr (hc.constant_iff w v)
  unfold Claims Missing
  simp only [decides_iff hk, hnone]

/-- Once the constant is there, a target is refused as it was before, but for the position that the
constant has taken. -/
theorem requireWritable_afterFolding (hc : c.WellFormed)
    (hk : g.kind.isUnary = false ∨ g.kind = .inv ∧ g.x = g.y) :
    (c.afterFolding g).requireWritable g.out = .error e ↔
      c.Claims g ∧ e = .readOnly g.out ∨ ¬ c.Claims g ∧ c.requireWritable g.out = .error e := by
  rw [claims_iff hc hk]
  by_cases hmissing : ∃ v, c.Missing g v
  · obtain ⟨v, hv⟩ := hmissing
    rw [hv.afterFolding]
    by_cases hout : g.out = c.nextWire
    · have hstate : (c.addConstant v).state? g.out = some (.constant v) := by
        rw [state?_addConstant, if_pos hout]
      have hclaim : g.out = c.nextWire ∧ ∃ v, c.Missing g v := ⟨hout, v, hv⟩
      rw [requireWritable, hstate]
      simp only [hclaim, true_and, not_true_eq_false, false_and, or_false, Except.error.injEq]
      exact eq_comm
    · have hstate : (c.addConstant v).state? g.out = c.state? g.out := by
        rw [state?_addConstant, if_neg hout]
      simp [requireWritable, hstate, hout]
  · rw [afterFolding_of_not_missing fun v hv => hmissing ⟨v, hv⟩]
    simp [hmissing]

/-- A refused gate: what it reports, and the circuit that it leaves. -/
def RefusedTo (c : Circuit) (g : Gate) (e : Error) (c' : Circuit) : Prop :=
  c' = c ∧ (∃ w, c.FirstUnreadable g.reads w ∧ c.requireReadable w = .error e) ∨
    (∀ w ∈ g.reads, c.Readable w) ∧ c' = c.afterFolding g ∧ c'.requireWritable g.out = .error e

/-- What is reported follows from the states before the call. -/
theorem exists_refusedTo_iff (hc : c.WellFormed)
    (hk : g.kind.isUnary = false ∨ g.kind = .inv ∧ g.x = g.y) :
    (∃ c', c.RefusedTo g e c') ↔ c.Refusal g e := by
  rw [refusal_iff, ← requireWritable_afterFolding hc hk]
  unfold RefusedTo
  constructor
  · intro h
    obtain ⟨c', ⟨-, hw⟩ | ⟨hr, rfl, hout⟩⟩ := h
    · exact .inl hw
    · exact .inr ⟨hr, hout⟩
  · intro h
    rcases h with hw | ⟨hr, hout⟩
    · exact ⟨c, .inl ⟨rfl, hw⟩⟩
    · exact ⟨_, .inr ⟨hr, rfl, hout⟩⟩

/-- A refused gate leaves the circuit as it was, or with the constant that it amounts to. -/
theorem RefusedTo.eq_or_eq_addConstant (h : c.RefusedTo g e c') :
    c' = c ∨ ∃ v, c.constantWire? v = none ∧ c' = c.addConstant v := by
  rcases h with ⟨hsame, -⟩ | ⟨-, hafter, -⟩
  · exact .inl hsame
  · by_cases hmissing : ∃ v, c.Missing g v
    · obtain ⟨v, hv⟩ := hmissing
      exact .inr ⟨v, hv.2, hafter.trans hv.afterFolding⟩
    · have hsame := afterFolding_of_not_missing fun v hv => hmissing ⟨v, hv⟩
      exact .inl (hafter.trans hsame)

end Circuit

namespace Build

variable {α : Type} {c c' : Circuit} {kind : GateKind} {x y out : Wire} {g : Gate} {e : Error}

/-- A gate on wires that can be read is refused for its target only. -/
theorem exec_drive_eq_error (hx : c.Readable g.x) (hy : c.Readable g.y) :
    (drive g).exec c = (.error e, c') ↔ c' = c ∧ c'.requireWritable g.out = .error e := by
  have hgate : c.requireGate g = c.requireWritable g.out := by
    unfold Circuit.requireGate
    rw [hx, hy]
    rfl
  rw [exec_drive, hgate]
  constructor
  · intro h
    cases hout : c.requireWritable g.out with
    | ok u =>
      rw [hout] at h
      cases h
    | error e' =>
      rw [hout] at h
      cases h
      exact ⟨rfl, hout⟩
  · intro h
    obtain ⟨rfl, hout⟩ := h
    rw [hout]

theorem exec_constant_drive_eq_error (hc : c.WellFormed) {v : Bool} :
    (constant v >>= fun w => drive ⟨.copy, w, w, out⟩).exec c = (.error e, c') ↔
      c' = ((constant v).exec c).2 ∧ c'.requireWritable out = .error e := by
  obtain ⟨w, c₁, hconst⟩ := constant_succeeds c v
  have hw : c₁.Readable w := (constant_spec hc hconst).readable
  rw [exec_bind, hconst]
  exact exec_drive_eq_error (g := ⟨.copy, w, w, out⟩) hw hw

/-- A wire is checked in front of a step. -/
theorem exec_requireReadable_bind_eq_error {f : Unit → Build α} :
    (requireReadable x >>= f).exec c = (.error e, c') ↔
      c' = c ∧ c.requireReadable x = .error e ∨ c.Readable x ∧ (f ()).exec c = (.error e, c') := by
  rw [exec_bind, exec_requireReadable]
  unfold Circuit.Readable
  cases c.requireReadable x with
  | ok u => simp
  | error e' => simp [eq_comm, and_comm]

theorem requireReadable_ne_error (hx : c.Readable x) : c.requireReadable x ≠ .error e := by
  rw [hx]
  simp

/-- A gate whose operands can be read is refused for its target, once the constant it amounts to is
there. -/
theorem gateTo_target_eq_error (hc : c.WellFormed) (hk : kind.isUnary = false) (hx : c.Readable x)
    (hy : c.Readable y) : (gateTo kind x y out).exec c = (.error e, c') ↔
      c' = c.afterFolding ⟨kind, x, y, out⟩ ∧ c'.requireWritable out = .error e := by
  have hkind : kind.requireBinary = .ok () := by simp [GateKind.requireBinary, hk]
  unfold gateTo Circuit.afterFolding
  rw [exec_bind, exec_liftM, hkind]
  simp only [exec_requireReadable_bind_eq_error, exec_get_bind, requireReadable_ne_error hx,
    requireReadable_ne_error hy, hx, hy, and_false, false_or, true_and]
  cases hf : c.fold? kind x y with
  | none => exact exec_drive_eq_error (g := ⟨kind, x, y, out⟩) hx hy
  | some folded =>
    have hreads : ∀ w, folded = .same w ∨ folded = .inverted w → c.Readable w := by
      intro w hw
      rcases Circuit.mem_of_fold? hf hw with rfl | rfl
      · exact hx
      · exact hy
    cases folded with
    | constant v => exact exec_constant_drive_eq_error hc
    | same w =>
      have hw : c.Readable w := hreads w (.inl rfl)
      by_cases he : w = out
      · simp only [he, ↓reduceIte]
        rw [exec_requireWritable, Prod.mk.injEq, eq_comm (a := c), and_comm]
        exact and_congr_right fun h => by rw [h]
      · simp only [he, ↓reduceIte]
        exact exec_drive_eq_error (g := ⟨.copy, w, w, out⟩) hw hw
    | inverted w =>
      have hw : c.Readable w := hreads w (.inr rfl)
      exact exec_drive_eq_error (g := ⟨.inv, w, w, out⟩) hw hw

/-- **A gate of two inputs is refused for an operand or for its target.** -/
theorem gateTo_eq_error (hc : c.WellFormed) (hk : kind.isUnary = false) :
    (gateTo kind x y out).exec c = (.error e, c') ↔ c.RefusedTo ⟨kind, x, y, out⟩ e c' := by
  have hkind : kind.requireBinary = .ok () := by simp [GateKind.requireBinary, hk]
  have hreads : (⟨kind, x, y, out⟩ : Gate).reads = [x, y] := by simp [Gate.reads, hk]
  unfold Circuit.RefusedTo
  simp only [hreads, Circuit.firstUnreadable_cons, Circuit.firstUnreadable_nil, List.forall_mem_cons]
  by_cases hx : c.Readable x
  · by_cases hy : c.Readable y
    · rw [gateTo_target_eq_error hc hk hx hy]
      simp [hx, hy]
    · unfold gateTo
      rw [exec_bind, exec_liftM, hkind]
      simp [exec_requireReadable_bind_eq_error, requireReadable_ne_error, hx, hy]
  · unfold gateTo
    rw [exec_bind, exec_liftM, hkind]
    simp [exec_requireReadable_bind_eq_error, hx]

theorem invTo_target_eq_error (hc : c.WellFormed) (hx : c.Readable x) :
    (invTo x out).exec c = (.error e, c') ↔
      c' = c.afterFolding ⟨.inv, x, x, out⟩ ∧ c'.requireWritable out = .error e := by
  unfold invTo Circuit.afterFolding Circuit.fold?
  rw [exec_requireReadable_bind_eq_error, exec_get_bind]
  simp only [requireReadable_ne_error hx, hx, and_false, false_or, true_and]
  cases hv : c.constantValue? x with
  | some v => exact exec_constant_drive_eq_error hc
  | none => exact exec_drive_eq_error (g := ⟨.inv, x, x, out⟩) hx hx

/-- An inverter is refused for its operand or for its target. -/
theorem invTo_eq_error (hc : c.WellFormed) :
    (invTo x out).exec c = (.error e, c') ↔ c.RefusedTo ⟨.inv, x, x, out⟩ e c' := by
  have hreads : (⟨.inv, x, x, out⟩ : Gate).reads = [x] := rfl
  unfold Circuit.RefusedTo
  simp only [hreads, Circuit.firstUnreadable_cons, Circuit.firstUnreadable_nil, List.forall_mem_cons]
  by_cases hx : c.Readable x
  · rw [invTo_target_eq_error hc hx]
    simp [hx]
  · unfold invTo
    simp [exec_requireReadable_bind_eq_error, hx]

/-! ### Why a gate is refused -/

theorem exists_exec_eq_ok_iff {step : Build Unit} :
    (∃ c', step.exec c = (.ok (), c')) ↔ ¬ ∃ e, step.Refuses c e := by
  unfold Refuses
  rcases step.exec c with ⟨r, c'⟩
  cases r with
  | ok u => simp
  | error e => simp

theorem refuses_iff {step : Build Unit} : step.Refuses c e ↔ ∃ c', step.exec c = (.error e, c') := by
  unfold Refuses
  rcases step.exec c with ⟨r, c'⟩
  simp

theorem gateTo_refuses_iff (hc : c.WellFormed) : (gateTo kind x y out).Refuses c e ↔
    if kind.isUnary then e = .unaryKind kind else c.Refusal ⟨kind, x, y, out⟩ e := by
  by_cases hk : kind.isUnary = true
  · rw [if_pos hk]
    have hrefused : (gateTo kind x y out).Refuses c (.unaryKind kind) :=
      .checked (by simp [GateKind.requireBinary, hk])
    unfold Refuses at hrefused ⊢
    rw [hrefused]
    simp [eq_comm]
  · have hbinary : kind.isUnary = false := by simpa using hk
    rw [if_neg hk, refuses_iff, ← Circuit.exists_refusedTo_iff hc (.inl hbinary)]
    exact exists_congr fun c' => gateTo_eq_error hc hbinary

theorem invTo_refuses_iff (hc : c.WellFormed) :
    (invTo x out).Refuses c e ↔ c.Refusal ⟨.inv, x, x, out⟩ e := by
  rw [refuses_iff, ← Circuit.exists_refusedTo_iff hc (.inr ⟨rfl, rfl⟩)]
  exact exists_congr fun c' => invTo_eq_error hc

end Build

/-- **The refusal of a gate follows from the states of the wires before the call.** A kind with one input
is refused as such; otherwise the report is about the first operand without a value, or else about the
target; and a gate is appended in all other cases. An inverter is refused in the same way. -/
theorem gate_refusals_follow_state {c : Circuit} (hc : Reachable c) (kind : GateKind) (x y out : Wire) :
    ((∀ e, (Build.gateTo kind x y out).Refuses c e ↔
        if kind.isUnary then e = .unaryKind kind else c.Refusal ⟨kind, x, y, out⟩ e) ∧
      ((∃ c', (Build.gateTo kind x y out).exec c = (.ok (), c')) ↔
        kind.isUnary = false ∧ c.Readable x ∧ c.Readable y ∧ c.Writable out)) ∧
    (∀ e, (Build.invTo x out).Refuses c e ↔ c.Refusal ⟨.inv, x, x, out⟩ e) ∧
      ((∃ c', (Build.invTo x out).exec c = (.ok (), c')) ↔ c.Readable x ∧ c.Writable out) := by
  have hwf := hc.wellFormed
  refine ⟨⟨fun e => Build.gateTo_refuses_iff hwf, ?_⟩, fun e => Build.invTo_refuses_iff hwf, ?_⟩
  · rw [Build.exists_exec_eq_ok_iff]
    simp only [Build.gateTo_refuses_iff hwf]
    by_cases hk : kind.isUnary = true
    · simp [hk]
    · have hreads : (⟨kind, x, y, out⟩ : Gate).reads = [x, y] := by simp [Gate.reads, hk]
      simp only [hk, Bool.false_eq_true, ↓reduceIte, true_and, Circuit.exists_refusal_iff, not_not, hreads]
      simp [and_assoc]
  · rw [Build.exists_exec_eq_ok_iff]
    have hreads : (⟨.inv, x, x, out⟩ : Gate).reads = [x] := rfl
    simp only [Build.invTo_refuses_iff hwf, Circuit.exists_refusal_iff, not_not, hreads]
    simp

/-- A gate whose second operand is not driven and whose target does not exist: the report is about the
operand. The constant one, for which there is no wire yet, is accepted on an output. -/
theorem gate_refusals_follow_state_operand :
    ∃ c : Circuit, Reachable c ∧ c.state? ⟨1⟩ = some .undriven ∧ ¬ c.Allocated ⟨9⟩ ∧
      (Build.gateTo .or ⟨0⟩ ⟨1⟩ ⟨9⟩).Refuses c (.undriven ⟨1⟩) ∧ c.trueWire = none ∧
      ∃ c', (Build.gateTo .nxor ⟨2⟩ ⟨2⟩ ⟨1⟩).exec c = (.ok (), c') := by
  have hc : Reachable (Call.afterAll [.addInput 1, .addOutput 1, .constant false]) :=
    reachable_afterAll (by simp [Call.template?])
  obtain ⟨⟨hor, -⟩, -⟩ := gate_refusals_follow_state hc .or ⟨0⟩ ⟨1⟩ ⟨9⟩
  obtain ⟨⟨-, hnxor⟩, -⟩ := gate_refusals_follow_state hc .nxor ⟨2⟩ ⟨2⟩ ⟨1⟩
  refine ⟨_, hc, by decide, by decide, (hor _).mpr ?_, by decide, hnxor.mpr ?_⟩
  · exact .undrivenOperand ⟨[⟨0⟩], [], rfl, by decide, by decide⟩ (by decide)
  · exact ⟨rfl, by decide, by decide, by decide⟩

/-- The complement of the constant zero on the position after the last wire: that position becomes the
constant one, and the report is that it must not be driven, though the wire did not exist. -/
theorem refusal_blames_new_constant :
    ∃ c : Circuit, Reachable c ∧ c.Readable ⟨0⟩ ∧ ¬ c.Allocated ⟨1⟩ ∧
      (Build.invTo ⟨0⟩ ⟨1⟩).Refuses c (.readOnly ⟨1⟩) ∧
      (Build.gateTo .nxor ⟨0⟩ ⟨0⟩ ⟨1⟩).Refuses c (.readOnly ⟨1⟩) := by
  refine ⟨Call.afterAll [.constant false], ?_, by decide, by decide, by decide, by decide⟩
  exact reachable_afterAll (by simp [Call.template?])

/-! ### What a refused gate leaves -/

namespace Circuit

variable {c c' : Circuit} {v : Bool}

/-- The circuit as it was, or with one wire more: a constant that was missing and is remembered. -/
structure SameButConstant (c c' : Circuit) : Prop where
  gates : c'.gates = c.gates
  inputs : c'.inputs = c.inputs
  outputs : c'.outputs = c.outputs
  temps : c'.temps = c.temps
  state : ∀ w, c.Allocated w → c'.state? w = c.state? w
  wires : c' = c ∨ ∃ v, c'.wires.size = c.wires.size + 1 ∧ c.constantWire? v = none ∧
    c'.state? c.nextWire = some (.constant v) ∧ c'.constantWire? v = some c.nextWire ∧
    c'.constantWire? (!v) = c.constantWire? (!v)

theorem SameButConstant.refl (c : Circuit) : c.SameButConstant c :=
  ⟨rfl, rfl, rfl, rfl, fun _ _ => rfl, .inl rfl⟩

theorem sameButConstant_addConstant (hv : c.constantWire? v = none) :
    c.SameButConstant (c.addConstant v) := by
  obtain ⟨hgates, hin, hout, htemps⟩ := addConstant_eq (c := c) v
  have hsize : (c.addConstant v).wires.size = c.wires.size + 1 := by
    cases v <;> simp [addConstant, addWire]
  refine ⟨hgates, hin, hout, htemps, fun w hw => state?_addConstant_of_allocated hw, .inr ⟨v, hsize, hv, ?_⟩⟩
  simp [state?_addConstant, constantWire?_addConstant]

theorem SameButConstant.extends (h : c.SameButConstant c') : c.Extends ∅ c' where
  state w s hs := .inl ((h.state w (allocated_iff.mpr ⟨s, hs⟩)).trans hs)
  gates := ⟨[], by simp [h.gates]⟩
  inputs := h.inputs
  outputs := h.outputs
  temps := h.temps ▸ List.prefix_refl _

/-- What a refused gate leaves differs by a constant at most. -/
theorem RefusedTo.sameButConstant {g : Gate} {e : Error} (h : c.RefusedTo g e c') :
    c.SameButConstant c' := by
  rcases h.eq_or_eq_addConstant with rfl | ⟨v, hv, rfl⟩
  · exact .refl _
  · exact sameButConstant_addConstant hv

/-- **A constant more does not show in any evaluation**, whether it has a result or is refused. -/
theorem SameButConstant.evalBits_eq (h : c.SameButConstant c') (hc : c.WellFormed)
    (hc' : c'.WellFormed) (inputs : List (List Bool)) : c'.evalBits inputs = c.evalBits inputs := by
  have hallocated : ∀ w ∈ c.outputs.flatten, c.Allocated w := fun w hw =>
    (hc.writable w (List.mem_append_left _ hw)).allocated
  have hchecks : c'.outputs.flatten.forM c'.requireReadable = c.outputs.flatten.forM c.requireReadable := by
    rw [h.outputs]
    refine forM_congr fun w hw => ?_
    unfold requireReadable
    rw [h.state w (hallocated w hw)]
  by_cases hcount : inputs.length = c.inputs.length
  case neg =>
    unfold evalBits
    rw [h.inputs, if_pos hcount, if_pos hcount]
    rfl
  by_cases hread : ∀ w ∈ c.outputs.flatten, c.Readable w
  case neg =>
    cases hforM : c.outputs.flatten.forM c.requireReadable with
    | ok u => exact absurd (forM_eq_ok.mp hforM) hread
    | error e =>
      unfold evalBits
      rw [h.inputs, hchecks, hforM, if_neg (not_not.mpr hcount), if_neg (not_not.mpr hcount)]
      rfl
  by_cases hwidths : inputs.map List.length = c.inputs.map List.length
  · obtain ⟨input, rfl⟩ := exists_input hc hwidths
    have hread' : ∀ w ∈ c'.outputs.flatten, c'.Readable w := by
      rw [h.outputs]
      exact fun w hw => h.extends.readable (hread w hw)
    have hvalues : ∀ b ∈ c.outputs, b.map (c'.value input) = b.map (c.value input) := by
      intro b hb
      refine List.map_congr_left fun w hw => ?_
      exact h.extends.value_eq hc (hallocated w (List.mem_flatten.mpr ⟨b, hb, hw⟩)) (Set.notMem_empty w)
    calc c'.evalBits (c.inputs.map fun b => b.map input)
        = c'.evalBits (c'.inputs.map fun b => b.map input) := by rw [h.inputs]
      _ = .ok (c'.outputs.map fun b => b.map (c'.value input)) := evalBits_eq_value hc' hread' input
      _ = .ok (c.outputs.map fun b => b.map (c.value input)) := by
        rw [h.outputs, List.map_congr_left hvalues]
      _ = c.evalBits (c.inputs.map fun b => b.map input) := (evalBits_eq_value hc hread input).symm
  · have hnodup : c.inputs.flatten.Nodup := hc.nodup.of_append_left.of_append_left
    obtain ⟨got, needed, hbind⟩ := foldlM_bindInput_of_width_ne c.inputs inputs hcount hnodup hwidths
    have hrefused : ∀ d : Circuit, d.WellFormed → d.inputs = c.inputs →
        (c.inputs.zip inputs).foldlM bindInput d.initialValues = .error (.widthMismatch got needed) := by
      intro d hd hin
      obtain ⟨v, hv⟩ := exists_eq_valueTable d.initialValues
      rw [hv]
      refine hbind _ v fun w hw => ?_
      rw [(initial_initialValues d).size]
      exact allocated_iff.mpr ⟨_, (hd.input_iff w).mpr (hin ▸ hw)⟩
    unfold evalBits
    rw [h.inputs, hchecks, hrefused c hc rfl, hrefused c' hc' h.inputs, h.gates, h.outputs]

end Circuit

namespace Build

variable {α : Type} {c c' : Circuit} {kind : GateKind} {x y out : Wire} {e : Error}

/-- A step that succeeds once its operands are checked leaves the circuit alone when it is refused. -/
theorem exec_checks_eq_error {f : Build α} (hf : kind.isUnary = false → c.Readable x → c.Readable y →
      ∃ a c₁, f.exec c = (.ok a, c₁))
    (h : (liftM kind.requireBinary >>= fun _ => requireReadable x >>= fun _ =>
      requireReadable y >>= fun _ => f).exec c = (.error e, c')) : c' = c := by
  rw [exec_bind, exec_liftM] at h
  unfold GateKind.requireBinary at h
  by_cases hk : kind.isUnary = true
  · rw [if_pos hk] at h
    exact (Prod.mk.inj h).2.symm
  · rw [if_neg hk] at h
    simp only [exec_requireReadable_bind_eq_error] at h
    rcases h with ⟨hsame, -⟩ | ⟨hx, ⟨hsame, -⟩ | ⟨hy, h⟩⟩
    · exact hsame
    · exact hsame
    · obtain ⟨a, c₁, hok⟩ := hf (by simpa using hk) hx hy
      rw [hok] at h
      cases h

theorem gate_eq_error (hc : c.WellFormed) (h : (gate kind x y).exec c = (.error e, c')) : c' = c := by
  refine exec_checks_eq_error (fun hk hx hy => ?_) h
  obtain ⟨w, c₁, hok⟩ := gate_succeeds hc hk hx hy
  exact ⟨w, c₁, (exec_checks_eq_ok.mp hok).2.2.2⟩

theorem inv_eq_error (hc : c.WellFormed) (h : (inv x).exec c = (.error e, c')) : c' = c := by
  by_cases hx : c.Readable x
  · obtain ⟨w, c₁, hok⟩ := inv_succeeds hc hx
    rw [hok] at h
    cases h
  · rcases exec_requireReadable_bind_eq_error.mp h with ⟨hsame, -⟩ | ⟨hx', -⟩
    · exact hsame
    · exact absurd hx' hx

theorem copyTo_eq_error (h : (copyTo x out).exec c = (.error e, c')) : c' = c := by
  unfold copyTo at h
  by_cases he : x = out
  · rw [if_pos he] at h
    rcases exec_requireReadable_bind_eq_error.mp h with ⟨hsame, -⟩ | ⟨-, h⟩
    · exact hsame
    · exact (Prod.mk.inj h).2.symm
  · rw [if_neg he, exec_drive] at h
    cases hgate : Circuit.requireGate c ⟨.copy, x, x, out⟩ with
    | ok u =>
      rw [hgate] at h
      cases h
    | error e' =>
      rw [hgate] at h
      exact (Prod.mk.inj h).2.symm

/-- A refused gate leaves the circuit as it was, but for a constant. -/
theorem gateTo_sameButConstant (hc : c.WellFormed)
    (h : (gateTo kind x y out).exec c = (.error e, c')) : c.SameButConstant c' := by
  by_cases hk : kind.isUnary = true
  · have hsame : c' = c := by
      refine exec_checks_eq_error (fun hk' => ?_) h
      rw [hk] at hk'
      cases hk'
    exact hsame ▸ .refl c
  · exact ((gateTo_eq_error hc (by simpa using hk)).mp h).sameButConstant

theorem invTo_sameButConstant (hc : c.WellFormed)
    (h : (invTo x out).exec c = (.error e, c')) : c.SameButConstant c' :=
  ((invTo_eq_error hc).mp h).sameButConstant

end Build

/-- **A refused gate leaves the meaning of the circuit alone.** A gate on a new wire and a copy leave the
circuit itself; a gate and an inverter on a given wire may leave one wire more, the constant they asked
for. Every evaluation ends as it did before. -/
theorem refused_gates_keep_meaning {c : Circuit} (hc : Reachable c) (kind : GateKind) (x y out : Wire) :
    (∀ e c', (Build.gate kind x y).exec c = (.error e, c') → c' = c) ∧
    (∀ e c', (Build.inv x).exec c = (.error e, c') → c' = c) ∧
    (∀ e c', (Build.copyTo x out).exec c = (.error e, c') → c' = c) ∧
    ∀ e c', (Build.gateTo kind x y out).exec c = (.error e, c') ∨
        (Build.invTo x out).exec c = (.error e, c') →
      c.SameButConstant c' ∧ ∀ inputs, c'.evalBits inputs = c.evalBits inputs := by
  have hwf := hc.wellFormed
  refine ⟨fun e c' => Build.gate_eq_error hwf, fun e c' => Build.inv_eq_error hwf,
    fun e c' => Build.copyTo_eq_error, fun e c' h => ?_⟩
  obtain ⟨hsame, hwf'⟩ : c.SameButConstant c' ∧ c'.WellFormed := by
    rcases h with hgate | hinv
    · have hafter : (Call.gateTo kind x y out).after c = c' := congrArg Prod.snd hgate
      exact ⟨Build.gateTo_sameButConstant hwf hgate, hafter ▸ Call.wellFormed _ hwf⟩
    · have hafter : (Call.invTo x out).after c = c' := congrArg Prod.snd hinv
      exact ⟨Build.invTo_sameButConstant hwf hinv, hafter ▸ Call.wellFormed _ hwf⟩
  exact ⟨hsame, hsame.evalBits_eq hwf hwf'⟩

/-- The complement of the constant zero on an input: the input is refused, the constant one stays behind,
and the circuit still copies its input. -/
theorem refused_gates_keep_meaning_constant :
    ∃ c c' : Circuit, Reachable c ∧ (Build.invTo ⟨2⟩ ⟨0⟩).exec c = (.error (.readOnly ⟨0⟩), c') ∧
      c'.wires.size = c.wires.size + 1 ∧ c.SameButConstant c' ∧ c'.evalBits [[true]] = .ok [[true]] := by
  have hc : Reachable (Call.afterAll [.addInput 1, .addOutput 1, .constant false, .copyTo ⟨0⟩ ⟨1⟩]) :=
    reachable_afterAll (by simp [Call.template?])
  obtain ⟨-, -, -, hrefused⟩ := refused_gates_keep_meaning hc .inv ⟨2⟩ ⟨2⟩ ⟨0⟩
  obtain ⟨hsame, heval⟩ := hrefused (.readOnly ⟨0⟩) _ (.inr (by rfl))
  exact ⟨_, _, hc, rfl, by decide, hsame, (heval _).trans (by decide +kernel)⟩

end BitCircuit
