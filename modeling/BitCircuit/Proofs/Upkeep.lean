/-
# What the steps of operations keep

Operations put together a few steps: they allocate wires, temporaries and constants and append
gates with constants folded. So a property of circuits that these steps keep
(`Upheld I free`, where gates drive only wires in `free`) is kept by every operation that is
given free wires to write to, whether the operation is refused or not. The wires it allocates
on its way are free as well. An operation that works in place allocates only constants, so it keeps
more (`UpheldInPlace`). This module has the steps that append a gate.

Key definitions: `Upheld`, `UpheldInPlace`.
Key theorems: `Build.inPlace_gateTo`, `Build.inPlace_invTo`, `Build.inPlace_copyTo`,
`Build.keeps_gate`, `Build.keeps_gateTo`, `Build.keeps_inv`, `Build.keeps_invTo`, `Build.keeps_copyTo`.
-/
import BitCircuit.Circuit.Folding
import BitCircuit.Proofs.Bundle
import BitCircuit.Proofs.WellFormed

namespace BitCircuit

/-- The steps of operations keep `I` as long as they drive only wires in `free`, and to these
belong all wires that are not allocated yet. -/
structure Upheld (I : Circuit → Prop) (free : Set Wire) : Prop where
  step : ∀ {c c' : Circuit}, c.Step free c' → I c → I c'
  fresh : ∀ {c : Circuit} {w : Wire}, I c → ¬ c.Allocated w → w ∈ free

/-- The steps that allocate nothing but constants keep `I` as long as they drive only wires in
`free`. -/
structure UpheldInPlace (I : Circuit → Prop) (free : Set Wire) : Prop where
  constant : ∀ {c : Circuit} (v : Bool), c.constantWire? v = none → I c → I (c.addConstant v)
  gate : ∀ {c : Circuit} {g : Gate}, c.requireGate g = .ok () → c.Simplified g → g.RepeatsInput →
    g.out ∈ free → I c → I (c.pushGate g)

theorem Upheld.inPlace {I : Circuit → Prop} {free : Set Wire} (h : Upheld I free) :
    UpheldInPlace I free :=
  ⟨fun v hv hc => h.step (.constant v hv) hc, fun hr hs hin hout hc => h.step (.gate _ hr hs hin hout) hc⟩

namespace Circuit

variable {c : Circuit} {kind : GateKind} {x y w : Wire}

theorem constantValue?_addWire : (c.addWire .undriven).constantValue? w = c.constantValue? w := by
  unfold constantValue?
  rw [state?_addWire]
  by_cases h : w = c.nextWire
  · subst h
    rw [if_pos rfl, state?_eq_none.mpr not_allocated_nextWire]
  · rw [if_neg h]

/-- A gate that does not fold reads no constant. -/
theorem simplified_of_fold?_eq_none (out : Wire) (hk : kind.requireBinary = .ok ())
    (h : c.fold? kind x y = none) : c.Simplified ⟨kind, x, y, out⟩ := by
  unfold fold? at h
  split at h
  · cases h
  · exfalso
    rename_i vx _ _
    cases kind <;> cases vx <;> simp [GateKind.foldWith, GateKind.requireBinary, GateKind.isUnary] at h hk
  · exfalso
    rename_i vy _ _
    cases kind <;> cases vy <;> simp [GateKind.foldWith, GateKind.requireBinary, GateKind.isUnary] at h hk
  · rename_i hx hy
    exact .inr ⟨hx, hy⟩

theorem foldWith_eq_inverted {v : Bool} (h : kind.foldWith x v = some (.inverted w)) : w = x := by
  cases kind <;> cases v <;> simp_all [GateKind.foldWith]

/-- A wire that folding inverts is no constant. -/
theorem constantValue?_of_fold?_eq_inverted (h : c.fold? kind x y = some (.inverted w)) :
    c.constantValue? w = none := by
  unfold fold? at h
  split at h
  · cases h
  · rename_i hy
    rwa [foldWith_eq_inverted h]
  · rename_i hx _
    rwa [foldWith_eq_inverted h]
  · cases h

end Circuit

namespace Build

variable {α : Type} {I : Circuit → Prop} {free : Set Wire} {kind : GateKind} {x y out : Wire}

/-! ### Steps -/

/-- A gate with two inputs has none to repeat. -/
theorem repeatsInput_of_requireBinary (hk : kind.requireBinary = .ok ()) :
    (⟨kind, x, y, out⟩ : Gate).RepeatsInput := by
  intro hunary
  simp [GateKind.requireBinary, show kind.isUnary = true from hunary] at hk

theorem keeps_requireReadable (w : Wire) : Keeps I (requireReadable w) fun _ => True :=
  Keeps.of_get fun _ hc => ⟨hc, fun _ _ => trivial⟩

theorem keeps_requireWritable (w : Wire) : Keeps I (requireWritable w) fun _ => True :=
  Keeps.of_get fun _ hc => ⟨hc, fun _ _ => trivial⟩

section InPlace

variable (hI : UpheldInPlace I free)
include hI

theorem inPlace_constant (v : Bool) : Keeps I (constant v) fun _ => True := by
  intro c hc
  rw [exec_constant]
  cases hv : c.constantWire? v with
  | some w => exact ⟨hc, fun _ _ => trivial⟩
  | none => exact ⟨hI.constant v hv hc, fun _ _ => trivial⟩

/-- A gate that is folded in the circuit it is appended to. -/
theorem drive_inPlace {g : Gate} {c : Circuit} (hc : I c) (hg : c.Simplified g) (hin : g.RepeatsInput)
    (hout : g.out ∈ free) : I ((drive g).exec c).2 := by
  rw [exec_drive]
  cases hr : c.requireGate g with
  | ok u => exact hI.gate hr hg hin hout hc
  | error e => exact hc

theorem inPlace_copy {w : Wire} (hout : out ∈ free) :
    Keeps I (drive ⟨.copy, w, w, out⟩) fun _ => True :=
  fun _ hc => ⟨drive_inPlace hI hc (.inl rfl) (fun _ => rfl) hout, fun _ _ => trivial⟩

theorem inPlace_invTo (hout : out ∈ free) : Keeps I (invTo x out) fun _ => True := by
  unfold invTo
  refine .after (keeps_requireReadable x) fun _ => .of_get fun c hc => ?_
  cases hv : c.constantValue? x with
  | some v => exact (inPlace_constant hI (!v)).after (fun w => inPlace_copy hI hout) c hc
  | none => exact ⟨drive_inPlace hI hc (.inr ⟨hv, hv⟩) (fun _ => rfl) hout, fun _ _ => trivial⟩

theorem inPlace_copyTo (hout : out ∈ free) : Keeps I (copyTo x out) fun _ => True := by
  unfold copyTo
  split
  · exact .after (keeps_requireReadable x) fun _ => keeps_requireWritable out
  · exact inPlace_copy hI hout

theorem inPlace_gateTo (hout : out ∈ free) : Keeps I (gateTo kind x y out) fun _ => True := by
  unfold gateTo
  refine .bind (Keeps.check fun _ h => h) fun _ hk => ?_
  refine .after (keeps_requireReadable x) fun _ => .after (keeps_requireReadable y) fun _ => ?_
  refine .of_get fun c hc => ?_
  cases hf : c.fold? kind x y with
  | none =>
    have hsimple := Circuit.simplified_of_fold?_eq_none out hk hf
    exact ⟨drive_inPlace hI hc hsimple (repeatsInput_of_requireBinary hk) hout, fun _ _ => trivial⟩
  | some f =>
    cases f with
    | constant v => exact (inPlace_constant hI v).after (fun w => inPlace_copy hI hout) c hc
    | same w =>
      simp only
      split
      · exact keeps_requireWritable out c hc
      · exact inPlace_copy hI hout c hc
    | inverted w =>
      have hw := Circuit.constantValue?_of_fold?_eq_inverted hf
      exact ⟨drive_inPlace hI hc (.inr ⟨hw, hw⟩) (fun _ => rfl) hout, fun _ _ => trivial⟩

end InPlace

section

variable (hI : Upheld I free)
include hI

theorem keeps_constant (v : Bool) : Keeps I (constant v) fun _ => True :=
  inPlace_constant hI.inPlace v

theorem keeps_invTo (hout : out ∈ free) : Keeps I (invTo x out) fun _ => True :=
  inPlace_invTo hI.inPlace hout

theorem keeps_copyTo (hout : out ∈ free) : Keeps I (copyTo x out) fun _ => True :=
  inPlace_copyTo hI.inPlace hout

theorem keeps_gateTo (hout : out ∈ free) : Keeps I (gateTo kind x y out) fun _ => True :=
  inPlace_gateTo hI.inPlace hout

theorem keeps_newWire : Keeps I newWire (· ∈ free) := by
  intro c hc
  rw [exec_newWire]
  refine ⟨?_, fun w hw => ?_⟩
  · rw [Circuit.addWire_eq]
    exact hI.step (.wires 1) hc
  · cases hw
    exact hI.fresh hc Circuit.not_allocated_nextWire

theorem keeps_newBundle (n : Nat) : Keeps I (newBundle n) fun b => ∀ w ∈ b, w ∈ free := by
  intro c hc
  unfold newBundle
  rw [exec_allocate]
  split
  · refine ⟨hI.step (.wires n) hc, fun b hb w hw => ?_⟩
    cases hb
    exact hI.fresh hc (Circuit.mem_nextBundle.mp hw).1
  · exact ⟨hc, fun b hb => by cases hb⟩

theorem keeps_addTemps (n : Nat) : Keeps I (addTemps n) fun b => ∀ w ∈ b, w ∈ free := by
  intro c hc
  rw [Circuit.exec_addTemps]
  split
  · refine ⟨hI.step (.temps n) hc, fun b hb w hw => ?_⟩
    cases hb
    exact hI.fresh hc (Circuit.mem_nextBundle.mp hw).1
  · exact ⟨hc, fun b hb => by cases hb⟩

theorem keeps_constantBundle (v : Word) (n : Nat) :
    Keeps I (constantBundle v n) fun _ => True := by
  unfold constantBundle
  refine .after .checked fun _ => ?_
  exact (Keeps.mapM fun b _ => keeps_constant hI b).any

/-- A new wire driven by a gate that reads no constant. -/
theorem newWire_drive_keeps {c : Circuit} (hc : I c) (hx : c.constantValue? x = none)
    (hy : c.constantValue? y = none) (hin : ∀ out, (⟨kind, x, y, out⟩ : Gate).RepeatsInput) :
    I ((newWire >>= fun out => drive ⟨kind, x, y, out⟩ >>= fun _ => pure out).exec c).2 := by
  have hnew := keeps_newWire hI c hc
  rw [exec_bind, exec_newWire]
  rw [exec_newWire] at hnew
  have hdrive := drive_inPlace hI.inPlace hnew.1 (g := ⟨kind, x, y, c.nextWire⟩)
    (.inr ⟨Circuit.constantValue?_addWire.trans hx, Circuit.constantValue?_addWire.trans hy⟩)
    (hin _) (hnew.2 _ rfl)
  simp only
  rw [exec_bind]
  rcases hr : (drive ⟨kind, x, y, c.nextWire⟩).exec (c.addWire .undriven) with ⟨r, c'⟩
  rw [hr] at hdrive
  cases r with
  | ok u => exact hdrive
  | error e => exact hdrive

theorem keeps_inv : Keeps I (inv x) fun _ => True := by
  unfold inv
  refine .after (keeps_requireReadable x) fun _ => .of_get fun c hc => ?_
  cases hv : c.constantValue? x with
  | some v => exact keeps_constant hI (!v) c hc
  | none => exact ⟨newWire_drive_keeps hI hc hv hv fun _ _ => rfl, fun _ _ => trivial⟩

theorem keeps_gate : Keeps I (gate kind x y) fun _ => True := by
  unfold gate
  refine .bind (Keeps.check fun _ h => h) fun _ hk => ?_
  refine .after (keeps_requireReadable x) fun _ => .after (keeps_requireReadable y) fun _ => ?_
  refine .of_get fun c hc => ?_
  cases hf : c.fold? kind x y with
  | none =>
    rcases Circuit.simplified_of_fold?_eq_none x hk hf with he | ⟨hx, hy⟩
    · simp only at he
      subst he
      cases hk
    · exact ⟨newWire_drive_keeps hI hc hx hy fun _ => repeatsInput_of_requireBinary hk, fun _ _ => trivial⟩
  | some f =>
    cases f with
    | constant v => exact keeps_constant hI v c hc
    | same w => exact ⟨hc, fun _ _ => trivial⟩
    | inverted w => exact keeps_inv hI c hc

end

end Build
end BitCircuit
