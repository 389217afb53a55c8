/-
# Steps that write to a wire

`Build.Writes x w` says that on every circuit the step `x` is refused or leaves `w` writable: it wrote
to `w`, so at that moment the wire was there and was neither an input nor a constant, and nothing takes
this away later. On a circuit where `w` cannot be written to, such a step is refused if it makes no wire
writable on its way (`Writes.refused`). This module has the rules that put such steps together and the
steps that drive a wire they are given.

Key definitions: `Build.Writes`.
Key theorems: `Build.Writes.kept`, `Build.Writes.forM`, `Build.Writes.forM_inStep`,
`Build.Writes.refused`, `Build.writes_gateTo`, `Build.writes_invTo`, `Build.writes_copyTo`.
-/
import BitCircuit.Proofs.Folding
import BitCircuit.Proofs.Upkeep

namespace BitCircuit

namespace Circuit

/-- A writable wire stays writable. -/
theorem upheld_writable (w : Wire) : Upheld (fun c => c.Writable w) Set.univ :=
  ⟨fun hs hc => hs.extends.writable hc, fun _ _ => Set.mem_univ _⟩

section

variable {c : Circuit} {w : Wire}

theorem writable_addConstant {v : Bool} (h : (c.addConstant v).Writable w) : c.Writable w := by
  rw [writable_iff, state?_addConstant] at h
  split at h
  · simp at h
  · exact writable_iff.mpr h

theorem writable_pushGate {g : Gate} (hg : c.requireGate g = .ok ()) (h : (c.pushGate g).Writable w) :
    c.Writable w := by
  have hout := (requireGate_eq_ok.mp hg).2.2
  rw [writable_iff, state?_pushGate hout.allocated] at h
  split at h
  · rename_i hw
    exact hw ▸ hout
  · exact writable_iff.mpr h

theorem writable_addWires {s : WireState} {n : Nat} (h : (c.addWires s n).Writable w) :
    w ∈ c.nextBundle n ∨ c.Writable w := by
  rw [writable_iff, state?_addWires] at h
  split at h
  · rename_i hw
    exact .inl hw
  · exact .inr (writable_iff.mpr h)

end

/-- Only the allocation of wires makes a wire writable: a constant is not, and a gate has to drive a
wire that already is. -/
theorem upheldInPlace_not_writable (w : Wire) : UpheldInPlace (fun c => ¬ c.Writable w) Set.univ :=
  ⟨fun _ _ hc h => hc (writable_addConstant h), fun hg _ _ _ hc h => hc (writable_pushGate hg h)⟩

end Circuit

namespace Build

variable {α β : Type} {w : Wire}

/-- The step is refused or leaves `w` writable, on every circuit. -/
def Writes (x : Build α) (w : Wire) : Prop :=
  ∀ ⦃c : Circuit⦄ ⦃a : α⦄ ⦃c' : Circuit⦄, x.exec c = (.ok a, c') → c'.Writable w

namespace Writes

theorem throw {e : Error} : Writes (throw e : Build α) w :=
  fun _ _ _ h => (exec_throw_eq_ok.mp h).elim

/-- A later step writes to the wire. -/
theorem after {x : Build α} {f : α → Build β} (h : ∀ a, Writes (f a) w) : Writes (x >>= f) w := by
  intro c b c' hx
  obtain ⟨a, c₁, -, hf⟩ := exec_bind_eq_ok.mp hx
  exact h a hf

/-- A step behind a check writes to the wire. -/
theorem checked {check : Except Error α} {f : α → Build β}
    (h : ∀ a, check = .ok a → Writes (f a) w) : Writes ((liftM check : Build α) >>= f) w := by
  intro c b c' hx
  obtain ⟨a, ha, hf⟩ := exec_check_bind.mp hx
  exact h a ha hf

/-- The first step writes to the wire, and the others keep it writable. -/
theorem kept {x : Build α} {f : α → Build β} (hx : Writes x w)
    (hf : ∀ a, Keeps (fun c => c.Writable w) (f a) fun _ => True) : Writes (x >>= f) w := by
  intro c b c' h
  obtain ⟨a, c₁, h₁, h₂⟩ := exec_bind_eq_ok.mp h
  exact (hf a).of_exec h₂ (hx h₁)

/-- One pass of a loop writes to the wire, and all of them keep it writable. -/
theorem forM {f : α → Build Unit} {p : α} (hp : Writes (f p) w)
    (hf : ∀ q, Keeps (fun c => c.Writable w) (f q) fun _ => True) :
    ∀ {l : List α}, p ∈ l → Writes (l.forM f) w
  | q :: l, hmem => by
    rw [List.forM_eq_forM, List.forM_cons]
    rcases List.mem_cons.mp hmem with rfl | hmem
    · exact hp.kept fun _ => .forM fun q _ => hf q
    · exact after fun _ => forM hp hf hmem

/-- A loop that goes through a bundle and writes to each of its wires. -/
theorem forM_inStep {xs : List α} {out : Bundle} {f : α × Wire → Build Unit} (hw : w ∈ out)
    (hf : ∀ x, Writes (f (x, w)) w)
    (hk : ∀ q, Keeps (fun c => c.Writable w) (f q) fun _ => True) :
    Writes (liftM (inStep xs out) >>= fun l => l.forM f) w := by
  refine checked fun l hl => ?_
  obtain ⟨hlen, rfl⟩ := inStep_eq_ok.mp hl
  obtain ⟨i, hi, rfl⟩ := List.getElem_of_mem hw
  have hmem : (xs[i], out[i]) ∈ xs.zip out := by
    rw [← List.getElem_zip (h := by simp; omega)]
    exact List.getElem_mem _
  exact forM (hf xs[i]) hk hmem

/-- A step that writes to a wire is refused where it cannot, unless it makes the wire writable. -/
theorem refused {x : Build α} {Q : α → Prop} (hx : Writes x w)
    (hk : Keeps (fun c => ¬ c.Writable w) x Q) {c : Circuit} (hc : ¬ c.Writable w) :
    ∃ e, x.Refuses c e := by
  apply exists_refuses
  intro a c' h
  exact hk.of_exec h hc (hx h)

end Writes

/-! ### Gates -/

section

variable {kind : GateKind} {x y out : Wire}

theorem keepsWritable_invTo : Keeps (fun c => c.Writable w) (invTo x out) fun _ => True :=
  keeps_invTo (Circuit.upheld_writable w) (Set.mem_univ out)

theorem keepsWritable_copyTo : Keeps (fun c => c.Writable w) (copyTo x out) fun _ => True :=
  keeps_copyTo (Circuit.upheld_writable w) (Set.mem_univ out)

theorem keepsWritable_gateTo : Keeps (fun c => c.Writable w) (gateTo kind x y out) fun _ => True :=
  keeps_gateTo (Circuit.upheld_writable w) (Set.mem_univ out)

end

theorem writes_requireWritable (w : Wire) : Writes (requireWritable w) w := by
  intro c u c' h
  obtain ⟨hw, rfl⟩ := exec_requireWritable_eq_ok.mp h
  exact hw

theorem writes_drive (g : Gate) : Writes (drive g) g.out := by
  intro c u c' h
  obtain ⟨hg, rfl⟩ := exec_drive_eq_ok.mp h
  exact (Circuit.extends_pushGate hg (Set.mem_univ _)).writable (Circuit.requireGate_eq_ok.mp hg).2.2

theorem writes_invTo (x out : Wire) : Writes (invTo x out) out := by
  unfold invTo
  refine .after fun _ => .after fun c => ?_
  cases c.constantValue? x with
  | some v => exact .after fun w => writes_drive ⟨.copy, w, w, out⟩
  | none => exact writes_drive ⟨.inv, x, x, out⟩

theorem writes_copyTo (x out : Wire) : Writes (copyTo x out) out := by
  unfold copyTo
  split
  · exact .after fun _ => writes_requireWritable out
  · exact writes_drive ⟨.copy, x, x, out⟩

theorem writes_gateTo (kind : GateKind) (x y out : Wire) : Writes (gateTo kind x y out) out := by
  unfold gateTo
  refine .after fun _ => .after fun _ => .after fun _ => .after fun c => ?_
  cases c.fold? kind x y with
  | none => exact writes_drive ⟨kind, x, y, out⟩
  | some f =>
    cases f with
    | constant v => exact .after fun w => writes_drive ⟨.copy, w, w, out⟩
    | same w =>
      simp only
      split
      · exact writes_requireWritable out
      · exact writes_drive ⟨.copy, w, w, out⟩
    | inverted w => exact writes_drive ⟨.inv, w, w, out⟩

end Build
end BitCircuit
