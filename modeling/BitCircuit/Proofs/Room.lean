/-
# Room for a circuit

The wires and gates of a circuit are lists that grow, so there is room for so many of them only
(`Circuit.HasRoom`). The steps that append them do not look at this: a circuit is built whatever it
takes, and whether there is room for it is a question about the circuit that comes out, since circuits
only ever grow.

How large a circuit comes out is known exactly if nothing is folded: in a circuit without constants
each gate that is asked for is one gate more, on a new wire or on one that was there
(`Build.Lays`).

Key definitions: `Circuit.HasRoom`, `Circuit.Gains`, `Build.Lays`.
Key theorems: `Build.Lays.bind`, `Build.lays_gate`, `Build.lays_gateTo`.
-/
import BitCircuit.Proofs.NonlinearCount

namespace BitCircuit
namespace Circuit

/-- There is room for the gates and the wires of the circuit. A wire takes one byte. -/
structure HasRoom (c : Circuit) : Prop where
  gates : c.gates.size ≤ gateRoom
  wires : c.wires.size ≤ byteRoom

theorem hasRoom_iff {c : Circuit} : c.HasRoom ↔ c.gates.size ≤ gateRoom ∧ c.wires.size ≤ byteRoom :=
  ⟨fun h => ⟨h.gates, h.wires⟩, fun h => ⟨h.1, h.2⟩⟩

instance (c : Circuit) : Decidable c.HasRoom := decidable_of_iff' _ hasRoom_iff

/-- A circuit without constants has grown by `k` gates and `m` wires, none of which is a constant. -/
structure Gains (c : Circuit) (k m : Nat) (c' : Circuit) : Prop where
  constantFree : c'.ConstantFree
  gates : c'.gates.size = c.gates.size + k
  wires : c'.wires.size = c.wires.size + m

namespace Gains

variable {c c₁ c' : Circuit} {k k' m m' : Nat}

theorem refl (hfree : c.ConstantFree) : c.Gains 0 0 c :=
  ⟨hfree, rfl, rfl⟩

theorem trans (h : c.Gains k m c₁) (h' : c₁.Gains k' m' c') : c.Gains (k + k') (m + m') c' :=
  ⟨h'.constantFree, by rw [h'.gates, h.gates, Nat.add_assoc], by rw [h'.wires, h.wires, Nat.add_assoc]⟩

theorem pushGate {g : Gate} (hfree : c.ConstantFree) (hout : c.Allocated g.out) :
    c.Gains 1 0 (c.pushGate g) :=
  ⟨hfree.pushGate hout, Array.size_push _, Array.size_setIfInBounds⟩

theorem addWires {s : WireState} {n : Nat} (hfree : c.ConstantFree) (hs : ∀ v, s ≠ .constant v) :
    c.Gains 0 n (c.addWires s n) :=
  ⟨hfree.addWires hs, rfl, by simp [Circuit.addWires]⟩

end Gains
end Circuit

namespace Build

variable {α β : Type} {c c' : Circuit} {k k' m m' n : Nat} {Q : α → Prop} {R : β → Prop}

/-- On a circuit without constants the step lays `k` gates and `m` wires. What it returns has `Q`. -/
def Lays (step : Build α) (k m : Nat) (Q : α → Prop) : Prop :=
  ∀ ⦃c : Circuit⦄ ⦃a : α⦄ ⦃c' : Circuit⦄, c.ConstantFree → step.exec c = (.ok a, c') →
    Q a ∧ c.Gains k m c'

namespace Lays

theorem pure {a : α} (h : Q a) : Lays (Pure.pure a) 0 0 Q := by
  intro c a' c' hfree hrun
  obtain ⟨rfl, rfl⟩ := exec_pure_eq_ok.mp hrun
  exact ⟨h, .refl hfree⟩

theorem throw {e : Error} : Lays (throw e : Build α) k m Q :=
  fun _ _ _ _ h => (exec_throw_eq_ok.mp h).elim

theorem bind {step : Build α} {f : α → Build β} (hstep : Lays step k m Q)
    (hf : ∀ a, Q a → Lays (f a) k' m' R) : Lays (step >>= f) (k + k') (m + m') R := by
  intro c b c' hfree hrun
  obtain ⟨a, c₁, h₁, h₂⟩ := exec_bind_eq_ok.mp hrun
  obtain ⟨ha, hgains⟩ := hstep hfree h₁
  obtain ⟨hb, hgains'⟩ := hf a ha hgains.constantFree h₂
  exact ⟨hb, hgains.trans hgains'⟩

theorem mono {step : Build α} {Q' : α → Prop} (h : Lays step k m Q) (hQ : ∀ a, Q a → Q' a) :
    Lays step k m Q' :=
  fun _ a _ hfree hrun => (h hfree hrun).imp_left (hQ a)

/-- The sums of what the parts of a step lay. -/
theorem total {step : Build α} (hk : k' = k) (hm : m' = m) (hstep : Lays step k' m' Q) : Lays step k m Q :=
  hk ▸ hm ▸ hstep

/-- A step whose result is returned as part of another one. -/
theorem returning {step : Build α} {f : α → β} (hstep : Lays step k m Q) (hf : ∀ a, Q a → R (f a)) :
    Lays (step >>= fun a => Pure.pure (f a)) k m R :=
  hstep.bind fun a ha => .pure (hf a ha)

/-- A check lays nothing. -/
theorem check {check : Except Error α} (h : ∀ a, check = .ok a → Q a) :
    Lays (liftM check : Build α) 0 0 Q := by
  intro c a c' hfree hrun
  obtain ⟨ha, rfl⟩ := exec_check_eq_ok.mp hrun
  exact ⟨h a ha, .refl hfree⟩

/-- A check in front of a step. -/
theorem checked {check : Except Error α} {f : α → Build β}
    (hf : ∀ a, check = .ok a → Lays (f a) k m R) : Lays ((liftM check : Build α) >>= f) k m R := by
  intro c b c' hfree hrun
  obtain ⟨a, ha, h⟩ := exec_check_bind.mp hrun
  exact hf a ha hfree h

/-- One step for each entry of a list. -/
theorem mapM {f : α → Build β} (hf : ∀ a, Lays (f a) k m fun _ => True) : ∀ {l : List α},
    Lays (l.mapM f) (l.length * k) (l.length * m) fun bs => bs.length = l.length
  | [] => by
    rw [List.mapM_nil, List.length_nil, Nat.zero_mul, Nat.zero_mul]
    exact .pure rfl
  | a :: l => by
    rw [List.mapM_cons, List.length_cons, Nat.succ_mul, Nat.succ_mul, Nat.add_comm _ k, Nat.add_comm _ m]
    refine .bind (hf a) fun b _ => ?_
    exact .returning (Lays.mapM hf (l := l)) fun bs hbs => congrArg Nat.succ hbs

theorem forM {f : α → Build Unit} (hf : ∀ a, Lays (f a) k m fun _ => True) : ∀ {l : List α},
    Lays (l.forM f) (l.length * k) (l.length * m) fun _ => True
  | [] => by
    rw [List.length_nil, Nat.zero_mul, Nat.zero_mul]
    exact .pure trivial
  | a :: l => by
    rw [List.forM_eq_forM, List.forM_cons, List.length_cons, Nat.succ_mul, Nat.succ_mul,
      Nat.add_comm _ k, Nat.add_comm _ m]
    exact .bind (hf a) fun _ _ => Lays.forM hf (l := l)

/-- A step repeated over a list, each time on what the last one returned. -/
theorem foldlM {f : β → α → Build β} (hf : ∀ b a, R b → Lays (f b a) k m R) : ∀ {l : List α} {b : β},
    R b → Lays (l.foldlM f b) (l.length * k) (l.length * m) R
  | [], b, hb => by
    rw [List.length_nil, Nat.zero_mul, Nat.zero_mul]
    exact .pure hb
  | a :: l, b, hb => by
    rw [List.foldlM_cons, List.length_cons, Nat.succ_mul, Nat.succ_mul, Nat.add_comm _ k, Nat.add_comm _ m]
    exact .bind (hf b a hb) fun b' hb' => Lays.foldlM hf hb' (l := l)

end Lays

/-! ### Single steps -/

theorem lays_gate {kind : GateKind} {x y : Wire} : Lays (gate kind x y) 1 1 fun _ => True := by
  intro c w c' hfree h
  obtain ⟨hgate, -, rfl⟩ := gate_unfolded (hfree x) (hfree y) h
  have hwire : c.Gains 0 1 (c.addWire .undriven) := Circuit.addWire_eq (c := c) ▸ .addWires hfree (by simp)
  refine ⟨trivial, hwire.trans (.pushGate hwire.constantFree ?_)⟩
  exact (Circuit.requireGate_eq_ok.mp hgate).2.2.allocated

theorem lays_gateTo {kind : GateKind} {x y out : Wire} :
    Lays (gateTo kind x y out) 1 0 fun _ => True := by
  intro c u c' hfree h
  obtain ⟨hgate, rfl⟩ := gateTo_unfolded (hfree x) (hfree y) h
  exact ⟨trivial, .pushGate hfree (Circuit.requireGate_eq_ok.mp hgate).2.2.allocated⟩

/-- A new bundle has a width that a bundle can have. -/
theorem lays_newBundle : Lays (newBundle n) 0 n fun b => b.length = n ∧ n < wireLimit := by
  intro c b c' hfree h
  obtain ⟨hn, rfl, rfl⟩ := Circuit.newBundle_eq_ok h
  exact ⟨⟨Circuit.length_nextBundle, hn⟩, .addWires hfree (by simp)⟩

theorem lays_addInput : Lays (addInput n) 0 n fun b => b.length = n ∧ n < wireLimit := by
  intro c b c' hfree h
  obtain ⟨hn, rfl, rfl⟩ := Circuit.addInput_eq_ok h
  have hwires : c.Gains 0 n (c.addWires .input n) := .addWires hfree (by simp)
  exact ⟨⟨Circuit.length_nextBundle, hn⟩, hfree.withInput n, hwires.gates, hwires.wires⟩

theorem lays_addOutput : Lays (addOutput n) 0 n fun b => b.length = n ∧ n < wireLimit := by
  intro c b c' hfree h
  obtain ⟨hn, rfl, rfl⟩ := Circuit.addOutput_eq_ok h
  have hwires : c.Gains 0 n (c.addWires .undriven n) := .addWires hfree (by simp)
  exact ⟨⟨Circuit.length_nextBundle, hn⟩, hfree.withOutput n, hwires.gates, hwires.wires⟩

end Build
end BitCircuit
