/-
# Steps that do not fault

A step faults if it looks for a position that is not there or makes a bundle that no list can hold.
`Build.Averts n x Q` says that on no circuit at all the step `x` does the first, and the second at
most for a bundle of up to `n` wires; what it returns has `Q`. An error that the caller is told of is
no fault. As the positions that a step looks for depend on the widths of the bundles it is given and
makes, `Q` is nearly always about a width. This module has the checks of bundles and the steps that
allocate a wire or append a gate.

Key definitions: `Error.Within`, `Allows`, `Answers`, `Build.Averts`.
Key theorems: `Answers.bind`, `Build.Averts.bind`, `Build.Averts.mapM`, `Build.Averts.foldlM`,
`Build.averts_gate`, `Build.averts_gateTo`.
-/
import BitCircuit.Circuit.Folding
import BitCircuit.Circuit.Eval
import BitCircuit.Proofs.Bundle
import BitCircuit.Proofs.WellFormed

namespace BitCircuit

variable {α β : Type} {n : Nat} {Q : α → Prop} {R : β → Prop}

/-- The caller is told of the error, or a bundle of at most `n` wires was asked for that no list
can hold. -/
def Error.Within (n : Nat) (e : Error) : Prop :=
  e.isFault = false ∨ ∃ m, e = .tooLarge m ∧ wireLimit ≤ m ∧ m ≤ n

/-- A bundle of this width can be made, or it is not wider than `n`. -/
def Allows (n width : Nat) : Prop :=
  width < wireLimit ∨ width ≤ n

theorem Allows.mono {width width' : Nat} (h : Allows n width) (hle : width' ≤ width) :
    Allows n width' := by
  unfold Allows at *
  omega

/-! ### Checks -/

/-- What is found has `Q`; otherwise the error is within `n`. -/
def Answers (n : Nat) (r : Except Error α) (Q : α → Prop) : Prop :=
  (∀ a, r = .ok a → Q a) ∧ ∀ e, r = .error e → e.Within n

namespace Answers

theorem ok {a : α} (h : Q a) : Answers n (.ok a) Q := by
  constructor
  · intro b hb
    cases hb
    exact h
  · intro e he
    cases he

theorem error {e : Error} (h : e.Within n) : Answers n (.error e : Except Error α) Q := by
  constructor
  · intro a ha
    cases ha
  · intro e' he
    cases he
    exact h

theorem mono {r : Except Error α} {Q' : α → Prop} (h : Answers n r Q) (hQ : ∀ a, Q a → Q' a) :
    Answers n r Q' :=
  ⟨fun a ha => hQ a (h.1 a ha), h.2⟩

theorem any {r : Except Error α} (h : Answers n r Q) : Answers n r fun _ => True :=
  h.mono fun _ _ => trivial

/-- A check that passes. -/
theorem of_eq {r : Except Error α} {a : α} (h : r = .ok a) : Answers n r (· = a) := by
  rw [h]
  exact ok rfl

/-- A check of a condition that is refused with an error for the caller. -/
theorem ite {p : Prop} [Decidable p] {a : α} {e : Error} (ha : p → Q a) (he : ¬ p → e.Within n) :
    Answers n (if p then .ok a else .error e) Q := by
  by_cases hp : p
  · rw [if_pos hp]
    exact ok (ha hp)
  · rw [if_neg hp]
    exact error (he hp)

theorem bind {r : Except Error α} {f : α → Except Error β} (hr : Answers n r Q)
    (hf : ∀ a, Q a → Answers n (f a) R) : Answers n (r >>= f) R := by
  cases r with
  | ok a => exact hf a (hr.1 a rfl)
  | error e => exact error (hr.2 e rfl)

end Answers

section Checks

variable {b : Bundle}

theorem answers_requireNonempty (bundles : List Bundle) :
    Answers n (requireNonempty bundles) fun _ => ∀ b ∈ bundles, b ≠ [] := by
  refine ⟨fun _ h => requireNonempty_eq_ok.mp h, fun e he => ?_⟩
  unfold requireNonempty at he
  split at he
  · cases he
    exact .inl rfl
  · cases he

theorem answers_requireWidth (b : Bundle) (needed : Nat) :
    Answers n (requireWidth b needed) fun _ => b.length = needed :=
  .ite id fun _ => .inl rfl

theorem answers_requireTemps (temps : Bundle) (needed : Nat) :
    Answers n (requireTemps temps needed) fun _ => needed ≤ temps.length := by
  refine ⟨fun _ h => requireTemps_eq_ok.mp h, fun e he => ?_⟩
  unfold requireTemps at he
  split at he
  · cases he
    exact .inl rfl
  · cases he

theorem answers_requireDistinct (written others : List Bundle) :
    Answers n (requireDistinct written others) fun _ => True :=
  .ite (fun _ => trivial) fun _ => .inl rfl

/-- The size of a bundle is beyond the limit at most if it is `n` or less. -/
theorem answers_requireBelow {m : Nat} (hm : Allows n m) :
    Answers n (requireBelow wireLimit m) fun _ => True := by
  refine .ite (fun _ => trivial) fun hlimit => .inr ⟨m, rfl, Nat.not_lt.mp hlimit, ?_⟩
  rcases hm with hm | hm
  · exact absurd hm hlimit
  · exact hm

theorem answers_difference {m k : Nat} (h : k ≤ m) : Answers n (difference m k) (· = m - k) :=
  .of_eq (difference_eq_ok h)

theorem answers_wireAt {i : Nat} (h : i < b.length) : Answers n (b.wireAt i) fun _ => True := by
  obtain ⟨w, -, hw⟩ := exists_wireAt h
  exact (Answers.of_eq hw).any

theorem answers_slice {lo hi : Nat} (hlo : lo ≤ hi) (hhi : hi ≤ b.length) :
    Answers n (b.slice lo hi) fun b' => b'.length = hi - lo := by
  apply (Answers.of_eq (slice_eq_ok.mpr ⟨⟨hlo, hhi⟩, rfl⟩)).mono
  rintro b' rfl
  rw [List.length_drop, List.length_take, Nat.min_eq_left hhi]

theorem answers_inStep {xs : List α} {ys : List β} {m : Nat} (hxs : xs.length = m)
    (hys : ys.length = m) : Answers n (inStep xs ys) fun l => l.length = m := by
  apply (Answers.of_eq (inStep_eq_ok.mpr ⟨hxs.trans hys.symm, rfl⟩)).mono
  rintro l rfl
  rw [List.length_zip, hxs, hys, Nat.min_self]

theorem answers_msb (b : Bundle) : Answers n b.msb fun _ => True := by
  unfold Bundle.msb
  split
  · exact .ok trivial
  · exact .error (.inl rfl)

theorem answers_entry {table : Array α} {i : Nat} (h : i < table.size) :
    Answers n (entry table i) fun _ => True := by
  unfold entry
  rw [Array.getElem?_eq_getElem h]
  exact .ok trivial

theorem answers_requireBinary (kind : GateKind) : Answers n kind.requireBinary fun _ => True := by
  unfold GateKind.requireBinary
  split
  · exact .error (.inl rfl)
  · exact .ok trivial

theorem answers_requireReadable (c : Circuit) (w : Wire) :
    Answers n (c.requireReadable w) fun _ => True := by
  unfold Circuit.requireReadable
  split
  · exact .error (.inl rfl)
  · exact .error (.inl rfl)
  · exact .ok trivial

theorem answers_requireWritable (c : Circuit) (w : Wire) :
    Answers n (c.requireWritable w) fun _ => True := by
  unfold Circuit.requireWritable
  split
  · exact .error (.inl rfl)
  · exact .error (.inl rfl)
  · exact .error (.inl rfl)
  · exact .ok trivial

theorem answers_requireGate (c : Circuit) (g : Gate) : Answers n (c.requireGate g) fun _ => True := by
  apply Answers.bind (answers_requireReadable c g.x)
  intro _ _
  apply Answers.bind (answers_requireReadable c g.y)
  intro _ _
  exact answers_requireWritable c g.out

/-- Operands that pass the check are not empty, and neither is the sink. -/
theorem answers_requireOperands (a b : Bundle) (sink : Sink) :
    Answers n (requireOperands a b sink) fun _ => sink.wires ≠ [] := by
  apply Answers.bind (answers_requireNonempty [a, b])
  intro _ _
  apply Answers.bind (answers_requireNonempty [sink.wires])
  intro _ hsink
  apply (answers_requireDistinct [sink.wires] [a, b]).mono
  intro _ _
  exact hsink sink.wires (by simp)

end Checks

namespace Build

/-! ### Steps -/

/-- On every circuit the step ends with a result that has `Q` or with an error within `n`. -/
def Averts (n : Nat) (x : Build α) (Q : α → Prop) : Prop :=
  ∀ c, Answers n (x.exec c).1 Q

namespace Averts

theorem mono {x : Build α} {Q' : α → Prop} (h : Averts n x Q) (hQ : ∀ a, Q a → Q' a) :
    Averts n x Q' :=
  fun c => (h c).mono hQ

theorem any {x : Build α} (h : Averts n x Q) : Averts n x fun _ => True :=
  h.mono fun _ _ => trivial

theorem pure {a : α} (h : Q a) : Averts n (Pure.pure a) Q :=
  fun _ => .ok h

theorem throw {e : Error} (h : e.isFault = false) : Averts n (throw e : Build α) Q :=
  fun _ => .error (.inl h)

theorem check {r : Except Error α} (h : Answers n r Q) : Averts n (liftM r : Build α) Q :=
  fun _ => h

theorem bind {x : Build α} {f : α → Build β} (hx : Averts n x Q)
    (hf : ∀ a, Q a → Averts n (f a) R) : Averts n (x >>= f) R := by
  intro c
  have hx := hx c
  rw [exec_bind]
  rcases hrun : x.exec c with ⟨r, c₁⟩
  rw [hrun] at hx
  cases r with
  | ok a => exact hf a (hx.1 a rfl) c₁
  | error e => exact .error (hx.2 e rfl)

/-- A step whose result does not matter in front of another one. -/
theorem after {x : Build α} {f : α → Build β} (hx : Averts n x Q) (hf : ∀ a, Averts n (f a) R) :
    Averts n (x >>= f) R :=
  hx.bind fun a _ => hf a

/-- A step that looks at the circuit first. -/
theorem of_get {f : Circuit → Build α} (h : ∀ c, Averts n (f c) Q) :
    Averts n (MonadState.get >>= f) Q := by
  intro c
  rw [exec_bind, exec_get]
  exact h c c

theorem forM {f : α → Build Unit} : ∀ {l : List α}, (∀ a ∈ l, Averts n (f a) fun _ => True) →
    Averts n (l.forM f) fun _ => True
  | [], _ => .pure trivial
  | a :: l, h => by
    obtain ⟨ha, hl⟩ := List.forall_mem_cons.mp h
    rw [List.forM_eq_forM, List.forM_cons]
    exact ha.after fun _ => forM hl

/-- A step repeated over a list: each result is in its relation to the entry it was made of. -/
theorem mapM {f : α → Build β} {S : α → β → Prop} : ∀ {l : List α},
    (∀ a ∈ l, Averts n (f a) (S a)) → Averts n (l.mapM f) fun bs => List.Forall₂ S l bs
  | [], _ => by
    rw [List.mapM_nil]
    exact .pure .nil
  | a :: l, h => by
    obtain ⟨ha, hl⟩ := List.forall_mem_cons.mp h
    rw [List.mapM_cons]
    apply ha.bind
    intro b hb
    apply (mapM hl).bind
    intro bs hbs
    exact .pure (.cons hb hbs)

theorem foldlM {f : β → α → Build β} : ∀ {l : List α} {b : β}, R b →
    (∀ a ∈ l, ∀ b, R b → Averts n (f b a) R) → Averts n (l.foldlM f b) R
  | [], _, hb, _ => .pure hb
  | a :: l, b, hb, h => by
    obtain ⟨ha, hl⟩ := List.forall_mem_cons.mp h
    rw [List.foldlM_cons]
    exact (ha b hb).bind fun b' hb' => foldlM hb' hl

end Averts

/-! ### Allocation -/

theorem averts_allocate {s : WireState} {width : Nat} (h : Allows n width) :
    Averts n (allocate s width) fun b => b.length = width := by
  apply Averts.bind (.check (answers_requireBelow h))
  intro _ _ c
  exact .ok Circuit.length_nextBundle

theorem averts_newBundle {width : Nat} (h : Allows n width) :
    Averts n (newBundle width) fun b => b.length = width :=
  averts_allocate h

theorem averts_addTemps {width : Nat} (h : Allows n width) :
    Averts n (addTemps width) fun b => b.length = width := by
  apply (averts_newBundle h).bind
  intro b hb c
  exact .ok hb

theorem averts_newWire : Averts n newWire fun _ => True :=
  fun _ => .ok trivial

theorem averts_constant (v : Bool) : Averts n (constant v) fun _ => True := by
  intro c
  rw [exec_constant]
  cases c.constantWire? v with
  | some w => exact .ok trivial
  | none => exact .ok trivial

theorem averts_constantBundle {x : Word} {width : Nat} (h : Allows n width) :
    Averts n (constantBundle x width) fun b => b.length = width := by
  apply Averts.bind (.check (answers_requireBelow h))
  intro _ _
  apply (Averts.mapM fun v _ => averts_constant v).mono
  intro b hb
  rw [← hb.length_eq, Word.signedBits, List.length_map, List.length_range]

/-! ### Gates -/

theorem averts_requireReadable (w : Wire) : Averts n (requireReadable w) fun _ => True :=
  .of_get fun c => .check (answers_requireReadable c w)

theorem averts_requireWritable (w : Wire) : Averts n (requireWritable w) fun _ => True :=
  .of_get fun c => .check (answers_requireWritable c w)

theorem averts_drive (g : Gate) : Averts n (drive g) fun _ => True := by
  apply Averts.of_get
  intro c
  apply Averts.bind (.check (answers_requireGate c g))
  intro _ _ c'
  exact .ok trivial

theorem averts_inv (x : Wire) : Averts n (inv x) fun _ => True := by
  apply (averts_requireReadable x).after
  intro _
  apply Averts.of_get
  intro c
  cases c.constantValue? x with
  | some v => exact averts_constant !v
  | none => exact averts_newWire.after fun _ => (averts_drive _).after fun _ => .pure trivial

theorem averts_invTo (x out : Wire) : Averts n (invTo x out) fun _ => True := by
  apply (averts_requireReadable x).after
  intro _
  apply Averts.of_get
  intro c
  cases c.constantValue? x with
  | some v => exact (averts_constant !v).after fun _ => averts_drive _
  | none => exact averts_drive _

theorem averts_copyTo (x out : Wire) : Averts n (copyTo x out) fun _ => True := by
  unfold copyTo
  split
  · exact (averts_requireReadable x).after fun _ => averts_requireWritable out
  · exact averts_drive _

theorem averts_gate (kind : GateKind) (x y : Wire) : Averts n (gate kind x y) fun _ => True := by
  apply Averts.bind (.check (answers_requireBinary kind))
  intro _ _
  apply (averts_requireReadable x).after
  intro _
  apply (averts_requireReadable y).after
  intro _
  apply Averts.of_get
  intro c
  cases c.fold? kind x y with
  | none => exact averts_newWire.after fun _ => (averts_drive _).after fun _ => .pure trivial
  | some f =>
    cases f with
    | constant v => exact averts_constant v
    | same w => exact .pure trivial
    | inverted w => exact averts_inv w

theorem averts_gateTo (kind : GateKind) (x y out : Wire) :
    Averts n (gateTo kind x y out) fun _ => True := by
  apply Averts.bind (.check (answers_requireBinary kind))
  intro _ _
  apply (averts_requireReadable x).after
  intro _
  apply (averts_requireReadable y).after
  intro _
  apply Averts.of_get
  intro c
  cases c.fold? kind x y with
  | none => exact averts_drive _
  | some f =>
    cases f with
    | constant v => exact (averts_constant v).after fun _ => averts_drive _
    | same w =>
      dsimp only
      split
      · exact averts_requireWritable out
      · exact averts_drive _
    | inverted w => exact averts_drive _

end Build
end BitCircuit
