/-
# Appending gates is sound

A gate that is appended with constants folded gives its wire the value of its kind on the values
that were read, also where it updates a wire in place, and all other wires keep theirs
(`Build.gate_spec`, `Build.gateTo_spec` and so on). It is refused only if a wire it reads has no
value or the wire it drives must not be driven (`Build.gate_succeeds`, …).

Key definitions: `Circuit.Evolves`, `Circuit.Settled`, `Circuit.Signals`, `Circuit.Sets`,
`Circuit.Makes`, `Folded.eval`.
Key theorems: `Circuit.fold?_sound`, `Build.gate_spec`, `Build.gateTo_spec`, `Build.inv_spec`,
`Build.invTo_spec`, `Build.copyTo_spec`.
-/
import BitCircuit.Circuit.Folding
import BitCircuit.Proofs.Value

namespace BitCircuit

/-- The value of what a gate amounts to. -/
def Folded.eval (v : Valuation) : Folded → Bool
  | .constant b => b
  | .same w => v w
  | .inverted w => !v w

namespace Circuit

variable {c c₁ c' : Circuit} {D D' : Set Wire} {w x y : Wire} {input : Valuation}

/-! ### Growing with values -/

/-- A well-formed circuit that has grown from `c`, driving of its wires only those in `D`. -/
structure Evolves (c : Circuit) (D : Set Wire) (c' : Circuit) : Prop extends c.Extends D c' where
  wellFormed : c'.WellFormed

namespace Evolves

theorem refl (hc : c.WellFormed) (D : Set Wire) : c.Evolves D c :=
  ⟨.refl c D, hc⟩

theorem trans (h : c.Evolves D c₁) (h' : c₁.Evolves D' c')
    (hD : ∀ w ∈ D', w ∈ D ∨ ¬ c.Allocated w) : c.Evolves D c' :=
  ⟨h.toExtends.trans h'.toExtends hD, h'.wellFormed⟩

/-- A second step that drives no more than the first one. -/
theorem trans_same (h : c.Evolves D c₁) (h' : c₁.Evolves D c') : c.Evolves D c' :=
  h.trans h' fun _ hw => .inl hw

theorem mono (h : c.Evolves D c') (hD : D ⊆ D') : c.Evolves D' c' :=
  ⟨h.toExtends.mono hD, h.wellFormed⟩

theorem of_empty (h : c.Evolves ∅ c') (D : Set Wire) : c.Evolves D c' :=
  h.mono (Set.empty_subset D)

theorem all_allocated (h : c.Evolves D' c') (hD : ∀ w ∈ D, c.Allocated w) :
    ∀ w ∈ D, c'.Allocated w :=
  fun w hw => h.allocated (hD w hw)

end Evolves

/-- A given wire keeps its state. -/
theorem Extends.given (h : c.Extends D c') (hw : c.Given w) : c'.Given w := by
  rcases hw with hs | ⟨v, hs⟩
  · rcases h.state w _ hs with hs' | ⟨he, -⟩
    · exact .inl hs'
    · cases he
  · rcases h.state w _ hs with hs' | ⟨he, -⟩
    · exact .inr ⟨v, hs'⟩
    · cases he

/-- A given wire keeps its value, whatever is driven. -/
theorem Evolves.value_given (h : c.Evolves D c') (hc : c.WellFormed) (hw : c.Given w) :
    c'.value input w = c.value input w := by
  rw [Circuit.value_given hc hw, Circuit.value_given h.wellFormed (h.given hw)]
  exact start_eq_of_state (h.state w) hw.readable.allocated

/-- Driving wires in `D` does not change the value of the wire. -/
structure Settled (c : Circuit) (D : Set Wire) (w : Wire) : Prop where
  allocated : c.Allocated w
  kept : w ∉ D ∨ c.Given w

theorem Settled.evolves (hw : c.Settled D w) (h : c.Evolves D' c') : c'.Settled D w :=
  ⟨h.allocated hw.allocated, hw.kept.imp_right h.given⟩

theorem Settled.mono (hw : c.Settled D w) (hD : D' ⊆ D) : c.Settled D' w :=
  ⟨hw.allocated, hw.kept.imp_left fun hn hm => hn (hD hm)⟩

theorem Settled.value_eq (hw : c.Settled D w) (hc : c.WellFormed) (h : c.Evolves D' c')
    (hD : D' ⊆ D) : c'.value input w = c.value input w := by
  rcases hw.kept with hn | hg
  · exact h.toExtends.value_eq hc hw.allocated fun hm => hn (hD hm)
  · exact h.value_given hc hg

/-- The wires have the values `bs`, and driving wires in `D` does not change them. -/
structure Signals (c : Circuit) (input : Valuation) (D : Set Wire) (ws : Bundle) (bs : List Bool) :
    Prop where
  settled : ∀ w ∈ ws, c.Settled D w
  values : ws.map (c.value input) = bs

theorem Signals.evolves {ws : Bundle} {bs : List Bool} (hs : c.Signals input D ws bs)
    (hc : c.WellFormed) (h : c.Evolves D' c') (hD : D' ⊆ D) : c'.Signals input D ws bs := by
  refine ⟨fun w hw => (hs.settled w hw).evolves h, hs.values ▸ ?_⟩
  exact List.map_congr_left fun w hw => (hs.settled w hw).value_eq hc h hD

/-- Wires that are not driven have the values that they have. -/
theorem signals_self {ws : Bundle} (ha : ∀ w ∈ ws, c.Allocated w) (hfree : ∀ w ∈ ws, w ∉ D) :
    c.Signals input D ws (ws.map (c.value input)) :=
  ⟨fun w hw => ⟨ha w hw, .inl (hfree w hw)⟩, rfl⟩

theorem Signals.mono {ws : Bundle} {bs : List Bool} (hs : c.Signals input D ws bs) (hD : D' ⊆ D) :
    c.Signals input D' ws bs :=
  ⟨fun w hw => (hs.settled w hw).mono hD, hs.values⟩

theorem Signals.length_eq {ws : Bundle} {bs : List Bool} (hs : c.Signals input D ws bs) :
    ws.length = bs.length := by
  rw [← hs.values, List.length_map]

theorem signals_nil : c.Signals input D [] [] :=
  ⟨by simp, rfl⟩

theorem signals_cons {ws : Bundle} {b : Bool} {bs : List Bool} :
    c.Signals input D (w :: ws) (b :: bs) ↔
      (c.Settled D w ∧ c.value input w = b) ∧ c.Signals input D ws bs := by
  constructor
  · rintro ⟨hset, hval⟩
    obtain ⟨hw, hws⟩ := List.forall_mem_cons.mp hset
    obtain ⟨hb, hbs⟩ := List.cons.inj hval
    exact ⟨⟨hw, hb⟩, hws, hbs⟩
  · rintro ⟨⟨hw, hb⟩, hws, hbs⟩
    exact ⟨List.forall_mem_cons.mpr ⟨hw, hws⟩, by rw [List.map_cons, hb, hbs]⟩

/-- The circuit has grown so that the wire `w` has the value that `f` gives from the values
before. -/
structure Sets (c : Circuit) (D : Set Wire) (c' : Circuit) (w : Wire) (f : Valuation → Bool) :
    Prop extends c.Evolves D c' where
  readable : c'.Readable w
  value : ∀ input, c'.value input w = f (c.value input)

theorem Sets.congr {f f' : Valuation → Bool} (h : c.Sets D c' w f)
    (hf : ∀ input, f (c.value input) = f' (c.value input)) : c.Sets D c' w f' :=
  ⟨h.toEvolves, h.readable, fun input => (h.value input).trans (hf input)⟩

/-- A wire set from wires that an earlier step left alone. -/
theorem Sets.after {f : Valuation → Bool} (hc : c.WellFormed) (h : c.Evolves D c₁)
    (h' : c₁.Sets D' c' w f) (hD : ∀ w ∈ D', w ∈ D ∨ ¬ c.Allocated w)
    (hf : ∀ v v' : Valuation, (∀ w, c.Allocated w → w ∉ D → v w = v' w) → f v = f v') :
    c.Sets D c' w f :=
  ⟨h.trans h'.toEvolves hD, h'.readable, fun input => (h'.value input).trans <|
    hf _ _ fun _ ha hw => h.value_eq hc ha hw⟩

/-- The same of a wire that a step found: it is one of those that it read, a constant or a new
one. -/
structure Makes (c c' : Circuit) (reads : List Wire) (w : Wire) (f : Valuation → Bool) :
    Prop extends c.Sets ∅ c' w f where
  origin : w ∈ reads ∨ c'.Given w ∨ ¬ c.Allocated w

theorem Makes.congr {f f' : Valuation → Bool} {reads : List Wire} (h : c.Makes c' reads w f)
    (hf : ∀ input, f (c.value input) = f' (c.value input)) : c.Makes c' reads w f' :=
  ⟨h.toSets.congr hf, h.origin⟩

theorem Makes.mono {f : Valuation → Bool} {reads reads' : List Wire} (h : c.Makes c' reads w f)
    (hr : reads ⊆ reads') : c.Makes c' reads' w f :=
  ⟨h.toSets, h.origin.imp_left fun hw => hr hw⟩

/-- A wire found from one that was found before and from others that were there. -/
theorem Makes.trans {f f₁ f₂ : Valuation → Bool} {reads reads' : List Wire} {w' : Wire}
    (h : c.Makes c₁ reads w f₁) (h' : c₁.Makes c' reads' w' f₂)
    (hr : ∀ x ∈ reads', x = w ∨ x ∈ reads)
    (hf : ∀ input, f₂ (c₁.value input) = f (c.value input)) : c.Makes c' reads w' f := by
  refine ⟨⟨h.toEvolves.trans_same h'.toEvolves, h'.readable, fun input => ?_⟩, ?_⟩
  · rw [h'.value, hf]
  · rcases h'.origin with hw | hw | hw
    · rcases hr w' hw with rfl | hw
      · exact h.origin.imp_right (Or.imp_left h'.given)
      · exact .inl hw
    · exact .inr (.inl hw)
    · exact .inr (.inr fun ha => hw (h.allocated ha))

/-- A wire that is found is settled if those that were read are. -/
theorem Makes.settled {f : Valuation → Bool} {reads : List Wire} (h : c.Makes c' reads w f)
    (hD : ∀ w ∈ D, c.Allocated w) (hr : ∀ x ∈ reads, c.Settled D x) : c'.Settled D w := by
  refine ⟨h.readable.allocated, ?_⟩
  rcases h.origin with hw | hw | hw
  · exact (hr w hw).kept.imp_right h.given
  · exact .inr hw
  · exact .inl fun hm => hw (hD w hm)

/-! ### What folding finds -/

theorem value_of_constantValue? {v : Bool} (hc : c.WellFormed) (h : c.constantValue? w = some v) :
    c.value input w = v :=
  value_constant hc (constantValue?_eq_some.mp h)

theorem foldWith_sound {kind : GateKind} {v : Bool} {f : Folded} {val : Valuation}
    (h : kind.foldWith w v = some f) :
    f.eval val = kind.eval (val w) v ∧ f.eval val = kind.eval v (val w) := by
  cases kind <;> cases v <;> simp only [GateKind.foldWith, Option.some.injEq, reduceCtorEq] at h <;>
    subst h <;> simp [Folded.eval, GateKind.eval]

variable (input) in
/-- What a gate folds to has the value of the gate. -/
theorem fold?_sound (hc : c.WellFormed) {kind : GateKind} {f : Folded}
    (h : c.fold? kind x y = some f) :
    f.eval (c.value input) = kind.eval (c.value input x) (c.value input y) := by
  unfold fold? at h
  split at h
  · rename_i vx vy hx hy
    cases h
    rw [value_of_constantValue? hc hx, value_of_constantValue? hc hy]
    rfl
  · rename_i vx hx hy
    rw [value_of_constantValue? hc hx]
    exact (foldWith_sound h).2
  · rename_i vy hx hy
    rw [value_of_constantValue? hc hy]
    exact (foldWith_sound h).1
  · cases h

theorem mem_of_foldWith {kind : GateKind} {v : Bool} {f : Folded} (h : kind.foldWith x v = some f)
    (hf : f = .same w ∨ f = .inverted w) : w = x := by
  rcases hf with rfl | rfl <;> cases kind <;> cases v <;> simp_all [GateKind.foldWith]

/-- A wire that a gate folds to is one that it reads. -/
theorem mem_of_fold? {kind : GateKind} {f : Folded} (h : c.fold? kind x y = some f)
    (hf : f = .same w ∨ f = .inverted w) : w = x ∨ w = y := by
  unfold fold? at h
  split at h
  · rcases hf with rfl | rfl <;> cases h
  · exact .inr (mem_of_foldWith h hf)
  · exact .inl (mem_of_foldWith h hf)
  · cases h

end Circuit

namespace Build

variable {c c' : Circuit} {kind : GateKind} {x y w out : Wire}

/-! ### Single steps -/

theorem exec_requireReadable_eq_ok {u : Unit} :
    (requireReadable x).exec c = (.ok u, c') ↔ c.Readable x ∧ c' = c := by
  rw [exec_requireReadable, Prod.mk.injEq, eq_comm (a := c)]
  rfl

theorem exec_requireWritable_eq_ok {u : Unit} :
    (requireWritable x).exec c = (.ok u, c') ↔ c.Writable x ∧ c' = c := by
  rw [exec_requireWritable, Prod.mk.injEq, eq_comm (a := c)]
  rfl

theorem exec_get_bind {α : Type} {f : Circuit → Build α} :
    ((get : Build Circuit) >>= f).exec c = (f c).exec c := by
  rw [exec_bind, exec_get]

/-- A wire is read by what follows. -/
theorem exec_requireReadable_bind {α : Type} {f : Unit → Build α} {a : α} :
    (requireReadable x >>= f).exec c = (.ok a, c') ↔
      c.Readable x ∧ (f ()).exec c = (.ok a, c') := by
  rw [exec_bind_eq_ok]
  constructor
  · rintro ⟨u, c₁, hr, h⟩
    obtain ⟨hx, hc₁⟩ := exec_requireReadable_eq_ok.mp hr
    exact ⟨hx, hc₁ ▸ h⟩
  · rintro ⟨hx, h⟩
    exact ⟨(), c, exec_requireReadable_eq_ok.mpr ⟨hx, rfl⟩, h⟩

theorem constant_state (hc : c.WellFormed) {v : Bool} (h : (constant v).exec c = (.ok w, c')) :
    c.Evolves ∅ c' ∧ c'.state? w = some (.constant v) := by
  rw [exec_constant] at h
  cases hv : c.constantWire? v with
  | some w' =>
    rw [hv] at h
    cases h
    exact ⟨.refl hc ∅, (hc.constant_iff w v).mpr hv⟩
  | none =>
    rw [hv] at h
    cases h
    exact ⟨⟨Circuit.extends_addConstant ∅ v, hc.addConstant hv⟩,
      by rw [Circuit.state?_addConstant, if_pos rfl]⟩

/-- A constant wire has its value for good. -/
theorem constant_spec (hc : c.WellFormed) {v : Bool} (h : (constant v).exec c = (.ok w, c')) :
    c.Makes c' [] w fun _ => v := by
  obtain ⟨hev, hs⟩ := constant_state hc h
  have hg : c'.Given w := .inr ⟨v, hs⟩
  exact ⟨⟨hev, hg.readable, fun _ => Circuit.value_constant hev.wellFormed hs⟩, .inr (.inl hg)⟩

theorem constant_succeeds (c : Circuit) (v : Bool) : ∃ w c', (constant v).exec c = (.ok w, c') := by
  rw [exec_constant]
  cases c.constantWire? v with
  | some w => exact ⟨w, c, rfl⟩
  | none => exact ⟨_, _, rfl⟩

theorem exec_drive_eq_ok {g : Gate} {u : Unit} :
    (drive g).exec c = (.ok u, c') ↔ c.requireGate g = .ok () ∧ c' = c.pushGate g := by
  rw [exec_drive]
  cases c.requireGate g with
  | ok u => simp [eq_comm]
  | error e => simp

theorem drive_spec (hc : c.WellFormed) {g : Gate} {u : Unit} (h : (drive g).exec c = (.ok u, c')) :
    c.Sets {g.out} c' g.out fun v => g.kind.eval (v g.x) (v g.y) := by
  obtain ⟨hg, rfl⟩ := exec_drive_eq_ok.mp h
  refine ⟨⟨Circuit.extends_pushGate hg (Set.mem_singleton _), hc.pushGate hg⟩, ?_, fun input => ?_⟩
  · have hw := (Circuit.requireGate_eq_ok.mp hg).2.2
    refine Circuit.readable_iff.mpr ⟨.driven, ?_, by simp⟩
    rw [Circuit.state?_pushGate hw.allocated, if_pos rfl]
  · rw [Circuit.value_pushGate hg, Gate.apply_out]

theorem drive_succeeds {g : Gate} (hx : c.Readable g.x) (hy : c.Readable g.y)
    (hout : c.Writable g.out) : ∃ c', (drive g).exec c = (.ok (), c') :=
  ⟨_, exec_drive_eq_ok.mpr ⟨Circuit.requireGate_eq_ok.mpr ⟨hx, hy, hout⟩, rfl⟩⟩

theorem evolves_addWire (hc : c.WellFormed) : c.Evolves ∅ (c.addWire .undriven) := by
  rw [Circuit.addWire_eq]
  exact ⟨Circuit.extends_addWires ∅ 1, hc.addWires 1⟩

/-- A gate on a new wire. -/
theorem newWire_drive_spec (hc : c.WellFormed) (hx : c.Allocated x) (hy : c.Allocated y)
    (h : (newWire >>= fun out => drive ⟨kind, x, y, out⟩ >>= fun _ => pure out).exec c = (.ok w, c')) :
    c.Makes c' [] w fun v => kind.eval (v x) (v y) := by
  obtain ⟨out, c₁, hnew, h⟩ := exec_bind_eq_ok.mp h
  obtain ⟨u, c₂, hdrive, h⟩ := exec_bind_eq_ok.mp h
  obtain ⟨rfl, rfl⟩ := exec_pure_eq_ok.mp h
  rw [exec_newWire] at hnew
  cases hnew
  have hev := evolves_addWire hc
  refine ⟨Circuit.Sets.after hc hev (drive_spec hev.wellFormed hdrive) ?_ fun v v' hv => ?_,
    .inr (.inr Circuit.not_allocated_nextWire)⟩
  · rintro w rfl
    exact .inr Circuit.not_allocated_nextWire
  · rw [hv x hx (Set.notMem_empty x), hv y hy (Set.notMem_empty y)]

theorem newWire_drive_succeeds (kind : GateKind) (hc : c.WellFormed) (hx : c.Readable x) (hy : c.Readable y) :
    ∃ w c', (newWire >>= fun out => drive ⟨kind, x, y, out⟩ >>= fun _ => pure out).exec c =
      (.ok w, c') := by
  have hev := evolves_addWire hc
  have hw : (c.addWire .undriven).Writable c.nextWire := by
    refine Circuit.writable_iff.mpr (.inl ?_)
    rw [Circuit.state?_addWire, if_pos rfl]
  obtain ⟨c', hdrive⟩ := drive_succeeds (g := ⟨kind, x, y, c.nextWire⟩) (hev.readable hx)
    (hev.readable hy) hw
  refine ⟨c.nextWire, c', exec_bind_eq_ok.mpr ⟨_, _, exec_newWire c, ?_⟩⟩
  exact exec_bind_eq_ok.mpr ⟨_, _, hdrive, rfl⟩

/-! ### Gates with constants folded -/

theorem inv_spec (hc : c.WellFormed) (h : (inv x).exec c = (.ok w, c')) :
    c.Makes c' [] w fun v => !v x := by
  unfold inv at h
  obtain ⟨hx, h⟩ := exec_requireReadable_bind.mp h
  rw [exec_get_bind] at h
  cases hv : c.constantValue? x with
  | some v =>
    rw [hv] at h
    refine (constant_spec hc h).congr fun input => ?_
    rw [Circuit.value_of_constantValue? hc hv]
  | none =>
    rw [hv] at h
    exact newWire_drive_spec hc hx.allocated hx.allocated h

theorem inv_succeeds (hc : c.WellFormed) (hx : c.Readable x) :
    ∃ w c', (inv x).exec c = (.ok w, c') := by
  unfold inv
  simp only [exec_requireReadable_bind, exec_get_bind]
  cases c.constantValue? x with
  | some v =>
    obtain ⟨w, c', h⟩ := constant_succeeds c !v
    exact ⟨w, c', hx, h⟩
  | none =>
    obtain ⟨w, c', h⟩ := newWire_drive_succeeds .inv hc hx hx
    exact ⟨w, c', hx, h⟩

/-- A constant copied to a wire. -/
theorem constant_drive_spec (hc : c.WellFormed) {v : Bool} {u : Unit}
    (h : (constant v >>= fun w => drive ⟨.copy, w, w, out⟩).exec c = (.ok u, c')) :
    c.Sets {out} c' out fun _ => v := by
  obtain ⟨w, c₁, hconst, h⟩ := exec_bind_eq_ok.mp h
  have hw := constant_spec hc hconst
  have hout := drive_spec hw.wellFormed h
  refine ⟨(hw.toEvolves.of_empty {out}).trans_same hout.toEvolves, hout.readable, fun input => ?_⟩
  rw [hout.value, hw.value]
  rfl

theorem constant_drive_succeeds (hc : c.WellFormed) {v : Bool} (hout : c.Writable out) :
    ∃ c', (constant v >>= fun w => drive ⟨.copy, w, w, out⟩).exec c = (.ok (), c') := by
  obtain ⟨w, c₁, hconst⟩ := constant_succeeds c v
  have hw := constant_spec hc hconst
  obtain ⟨c', h⟩ := drive_succeeds (g := ⟨.copy, w, w, out⟩) hw.readable hw.readable (hw.writable hout)
  exact ⟨c', exec_bind_eq_ok.mpr ⟨w, c₁, hconst, h⟩⟩

theorem invTo_spec (hc : c.WellFormed) {u : Unit} (h : (invTo x out).exec c = (.ok u, c')) :
    c.Sets {out} c' out fun v => !v x := by
  unfold invTo at h
  obtain ⟨hx, h⟩ := exec_requireReadable_bind.mp h
  rw [exec_get_bind] at h
  cases hv : c.constantValue? x with
  | some v =>
    rw [hv] at h
    refine (constant_drive_spec hc h).congr fun input => ?_
    rw [Circuit.value_of_constantValue? hc hv]
  | none =>
    rw [hv] at h
    exact drive_spec hc h

theorem invTo_succeeds (hc : c.WellFormed) (hx : c.Readable x) (hout : c.Writable out) :
    ∃ c', (invTo x out).exec c = (.ok (), c') := by
  unfold invTo
  simp only [exec_requireReadable_bind, exec_get_bind]
  cases c.constantValue? x with
  | some v =>
    obtain ⟨c', h⟩ := constant_drive_succeeds (v := !v) hc hout
    exact ⟨c', hx, h⟩
  | none =>
    obtain ⟨c', h⟩ := drive_succeeds (g := ⟨.inv, x, x, out⟩) hx hx hout
    exact ⟨c', hx, h⟩

/-- A wire that may be read and driven has its own value already. -/
theorem sets_self (hc : c.WellFormed) (hx : c.Readable x) : c.Sets {x} c x fun v => v x :=
  ⟨.refl hc {x}, hx, fun _ => rfl⟩

theorem copyTo_spec (hc : c.WellFormed) {u : Unit} (h : (copyTo x out).exec c = (.ok u, c')) :
    c.Sets {out} c' out fun v => v x := by
  unfold copyTo at h
  split at h
  · rename_i he
    obtain ⟨hx, h⟩ := exec_requireReadable_bind.mp h
    obtain ⟨-, rfl⟩ := exec_requireWritable_eq_ok.mp h
    exact he ▸ sets_self hc hx
  · exact drive_spec hc h

theorem copyTo_succeeds (hx : c.Readable x) (hout : c.Writable out) :
    ∃ c', (copyTo x out).exec c = (.ok (), c') := by
  unfold copyTo
  split
  · exact ⟨c, exec_requireReadable_bind.mpr ⟨hx, exec_requireWritable_eq_ok.mpr ⟨hout, rfl⟩⟩⟩
  · exact drive_succeeds (g := ⟨.copy, x, x, out⟩) hx hx hout

/-- A gate is appended only if it has two inputs and they can be read. -/
theorem exec_checks_eq_ok {α : Type} {f : Build α} {a : α} :
    (liftM kind.requireBinary >>= fun _ => requireReadable x >>= fun _ =>
      requireReadable y >>= fun _ => f).exec c = (.ok a, c') ↔
      kind.isUnary = false ∧ c.Readable x ∧ c.Readable y ∧ f.exec c = (.ok a, c') := by
  rw [exec_bind, exec_liftM, GateKind.requireBinary]
  cases kind.isUnary with
  | true => simp
  | false => simp [exec_requireReadable_bind]

theorem gate_spec (hc : c.WellFormed) (h : (gate kind x y).exec c = (.ok w, c')) :
    c.Makes c' [x, y] w fun v => kind.eval (v x) (v y) := by
  unfold gate at h
  obtain ⟨-, hx, hy, h⟩ := exec_checks_eq_ok.mp h
  rw [exec_get_bind] at h
  cases hf : c.fold? kind x y with
  | none =>
    rw [hf] at h
    exact (newWire_drive_spec hc hx.allocated hy.allocated h).mono (List.nil_subset _)
  | some folded =>
    have hsound := fun input => Circuit.fold?_sound input hc hf
    rw [hf] at h
    cases folded with
    | constant v => exact ((constant_spec hc h).mono (List.nil_subset _)).congr hsound
    | same w' =>
      obtain ⟨rfl, rfl⟩ := exec_pure_eq_ok.mp h
      have hw : w = x ∨ w = y := Circuit.mem_of_fold? hf (.inl rfl)
      refine ⟨⟨.refl hc ∅, ?_, hsound⟩, .inl (by simpa using hw)⟩
      rcases hw with rfl | rfl
      · exact hx
      · exact hy
    | inverted w' => exact ((inv_spec hc h).mono (List.nil_subset _)).congr hsound

theorem gate_succeeds (hc : c.WellFormed) (hk : kind.isUnary = false) (hx : c.Readable x)
    (hy : c.Readable y) : ∃ w c', (gate kind x y).exec c = (.ok w, c') := by
  unfold gate
  simp only [exec_checks_eq_ok, exec_get_bind, hk, hx, hy, true_and]
  cases hf : c.fold? kind x y with
  | none => exact newWire_drive_succeeds kind hc hx hy
  | some folded =>
    cases folded with
    | constant v => exact constant_succeeds c v
    | same w' => exact ⟨w', c, rfl⟩
    | inverted w' =>
      rcases Circuit.mem_of_fold? hf (.inr rfl) with rfl | rfl
      · exact inv_succeeds hc hx
      · exact inv_succeeds hc hy

theorem gateTo_spec (hc : c.WellFormed) {u : Unit} (h : (gateTo kind x y out).exec c = (.ok u, c')) :
    c.Sets {out} c' out fun v => kind.eval (v x) (v y) := by
  unfold gateTo at h
  obtain ⟨-, hx, hy, h⟩ := exec_checks_eq_ok.mp h
  rw [exec_get_bind] at h
  cases hf : c.fold? kind x y with
  | none =>
    rw [hf] at h
    exact drive_spec hc h
  | some folded =>
    have hsound := fun input => Circuit.fold?_sound input hc hf
    rw [hf] at h
    cases folded with
    | constant v => exact (constant_drive_spec hc h).congr hsound
    | same w' =>
      dsimp only at h
      split at h
      · rename_i he
        obtain ⟨-, rfl⟩ := exec_requireWritable_eq_ok.mp h
        subst he
        refine (sets_self hc ?_).congr hsound
        rcases Circuit.mem_of_fold? hf (.inl rfl) with rfl | rfl
        · exact hx
        · exact hy
      · exact (drive_spec hc h).congr hsound
    | inverted w' => exact (drive_spec hc h).congr hsound

theorem gateTo_succeeds (hc : c.WellFormed) (hk : kind.isUnary = false) (hx : c.Readable x)
    (hy : c.Readable y) (hout : c.Writable out) :
    ∃ c', (gateTo kind x y out).exec c = (.ok (), c') := by
  unfold gateTo
  simp only [exec_checks_eq_ok, exec_get_bind, hk, hx, hy, true_and]
  cases hf : c.fold? kind x y with
  | none => exact drive_succeeds (g := ⟨kind, x, y, out⟩) hx hy hout
  | some folded =>
    have hreads {w' : Wire} (hw : folded = .same w' ∨ folded = .inverted w') : c.Readable w' := by
      rcases Circuit.mem_of_fold? hf hw with rfl | rfl
      · exact hx
      · exact hy
    cases folded with
    | constant v => exact constant_drive_succeeds hc hout
    | same w' =>
      dsimp only
      split
      · exact ⟨c, exec_requireWritable_eq_ok.mpr ⟨hout, rfl⟩⟩
      · exact drive_succeeds (g := ⟨.copy, w', w', out⟩) (hreads (.inl rfl)) (hreads (.inl rfl)) hout
    | inverted w' =>
      exact drive_succeeds (g := ⟨.inv, w', w', out⟩) (hreads (.inr rfl)) (hreads (.inr rfl)) hout

/-! ### Many wires at once -/

section Many

variable {α : Type} {D : Set Wire} {input : Valuation}

/-- One step for each entry of a list, each finding a wire from settled ones. -/
theorem mapM_spec {f : α → Build Wire} {r : α → List Wire} {g : α → Valuation → Bool}
    (hf : ∀ a c c' w, c.WellFormed → (∀ x ∈ r a, c.Allocated x) → (f a).exec c = (.ok w, c') →
      c.Makes c' (r a) w (g a))
    (hg : ∀ a v v', (∀ x ∈ r a, v x = v' x) → g a v = g a v') :
    ∀ {l : List α} {c c' : Circuit} {ws : Bundle}, c.WellFormed → (∀ w ∈ D, c.Allocated w) →
    (∀ a ∈ l, ∀ x ∈ r a, c.Settled D x) → (l.mapM f).exec c = (.ok ws, c') →
    c.Evolves ∅ c' ∧ c'.Signals input D ws (l.map fun a => g a (c.value input))
  | [], c, c', ws, hc, _, _, h => by
    rw [List.mapM_nil] at h
    obtain ⟨rfl, rfl⟩ := exec_pure_eq_ok.mp h
    exact ⟨.refl hc ∅, Circuit.signals_nil⟩
  | a :: l, c, c', ws, hc, hD, hr, h => by
    obtain ⟨ha, hl⟩ := List.forall_mem_cons.mp hr
    rw [List.mapM_cons] at h
    obtain ⟨w, c₁, hw, h⟩ := exec_bind_eq_ok.mp h
    obtain ⟨ws', c₂, hws, h⟩ := exec_bind_eq_ok.mp h
    obtain ⟨rfl, rfl⟩ := exec_pure_eq_ok.mp h
    have hmake := hf a c c₁ w hc (fun x hx => (ha x hx).allocated) hw
    obtain ⟨hev, hsig⟩ := mapM_spec hf hg hmake.wellFormed (hmake.toEvolves.all_allocated hD)
      (fun b hb x hx => (hl b hb x hx).evolves hmake.toEvolves) hws
    have hset := hmake.settled hD ha
    refine ⟨hmake.toEvolves.trans_same hev, Circuit.signals_cons.mpr ⟨⟨hset.evolves hev, ?_⟩, ?_⟩⟩
    · rw [hset.value_eq hmake.wellFormed hev (Set.empty_subset D), hmake.value]
    · have hsame : (l.map fun b => g b (c₁.value input)) = l.map fun b => g b (c.value input) :=
        List.map_congr_left fun b hb => hg b _ _ fun x hx =>
          (hl b hb x hx).value_eq hc hmake.toEvolves (Set.empty_subset D)
      exact hsame ▸ hsig

variable (input) in
/-- Gates on pairs of settled wires. -/
theorem mapM_gate_spec {l : List (Wire × Wire)} {ws : Bundle} (hc : c.WellFormed)
    (hD : ∀ w ∈ D, c.Allocated w) (hl : ∀ q ∈ l, c.Settled D q.1 ∧ c.Settled D q.2)
    (h : (l.mapM fun (x, y) => gate kind x y).exec c = (.ok ws, c')) :
    c.Evolves ∅ c' ∧ c'.Signals input D ws
      (l.map fun q => kind.eval (c.value input q.1) (c.value input q.2)) := by
  refine mapM_spec (r := fun q => [q.1, q.2])
    (g := fun q v => kind.eval (v q.1) (v q.2)) (fun q c c' w hc _ h => gate_spec hc h)
    (fun q v v' hv => ?_) hc hD (fun q hq x hx => ?_) h
  · rw [hv q.1 (by simp), hv q.2 (by simp)]
  · rcases List.mem_pair.mp hx with rfl | rfl
    · exact (hl q hq).1
    · exact (hl q hq).2

variable (input) in
theorem mapM_inv_spec {b ws : Bundle} (hc : c.WellFormed) (hD : ∀ w ∈ D, c.Allocated w)
    (hb : ∀ w ∈ b, c.Settled D w) (h : (b.mapM inv).exec c = (.ok ws, c')) :
    c.Evolves ∅ c' ∧ c'.Signals input D ws (b.map fun x => !c.value input x) := by
  refine mapM_spec (r := fun x => [x]) (g := fun x v => !v x)
    (fun x c c' w hc _ h => (inv_spec hc h).mono (List.nil_subset _)) (fun x v v' hv => ?_) hc hD
    (fun x hx y hy => ?_) h
  · rw [hv x (by simp)]
  · rw [List.mem_singleton.mp hy]
    exact hb x hx

variable (input) in
/-- One step for each entry of a list, each setting a wire of its own from settled ones. On their
way all of them may drive the wires in `E`. -/
theorem forM_spec {f : α → Build Unit} {t : α → Wire} {r : α → List Wire}
    {g : α → Valuation → Bool} {E : Set Wire} (hE : E ⊆ D)
    (hf : ∀ a c c' u, c.WellFormed → (∀ x ∈ r a, c.Settled D x) → (f a).exec c = (.ok u, c') →
      c.Sets (insert (t a) E) c' (t a) (g a))
    (hg : ∀ a v v', (∀ x ∈ r a, v x = v' x) → g a v = g a v') :
    ∀ {l : List α} {c c' : Circuit} {u : Unit}, c.WellFormed → (l.map t).Nodup →
    (∀ w ∈ l.map t, w ∈ D ∧ w ∉ E) → (∀ a ∈ l, ∀ x ∈ r a, c.Settled D x) →
    (l.forM f).exec c = (.ok u, c') →
    c.Evolves ({w | w ∈ l.map t} ∪ E) c' ∧
      (l.map t).map (c'.value input) = l.map fun a => g a (c.value input)
  | [], c, c', u, hc, _, _, _, h => by
    obtain ⟨-, rfl⟩ := exec_pure_eq_ok.mp h
    exact ⟨.refl hc _, rfl⟩
  | a :: l, c, c', u, hc, hnd, hD, hs, h => by
    obtain ⟨hout, hl⟩ := List.nodup_cons.mp hnd
    obtain ⟨⟨houtD, houtE⟩, hlD⟩ := List.forall_mem_cons.mp hD
    obtain ⟨ha, hls⟩ := List.forall_mem_cons.mp hs
    rw [List.forM_eq_forM, List.forM_cons] at h
    obtain ⟨u₁, c₁, hstep, h⟩ := exec_bind_eq_ok.mp h
    have hset := hf a c c₁ u₁ hc ha hstep
    have hsub : insert (t a) E ⊆ D := Set.insert_subset houtD hE
    obtain ⟨hev, hvals⟩ := forM_spec hE hf hg (c := c₁) hset.wellFormed hl hlD
      (fun b hb x hx => (hls b hb x hx).evolves hset.toEvolves) h
    constructor
    · refine (hset.toEvolves.mono ?_).trans_same (hev.mono ?_)
      · exact Set.insert_subset (.inl List.mem_cons_self) Set.subset_union_right
      · exact Set.union_subset_union_left E fun w hw => List.mem_cons_of_mem _ hw
    · have hsame : (l.map fun b => g b (c₁.value input)) = l.map fun b => g b (c.value input) :=
        List.map_congr_left fun b hb => hg b _ _ fun x hx =>
          (hls b hb x hx).value_eq hc hset.toEvolves hsub
      have hkept : c'.value input (t a) = c₁.value input (t a) := by
        refine hev.value_eq hset.wellFormed hset.readable.allocated ?_
        rintro (hm | hm)
        · exact hout hm
        · exact houtE hm
      rw [List.map_cons, List.map_cons, List.map_cons, hvals, hsame, hkept, hset.value]

variable (input) in
/-- Gates from pairs of settled wires to wires of their own. -/
theorem forM_gateTo_spec {l : List ((Wire × Wire) × Wire)} {u : Unit} (hc : c.WellFormed)
    (hnd : (l.map Prod.snd).Nodup) (hD : ∀ q ∈ l, q.2 ∈ D)
    (hs : ∀ q ∈ l, c.Settled D q.1.1 ∧ c.Settled D q.1.2)
    (h : (l.forM fun ((x, y), out) => gateTo kind x y out).exec c = (.ok u, c')) :
    c.Evolves {w | w ∈ l.map Prod.snd} c' ∧ (l.map Prod.snd).map (c'.value input) =
      l.map fun q => kind.eval (c.value input q.1.1) (c.value input q.1.2) := by
  have hall := forM_spec input (D := D) (E := ∅) (t := Prod.snd) (r := fun q => [q.1.1, q.1.2])
    (g := fun q v => kind.eval (v q.1.1) (v q.1.2)) (Set.empty_subset D)
    (fun q c c' u hc _ h => by simpa using gateTo_spec hc h)
    (fun q v v' hv => by rw [hv q.1.1 (by simp), hv q.1.2 (by simp)]) hc hnd
    (fun w hw => ?_) (fun q hq => ?_) h
  · rwa [Set.union_empty] at hall
  · obtain ⟨q, hq, rfl⟩ := List.mem_map.mp hw
    exact ⟨hD q hq, Set.notMem_empty _⟩
  · simpa using hs q hq

end Many

end Build
end BitCircuit
