/-
# A replay happens as a whole or not at all

Once the bundles of the host fit the template, no step of a replay is refused: every wire finds
its wire in the host, and each gate reads wires that are bound, constant or driven by a replayed
gate before it (`Build.replay_succeeds`). So a replay is refused exactly if the bundles do not fit
(`Circuit.BindingFault` lists what can be wrong with them), and as that is checked first, a refused
replay leaves the host as it was (`instantiate_all_or_nothing`).

Key definitions: `Circuit.BindingFault`.
Key theorems: `Circuit.bindings_iff`, `Build.instantiate_succeeds`, `instantiate_all_or_nothing`.
-/
import BitCircuit.Proofs.Instantiate

namespace BitCircuit

/-- A refused check among two. -/
theorem bind_eq_error {α β : Type} {x : Except Error α} {f : α → Except Error β} {e : Error} :
    (x >>= f) = .error e ↔ x = .error e ∨ ∃ a, x = .ok a ∧ f a = .error e := by
  cases x with
  | ok a => simp [bind, Except.bind]
  | error e' => simp [bind, Except.bind]

/-- An entry for which a check of a list was refused. -/
theorem exists_of_forM_eq_error {α : Type} {f : α → Except Error Unit} {e : Error} :
    ∀ {l : List α}, l.forM f = .error e → ∃ a ∈ l, f a = .error e
  | [], h => by cases h
  | a :: l, h => by
    rw [List.forM_eq_forM, List.forM_cons] at h
    cases ha : f a with
    | error e' =>
      rw [ha] at h
      cases h
      exact ⟨a, List.mem_cons_self, ha⟩
    | ok u =>
      rw [ha] at h
      obtain ⟨b, hb, hfb⟩ := exists_of_forM_eq_error (l := l) h
      exact ⟨b, List.mem_cons_of_mem a hb, hfb⟩

namespace Circuit

variable {host template : Circuit} {ins outs : List Bundle} {w : Wire}

/-! ### Bindings that do not fit -/

/-- What can be wrong with the bundles of the host that a template is to be bound to. -/
inductive BindingFault (host template : Circuit) (ins outs : List Bundle) : Prop
  /-- There are too few or too many bundles to read. -/
  | inputCount : ins.length ≠ template.inputs.length → BindingFault host template ins outs
  /-- There are too few or too many bundles to write. -/
  | outputCount : outs.length ≠ template.outputs.length → BindingFault host template ins outs
  /-- A wire is to be read and written. -/
  | shared (w : Wire) : w ∈ ins.flatten → w ∈ outs.flatten → BindingFault host template ins outs
  /-- A wire occurs twice among those to be written. -/
  | repeated (w : Wire) : 2 ≤ outs.flatten.count w → BindingFault host template ins outs
  /-- A bundle has another width than the template's. -/
  | width (t b : Bundle) : (t, b) ∈ template.inputs.zip ins ∨ (t, b) ∈ template.outputs.zip outs →
    b.length ≠ t.length → BindingFault host template ins outs
  /-- A wire to be read is not there or has no value. -/
  | unreadable (w : Wire) : w ∈ ins.flatten →
    ¬ host.Allocated w ∨ host.state? w = some .undriven → BindingFault host template ins outs
  /-- A wire to be written is not there or is an input or a constant. -/
  | unwritable (w : Wire) : w ∈ outs.flatten → ¬ host.Allocated w ∨ host.Given w →
    BindingFault host template ins outs

theorem not_readable_iff :
    ¬ host.Readable w ↔ ¬ host.Allocated w ∨ host.state? w = some .undriven := by
  rw [readable_iff, ← state?_eq_none]
  cases hs : host.state? w with
  | none => simp
  | some s => cases s <;> simp

theorem not_writable_iff : ¬ host.Writable w ↔ ¬ host.Allocated w ∨ host.Given w := by
  rw [writable_iff, ← state?_eq_none, Given]
  cases hs : host.state? w with
  | none => simp
  | some s => cases s <;> simp

theorem length_eq_of_mem_zip {ts hs : List Bundle} (h : hs.map List.length = ts.map List.length)
    {t b : Bundle} (hq : (t, b) ∈ ts.zip hs) : b.length = t.length := by
  induction ts generalizing hs with
  | nil => cases hq
  | cons t' ts ih =>
    cases hs with
    | nil => cases h
    | cons b' hs =>
      obtain ⟨hhead, htail⟩ := List.cons.inj h
      rcases List.mem_cons.mp hq with he | hq
      · cases he
        exact hhead
      · exact ih htail hq

/-- The bundles fit exactly if nothing is wrong with them. -/
theorem bindings_iff :
    host.Bindings template ins outs ↔ ¬ host.BindingFault template ins outs := by
  constructor
  · rintro hb (hcount | hcount | ⟨w, hin, hout⟩ | ⟨w, hcount⟩ | ⟨t, b, hq | hq, hne⟩ | ⟨w, hw, hn⟩ |
      ⟨w, hw, hn⟩)
    · exact hcount (by simpa using congrArg List.length hb.ins_widths)
    · exact hcount (by simpa using congrArg List.length hb.outs_widths)
    · exact hb.distinct w hin hout
    · have hle := List.nodup_iff_count_le_one.mp hb.nodup w
      omega
    · exact hne (length_eq_of_mem_zip hb.ins_widths hq)
    · exact hne (length_eq_of_mem_zip hb.outs_widths hq)
    · exact not_readable_iff.mpr hn (hb.readable w hw)
    · exact not_writable_iff.mpr hn (hb.writable w hw)
  · intro h
    refine ⟨?_, ?_, fun w hin hout => h (.shared w hin hout), ?_, fun w hw => ?_, fun w hw => ?_⟩
    · refine map_length_eq (not_not.mp fun hne => h (.inputCount hne)) fun q hq => ?_
      exact not_not.mp fun hne => h (.width q.1 q.2 (.inl hq) hne)
    · refine map_length_eq (not_not.mp fun hne => h (.outputCount hne)) fun q hq => ?_
      exact not_not.mp fun hne => h (.width q.1 q.2 (.inr hq) hne)
    · refine List.nodup_iff_count_le_one.mpr fun w => ?_
      by_contra hcount
      exact h (.repeated w (by omega))
    · exact not_not.mp fun hn => h (.unreadable w hw (not_readable_iff.mp hn))
    · exact not_not.mp fun hn => h (.unwritable w hw (not_writable_iff.mp hn))

/-- Bundles that fit pass the check. -/
theorem Bindings.requireBindings (hb : host.Bindings template ins outs) :
    host.requireBindings template ins outs = .ok () := by
  have hins : ins.length = template.inputs.length := by
    simpa using congrArg List.length hb.ins_widths
  have houts : outs.length = template.outputs.length := by
    simpa using congrArg List.length hb.outs_widths
  have hdistinct : requireDistinct ins outs = .ok () := by
    refine requireDistinct_eq_ok.mpr fun b hb' o ho w hw hw' => ?_
    exact hb.distinct w (List.mem_flatten.mpr ⟨b, hb', hw⟩) (List.mem_flatten.mpr ⟨o, ho, hw'⟩)
  unfold Circuit.requireBindings
  dsimp only
  rw [if_neg (not_not.mpr hins), if_neg (not_not.mpr houts), if_neg (not_not.mpr hb.nodup)]
  refine bind_eq_ok.mpr ⟨(), hdistinct, bind_eq_ok.mpr ⟨(), forM_eq_ok.mpr fun q hq => ?_,
    bind_eq_ok.mpr ⟨(), forM_eq_ok.mpr hb.readable, forM_eq_ok.mpr hb.writable⟩⟩⟩
  refine requireWidth_eq_ok.mpr ?_
  rcases List.mem_append.mp hq with hq | hq
  · exact length_eq_of_mem_zip hb.ins_widths hq
  · exact length_eq_of_mem_zip hb.outs_widths hq

/-- The caller is told what does not fit. -/
theorem not_isFault_of_requireBindings {e : Error}
    (h : host.requireBindings template ins outs = .error e) : e.isFault = false := by
  unfold requireBindings at h
  dsimp only at h
  split at h
  · cases h
    rfl
  split at h
  · cases h
    rfl
  rcases bind_eq_error.mp h with h | ⟨-, -, h⟩
  · unfold requireDistinct at h
    split at h
    · cases h
    · cases h
      rfl
  split at h
  · cases h
    rfl
  rcases bind_eq_error.mp h with h | ⟨-, -, h⟩
  · obtain ⟨q, -, h⟩ := exists_of_forM_eq_error h
    unfold requireWidth at h
    split at h
    · cases h
    · cases h
      rfl
  rcases bind_eq_error.mp h with h | ⟨-, -, h⟩
  · obtain ⟨w, -, h⟩ := exists_of_forM_eq_error h
    unfold requireReadable at h
    split at h <;> cases h <;> rfl
  · obtain ⟨w, -, h⟩ := exists_of_forM_eq_error h
    unfold requireWritable at h
    split at h <;> cases h <;> rfl

end Circuit

namespace Build

variable {c c' host host₁ template : Circuit} {ins outs : List Bundle} {ρ : Wire → Wire}

/-! ### A replay is not refused on its way -/

theorem hostWire_succeeds (s : WireState) (w : Option Wire) (c : Circuit) :
    ∃ w' c', (hostWire s w).exec c = (.ok w', c') := by
  unfold hostWire
  split
  · exact ⟨_, c, rfl⟩
  · split
    · exact constant_succeeds c _
    · exact ⟨_, _, exec_newWire c⟩

theorem hostWires_succeed : ∀ (pairs : List (WireState × Option Wire)) (c : Circuit),
    ∃ ws c', (pairs.mapM fun (s, w) => hostWire s w).exec c = (.ok ws, c')
  | [], c => ⟨[], c, by rw [List.mapM_nil]; rfl⟩
  | p :: pairs, c => by
    obtain ⟨w, c₁, hw⟩ := hostWire_succeeds p.1 p.2 c
    obtain ⟨ws, c₂, hws⟩ := hostWires_succeed pairs c₁
    refine ⟨w :: ws, c₂, ?_⟩
    rw [List.mapM_cons]
    exact exec_bind_eq_ok.mpr ⟨w, c₁, hw, exec_bind_eq_ok.mpr ⟨ws, c₂, hws, rfl⟩⟩

/-- The renamed wires can be used as the template's wires are after its gates `done`. -/
structure Usable (template : Circuit) (ρ : Wire → Wire) (done : List Gate) (c : Circuit) : Prop where
  readable : ∀ t, template.Given t ∨ (∃ g ∈ done, g.out = t) → c.Readable (ρ t)
  writable : ∀ t, template.state? t = some .driven → c.Writable (ρ t)

/-- Before the gates the given wires can be read. -/
theorem usable_nil (hT : template.WellFormed) (hb : host.Bindings template ins outs)
    (hev : host.Evolves ∅ c) (hρ : Renames host c template ins outs ρ) : Usable template ρ [] c := by
  refine ⟨?_, hρ.writable⟩
  rintro t ((hs | ⟨v, hs⟩) | ⟨g, hg, -⟩)
  · have hkey : t ∈ (template.inputs.flatten.zip ins.flatten).map Prod.fst := by
      rw [List.map_fst_zip (Circuit.length_flatten_eq hb.ins_widths).ge]
      exact (hT.input_iff t).mp hs
    obtain ⟨⟨t, w⟩, hq, rfl⟩ := List.mem_map.mp hkey
    rw [hρ.bound (t, w) (List.mem_append_left _ hq)]
    exact hev.readable (hb.readable w (List.of_mem_zip hq).2)
  · exact Circuit.Given.readable (.inr ⟨v, hρ.constant t v hs⟩)
  · cases hg

/-- A replayed gate makes the wire it drives readable. -/
theorem Usable.gate {done : List Gate} {g : Gate} {u : Unit} (hc : c.WellFormed)
    (h : Usable template ρ done c) (hg : (drive (renameGate ρ g)).exec c = (.ok u, c')) :
    Usable template ρ (done ++ [g]) c' := by
  have hset := drive_spec hc hg
  refine ⟨?_, fun t ht => hset.writable (h.writable t ht)⟩
  rintro t (ht | ⟨g', hg', rfl⟩)
  · exact hset.toEvolves.readable (h.readable t (.inl ht))
  · rcases List.mem_append.mp hg' with hg' | hg'
    · exact hset.toEvolves.readable (h.readable g'.out (.inr ⟨g', hg', rfl⟩))
    · rw [List.mem_singleton.mp hg']
      exact hset.readable

/-- **No gate of a replay is refused.** A gate of the template reads given wires and wires that
the gates before it drive, so the renamed one reads wires that have values by then. -/
theorem replay_succeeds {table : Array Wire} (hT : template.WellFormed)
    (htable : ∀ t, template.Allocated t → entry table t.index = .ok (ρ t)) :
    ∀ {rest done : List Gate} {c : Circuit}, template.gates.toList = done ++ rest → c.WellFormed →
    Usable template ρ done c →
    ∃ c', (rest.forM (m := Build) fun g => do
      let x ← entry table g.x.index
      let y ← entry table g.y.index
      let out ← entry table g.out.index
      drive ⟨g.kind, x, y, out⟩).exec c = (.ok (), c')
  | [], done, c, _, _, _ => ⟨c, rfl⟩
  | g :: rest, done, c, hgates, hc, h => by
    have hmem : g ∈ template.gates.toList := hgates ▸ List.mem_append_right _ List.mem_cons_self
    have hreads := hT.reads done g rest hgates
    obtain ⟨c₁, hdrive⟩ := drive_succeeds (g := renameGate ρ g) (h.readable g.x (hreads g.x (by simp)))
      (h.readable g.y (hreads g.y (by simp)))
      (h.writable g.out ((hT.driven_iff g.out).mpr ⟨g, hmem, rfl⟩))
    have hgates' : template.gates.toList = (done ++ [g]) ++ rest := by
      rw [hgates, List.append_assoc, List.singleton_append]
    obtain ⟨c', hrest⟩ := replay_succeeds hT htable hgates' (drive_spec hc hdrive).wellFormed
      (h.gate hc hdrive)
    obtain ⟨hx, hy, hout⟩ := hT.gate_allocated hmem
    refine ⟨c', ?_⟩
    rw [List.forM_eq_forM, List.forM_cons]
    refine exec_bind_eq_ok.mpr ⟨(), c₁, ?_, hrest⟩
    rw [htable g.x hx, htable g.y hy, htable g.out hout]
    exact hdrive

/-- A replay with bundles that fit is not refused. -/
theorem instantiate_succeeds (hT : template.WellFormed) (hc : c.WellFormed)
    (hb : c.Bindings template ins outs) : ∃ c', (instantiate template ins outs).exec c = (.ok (), c') := by
  obtain ⟨ws, c₁, hws⟩ := hostWires_succeed
    (template.wires.toList.zip (valueTable template.wires.size (template.binding ins outs)).toList) c
  obtain ⟨hev, ρ, hρ, htable⟩ := hostTable_spec hT hc hb hws
  obtain ⟨c', hreplay⟩ := replay_succeeds hT htable (List.nil_append _).symm hev.wellFormed
    (usable_nil hT hb hev hρ)
  refine ⟨c', ?_⟩
  unfold instantiate
  rw [exec_get_bind]
  refine exec_check_bind.mpr ⟨(), hb.requireBindings, ?_⟩
  refine exec_check_bind.mpr ⟨_, Circuit.bindingTable_eq hT, ?_⟩
  refine exec_check_bind.mpr ⟨_, inStep_eq_ok.mpr ⟨by simp [valueTable], rfl⟩, ?_⟩
  refine exec_bind_eq_ok.mpr ⟨ws, c₁, hws, ?_⟩
  dsimp only
  rw [forM_array]
  exact hreplay

/-- A replay with bundles that do not fit does nothing. -/
theorem exec_instantiate_of_error {e : Error} (h : c.requireBindings template ins outs = .error e) :
    (instantiate template ins outs).exec c = (.error e, c) := by
  unfold instantiate
  rw [exec_get_bind, exec_bind, exec_liftM, h]

end Build

/-- **A replay happens as a whole or not at all.** It is refused exactly if the bundles of the host
do not fit the template. The caller is then told so, and the host is what it was before. -/
theorem instantiate_all_or_nothing {template host : Circuit} (hT : Reachable template)
    (hH : Reachable host) (ins outs : List Bundle) :
    ((∃ e, ((Build.instantiate template ins outs).exec host).1 = .error e) ↔
      host.BindingFault template ins outs) ∧
    ∀ e, ((Build.instantiate template ins outs).exec host).1 = .error e →
      e.isFault = false ∧ ((Build.instantiate template ins outs).exec host).2 = host := by
  cases hcheck : host.requireBindings template ins outs with
  | ok u =>
    have hb := Circuit.requireBindings_eq_ok hcheck
    obtain ⟨host', h⟩ := Build.instantiate_succeeds hT.wellFormed hH.wellFormed hb
    simp [h, Circuit.bindings_iff.mp hb]
  | error e =>
    have hfault : host.BindingFault template ins outs := by
      by_contra hn
      have hok := (Circuit.bindings_iff.mpr hn).requireBindings
      cases hcheck.symm.trans hok
    rw [Build.exec_instantiate_of_error hcheck]
    refine ⟨⟨fun _ => hfault, fun _ => ⟨e, rfl⟩⟩, fun e' he' => ⟨?_, rfl⟩⟩
    cases he'
    exact Circuit.not_isFault_of_requireBindings hcheck

/-- An output of a template bound to a constant of the host. -/
theorem instantiate_all_or_nothing_constant :
    ∃ host : Circuit, Reachable redrivenOutput ∧ Reachable host ∧
      (Build.instantiate redrivenOutput [[⟨0⟩, ⟨0⟩]] [[⟨2⟩]]).exec host =
        (.error (.readOnly ⟨2⟩), host) ∧
      host.BindingFault redrivenOutput [[⟨0⟩, ⟨0⟩]] [[⟨2⟩]] ∧
      ¬ host.BindingFault redrivenOutput [[⟨0⟩, ⟨0⟩]] [[⟨1⟩]] := by
  have hT : Reachable redrivenOutput := reachable_afterAll (by simp [Call.template?])
  have hH : Reachable (Call.afterAll [.addInput 1, .addOutput 1, .constant true]) :=
    reachable_afterAll (by simp [Call.template?])
  have hrefused : ((Build.instantiate redrivenOutput [[⟨0⟩, ⟨0⟩]] [[⟨2⟩]]).exec
      (Call.afterAll [.addInput 1, .addOutput 1, .constant true])).1 = .error (.readOnly ⟨2⟩) := by
    decide +kernel
  obtain ⟨host', hdone⟩ : ∃ c', (Build.instantiate redrivenOutput [[⟨0⟩, ⟨0⟩]] [[⟨1⟩]]).exec
      (Call.afterAll [.addInput 1, .addOutput 1, .constant true]) = (.ok (), c') :=
    Build.exists_ok (by decide +kernel)
  obtain ⟨hiff, hsame⟩ := instantiate_all_or_nothing hT hH [[⟨0⟩, ⟨0⟩]] [[⟨2⟩]]
  obtain ⟨hiff', -⟩ := instantiate_all_or_nothing hT hH [[⟨0⟩, ⟨0⟩]] [[⟨1⟩]]
  refine ⟨_, hT, hH, Prod.ext hrefused (hsame _ hrefused).2, hiff.mp ⟨_, hrefused⟩, fun hfault => ?_⟩
  obtain ⟨e, he⟩ := hiff'.mpr hfault
  rw [hdone] at he
  cases he

end BitCircuit
