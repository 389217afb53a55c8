/-
# Steps that are not refused

Wires are live if they can be read, have known values, and keep them while wires in `D` are
driven (`Circuit.Live`). On live wires the steps that append gates are not refused, and their
results are live again. Results that go to bundles of their own, one after the other, do not
disturb each other (`Build.forM_drives`).

Key definitions: `Circuit.Carries`, `Circuit.Live`, `Circuit.Vacant`, `Circuit.Drives`.
Key theorems: `Build.gate_yields`, `Build.gateTo_yields`, `Build.mapM_gate_yields`,
`Build.forM_drives`, `Build.newBundle_drives`.
-/
import BitCircuit.Proofs.Folding

namespace BitCircuit
namespace Circuit

variable {c c₁ c' : Circuit} {input : Valuation} {D D' : Set Wire} {w : Wire} {b : Bool}
  {ws : Bundle} {bs : List Bool}

/-- The wire can be read and has the value `b`, and driving wires in `D` does not change it. -/
structure Carries (c : Circuit) (input : Valuation) (D : Set Wire) (w : Wire) (b : Bool) :
    Prop extends c.Settled D w where
  readable : c.Readable w
  value : c.value input w = b

theorem Carries.evolves (h : c.Carries input D w b) (hc : c.WellFormed) (hev : c.Evolves D' c')
    (hD : D' ⊆ D) : c'.Carries input D w b :=
  ⟨h.toSettled.evolves hev, hev.readable h.readable, by rw [h.value_eq hc hev hD, h.value]⟩

/-- The wires can be read and have the values `bs`, and driving wires in `D` does not change
them. -/
structure Live (c : Circuit) (input : Valuation) (D : Set Wire) (ws : Bundle) (bs : List Bool) :
    Prop extends c.Signals input D ws bs where
  readable : ∀ w ∈ ws, c.Readable w

namespace Live

theorem evolves (h : c.Live input D ws bs) (hc : c.WellFormed) (hev : c.Evolves D' c') (hD : D' ⊆ D) :
    c'.Live input D ws bs :=
  ⟨h.toSignals.evolves hc hev hD, fun w hw => hev.readable (h.readable w hw)⟩

/-- Wires that were there are live while new wires are driven. -/
theorem union (h : c.Live input D ws bs) (hD : ∀ w ∈ D', ¬ c.Allocated w) :
    c.Live input (D ∪ D') ws bs := by
  refine ⟨⟨fun w hw => ?_, h.values⟩, h.readable⟩
  have hs := h.settled w hw
  refine ⟨hs.allocated, hs.kept.imp_left fun hn hm => ?_⟩
  rcases hm with hm | hm
  · exact hn hm
  · exact hD w hm hs.allocated

theorem take (n : Nat) (h : c.Live input D ws bs) : c.Live input D (ws.take n) (bs.take n) :=
  ⟨⟨fun w hw => h.settled w (List.mem_of_mem_take hw), by rw [List.map_take, h.values]⟩,
    fun w hw => h.readable w (List.mem_of_mem_take hw)⟩

theorem drop (n : Nat) (h : c.Live input D ws bs) : c.Live input D (ws.drop n) (bs.drop n) :=
  ⟨⟨fun w hw => h.settled w (List.mem_of_mem_drop hw), by rw [List.map_drop, h.values]⟩,
    fun w hw => h.readable w (List.mem_of_mem_drop hw)⟩

theorem nil : c.Live input D [] [] :=
  ⟨signals_nil, by simp⟩

theorem cons (hw : c.Carries input D w b) (h : c.Live input D ws bs) :
    c.Live input D (w :: ws) (b :: bs) :=
  ⟨signals_cons.mpr ⟨⟨hw.toSettled, hw.value⟩, h.toSignals⟩,
    List.forall_mem_cons.mpr ⟨hw.readable, h.readable⟩⟩

theorem of_cons (h : c.Live input D (w :: ws) bs) :
    ∃ b bs', bs = b :: bs' ∧ c.Carries input D w b ∧ c.Live input D ws bs' := by
  obtain ⟨hr, hrs⟩ := List.forall_mem_cons.mp h.readable
  obtain ⟨hs, hss⟩ := List.forall_mem_cons.mp h.settled
  exact ⟨_, _, h.values.symm, ⟨hs, hr, rfl⟩, ⟨hss, rfl⟩, hrs⟩

theorem eq_nil (h : c.Live input D [] bs) : bs = [] :=
  h.values.symm

theorem mem (h : c.Live input D ws bs) (hw : w ∈ ws) : c.Carries input D w (c.value input w) :=
  ⟨h.settled w hw, h.readable w hw, rfl⟩

theorem append {ws' : Bundle} {bs' : List Bool} (h : c.Live input D ws bs)
    (h' : c.Live input D ws' bs') : c.Live input D (ws ++ ws') (bs ++ bs') := by
  refine ⟨⟨fun w hw => ?_, by rw [List.map_append, h.values, h'.values]⟩, fun w hw => ?_⟩
  · exact (List.mem_append.mp hw).elim (h.settled w) (h'.settled w)
  · exact (List.mem_append.mp hw).elim (h.readable w) (h'.readable w)

theorem reverse (h : c.Live input D ws bs) : c.Live input D ws.reverse bs.reverse :=
  ⟨⟨fun w hw => h.settled w (List.mem_reverse.mp hw), by rw [List.map_reverse, h.values]⟩,
    fun w hw => h.readable w (List.mem_reverse.mp hw)⟩

theorem flatMap {ι : Type} {block : ι → Bundle} {bits : ι → List Bool} : ∀ {js : List ι},
    (∀ j ∈ js, c.Live input D (block j) (bits j)) →
    c.Live input D (js.flatMap block) (js.flatMap bits)
  | [], _ => nil
  | j :: js, h => by
    obtain ⟨hj, hjs⟩ := List.forall_mem_cons.mp h
    rw [List.flatMap_cons, List.flatMap_cons]
    exact hj.append (flatMap hjs)

/-- The wire at a position of a live bundle carries the bit there. -/
theorem getElem? {i : Nat} (h : c.Live input D ws bs) (hb : bs[i]? = some b) :
    ∃ w, ws[i]? = some w ∧ c.Carries input D w b := by
  rw [← h.values, List.getElem?_map, Option.map_eq_some_iff] at hb
  obtain ⟨w, hw, rfl⟩ := hb
  exact ⟨w, hw, h.mem (List.mem_of_getElem? hw)⟩

end Live

/-- Distinct wires in `D` that may be driven. -/
structure Vacant (c : Circuit) (D : Set Wire) (out : Bundle) : Prop where
  nodup : out.Nodup
  mem : ∀ w ∈ out, w ∈ D
  writable : ∀ w ∈ out, c.Writable w

namespace Vacant

variable {out out' : Bundle}

theorem evolves (h : c.Vacant D out) (hev : c.Evolves D' c') : c'.Vacant D out :=
  ⟨h.nodup, h.mem, fun w hw => hev.writable (h.writable w hw)⟩

theorem mono (h : c.Vacant D out) (hD : D ⊆ D') : c.Vacant D' out :=
  ⟨h.nodup, fun w hw => hD (h.mem w hw), h.writable⟩

theorem sublist (h : c.Vacant D out) (hs : out'.Sublist out) : c.Vacant D out' :=
  ⟨h.nodup.sublist hs, fun w hw => h.mem w (hs.subset hw), fun w hw => h.writable w (hs.subset hw)⟩

theorem reverse (h : c.Vacant D out) : c.Vacant D out.reverse :=
  ⟨List.nodup_reverse.mpr h.nodup, fun w hw => h.mem w (List.mem_reverse.mp hw),
    fun w hw => h.writable w (List.mem_reverse.mp hw)⟩

/-- A wire that may be driven is none of the live ones. -/
theorem not_mem_live (h : c.Vacant D out) (hl : c.Live input D ws bs) : ∀ w ∈ out, w ∉ ws := by
  intro w hw hw'
  rcases (hl.settled w hw').kept with hn | hg
  · exact hn (h.mem w hw)
  · exact hg.not_writable (h.writable w hw)

end Vacant

/-- The circuit has grown so that the wires of `out` have the values `bs`, and no other wire was
driven anew. -/
structure Drives (c : Circuit) (input : Valuation) (out : Bundle) (bs : List Bool) (c' : Circuit) :
    Prop extends c.Evolves {w | w ∈ out} c' where
  readable : ∀ w ∈ out, c'.Readable w
  values : out.map (c'.value input) = bs

/-- Wires that have been driven are live as long as they are not driven again. -/
theorem Drives.live {out : Bundle} (h : c.Drives input out bs c') (hD : ∀ w ∈ out, w ∉ D) :
    c'.Live input D out bs :=
  ⟨⟨fun w hw => ⟨(h.readable w hw).allocated, .inl (hD w hw)⟩, h.values⟩, h.readable⟩

/-- A bundle is driven after steps that drove none of the wires that were there. -/
theorem Drives.after {out : Bundle} (h : c.Evolves ∅ c₁) (h' : c₁.Drives input out bs c') :
    c.Drives input out bs c' :=
  ⟨(h.of_empty _).trans_same h'.toEvolves, h'.readable, h'.values⟩

theorem Drives.reverse {out : Bundle} (h : c.Drives input out bs c') :
    c.Drives input out.reverse bs.reverse c' :=
  ⟨h.toEvolves.mono fun _ hw => List.mem_reverse.mpr hw,
    fun w hw => h.readable w (List.mem_reverse.mp hw), by rw [List.map_reverse, h.values]⟩

/-- One bundle is driven, then another one. -/
theorem Drives.append {out out' : Bundle} {bs' : List Bool} (h : c.Drives input out bs c₁)
    (h' : c₁.Drives input out' bs' c') (hdisj : ∀ w ∈ out, w ∉ out') :
    c.Drives input (out ++ out') (bs ++ bs') c' := by
  have hev : c.Evolves {w | w ∈ out ++ out'} c₁ := h.toEvolves.mono fun w hw => List.mem_append_left _ hw
  refine ⟨hev.trans_same (h'.toEvolves.mono fun w hw => List.mem_append_right _ hw), ?_, ?_⟩
  · intro w hw
    exact (List.mem_append.mp hw).elim (fun hw => h'.toEvolves.readable (h.readable w hw)) (h'.readable w)
  · have hkept : out.map (c'.value input) = bs := by
      rw [← h.values]
      refine List.map_congr_left fun w hw => ?_
      exact h'.toEvolves.value_eq h.wellFormed (h.readable w hw).allocated (hdisj w hw)
    rw [List.map_append, hkept, h'.values]

end Circuit

namespace Build

variable {c c' : Circuit} {input : Valuation} {D : Set Wire} {kind : GateKind} {x y out : Wire}

/-! ### Gates -/

theorem gate_yields {a b : Bool} (hc : c.WellFormed) (hD : ∀ w ∈ D, c.Allocated w)
    (hk : kind.isUnary = false) (hx : c.Carries input D x a) (hy : c.Carries input D y b) :
    (gate kind x y).Yields c fun w c' => c.Evolves ∅ c' ∧ c'.Carries input D w (kind.eval a b) := by
  obtain ⟨w, c', h⟩ := gate_succeeds hc hk hx.readable hy.readable
  have hmake := gate_spec hc h
  refine ⟨w, c', h, hmake.toEvolves, hmake.settled hD ?_, hmake.readable, ?_⟩
  · simp [hx.toSettled, hy.toSettled]
  · rw [hmake.value, hx.value, hy.value]

theorem gateTo_yields {a b : Bool} (hc : c.WellFormed) (hk : kind.isUnary = false)
    (hx : c.Carries input D x a) (hy : c.Carries input D y b) (hout : c.Writable out) :
    (gateTo kind x y out).Yields c fun _ c' => c.Drives input [out] [kind.eval a b] c' := by
  obtain ⟨c', h⟩ := gateTo_succeeds hc hk hx.readable hy.readable hout
  have hset := gateTo_spec hc h
  refine ⟨(), c', h, hset.toEvolves.mono fun w hw => ?_, by simpa using hset.readable, ?_⟩
  · exact List.mem_singleton.mpr hw
  · simp [hset.value input, hx.value, hy.value]

/-- Gates on the pairs of two live bundles. -/
theorem mapM_gate_yields (hk : kind.isUnary = false) : ∀ {xs ys : Bundle} {as bs : List Bool}
    {c : Circuit}, c.WellFormed → (∀ w ∈ D, c.Allocated w) → c.Live input D xs as →
    c.Live input D ys bs →
    ((xs.zip ys).mapM fun (x, y) => gate kind x y).Yields c fun ws c' =>
      c.Evolves ∅ c' ∧ c'.Live input D ws (List.zipWith kind.eval as bs)
  | [], ys, as, bs, c, hc, _, hx, _ => by
    rw [hx.eq_nil, List.zip_nil_left, List.mapM_nil]
    exact .pure ⟨.refl hc ∅, .nil⟩
  | x :: xs, [], as, bs, c, hc, _, _, hy => by
    rw [hy.eq_nil, List.zip_nil_right, List.mapM_nil, List.zipWith_nil_right]
    exact .pure ⟨.refl hc ∅, .nil⟩
  | x :: xs, y :: ys, as, bs, c, hc, hD, hx, hy => by
    obtain ⟨a, as, rfl, hxa, hxs⟩ := hx.of_cons
    obtain ⟨b, bs, rfl, hyb, hys⟩ := hy.of_cons
    rw [List.zip_cons_cons, List.mapM_cons, List.zipWith_cons_cons]
    refine .bind (gate_yields hc hD hk hxa hyb) ?_
    rintro w c₁ ⟨hev, hw⟩
    refine .bind (mapM_gate_yields hk hev.wellFormed (hev.all_allocated hD)
      (hxs.evolves hc hev (Set.empty_subset D)) (hys.evolves hc hev (Set.empty_subset D))) ?_
    rintro ws c₂ ⟨hev', hws⟩
    exact .pure ⟨hev.trans_same hev', .cons (hw.evolves hev.wellFormed hev' (Set.empty_subset D)) hws⟩

/-! ### Results that go to bundles of their own -/

variable (input) in
/-- One step for each entry of a list, each driving a bundle of its own. -/
theorem forM_drives {ι : Type} {f : ι → Build Unit} {block : ι → Bundle} (bits : ι → List Bool) :
    ∀ {js : List ι} {c : Circuit}, c.WellFormed → (js.flatMap block).Nodup →
    (∀ w ∈ js.flatMap block, w ∈ D) →
    (∀ j ∈ js, ∀ c', c.Evolves D c' →
      (f j).Yields c' fun _ c'' => c'.Drives input (block j) (bits j) c'') →
    (js.forM f).Yields c fun _ c' => c.Drives input (js.flatMap block) (js.flatMap bits) c'
  | [], c, hc, _, _, _ => ⟨(), c, rfl, .refl hc _, by simp, rfl⟩
  | j :: js, c, hc, hnodup, hD, hf => by
    rw [List.flatMap_cons] at hnodup hD
    obtain ⟨-, hnodup', hdisj⟩ := List.nodup_append.mp hnodup
    rw [List.forM_eq_forM, List.forM_cons]
    refine .bind (hf j List.mem_cons_self c (.refl hc D)) ?_
    intro u c₁ hdrive
    have hev : c.Evolves D c₁ := hdrive.toEvolves.mono fun w hw => hD w (List.mem_append_left _ hw)
    refine (forM_drives bits hdrive.wellFormed hnodup' (fun w hw => hD w (List.mem_append_right _ hw))
      fun k hk c' hc' => hf k (List.mem_cons_of_mem j hk) c' (hev.trans_same hc')).mono ?_
    intro u c' hdrive'
    rw [List.flatMap_cons, List.flatMap_cons]
    exact hdrive.append hdrive' fun w hw hw' => hdisj w hw w hw' rfl

variable (input) in
/-- One step for each entry of a list, each driving a wire of its own. -/
theorem forM_drives_wires {ι : Type} {f : ι → Build Unit} {out : ι → Wire} (bit : ι → Bool)
    {js : List ι} (hc : c.WellFormed) (hout : c.Vacant D (js.map out))
    (hf : ∀ j ∈ js, ∀ c', c.Evolves D c' →
      (f j).Yields c' fun _ c'' => c'.Drives input [out j] [bit j] c'') :
    (js.forM f).Yields c fun _ c' => c.Drives input (js.map out) (js.map bit) c' := by
  rw [List.map_eq_flatMap] at hout
  rw [List.map_eq_flatMap, List.map_eq_flatMap]
  exact forM_drives input _ hc hout.nodup hout.mem hf

variable (input) in
/-- One step for each wire of a bundle, driving it. -/
theorem forM_zip_drives {ι : Type} {f : ι × Wire → Build Unit} (bit : ι → Bool) {xs : List ι}
    {out : Bundle} (hc : c.WellFormed) (hlen : xs.length = out.length) (hout : c.Vacant D out)
    (hf : ∀ x ∈ xs, ∀ o ∈ out, ∀ c', c.Evolves D c' →
      (f (x, o)).Yields c' fun _ c'' => c'.Drives input [o] [bit x] c'') :
    ((xs.zip out).forM f).Yields c fun _ c' => c.Drives input out (xs.map bit) c' := by
  have hwires : (xs.zip out).map Prod.snd = out := List.map_snd_zip (Nat.le_of_eq hlen.symm)
  have hbits : (xs.zip out).map (bit ∘ Prod.fst) = xs.map bit := by
    rw [← List.map_map, List.map_fst_zip (Nat.le_of_eq hlen)]
  have hdrive : ((xs.zip out).forM f).Yields c fun _ c' =>
      c.Drives input ((xs.zip out).map Prod.snd) ((xs.zip out).map (bit ∘ Prod.fst)) c' := by
    refine forM_drives_wires input _ hc (hwires.symm ▸ hout) ?_
    rintro ⟨x, o⟩ hp c' hev
    obtain ⟨hx, ho⟩ := List.of_mem_zip hp
    exact hf x hx o ho c' hev
  rwa [hwires, hbits] at hdrive

/-- New wires. -/
theorem newBundle_yields {n : Nat} (hc : c.WellFormed) (hn : n < wireLimit) :
    (newBundle n).Yields c fun b c' => c.Evolves ∅ c' ∧ b.length = n ∧
      (∀ w ∈ b, ¬ c.Allocated w) ∧ c'.Vacant {w | w ∈ b} b := by
  refine ⟨c.nextBundle n, c.addWires .undriven n, ?_, ⟨Circuit.extends_addWires ∅ n, hc.addWires n⟩,
    Circuit.length_nextBundle, fun w hw => (Circuit.mem_nextBundle.mp hw).1,
    Circuit.nodup_nextBundle, fun w hw => hw, fun w hw => ?_⟩
  · rw [newBundle, exec_allocate, if_pos hn]
  · exact Circuit.writable_iff.mpr (.inl (by rw [Circuit.state?_addWires, if_pos hw]))

variable (input) in
/-- Steps that take a new bundle and drive it from wires that were live, before others that read
it. -/
theorem newBundle_drives {α : Type} {n : Nat} {f : Bundle → Build Unit} {rest : Bundle → Build α}
    (bits : List Bool) {P : α → Circuit → Prop} (hc : c.WellFormed) (hD : ∀ w ∈ D, c.Allocated w)
    (hn : n < wireLimit)
    (hf : ∀ b c' D', c'.WellFormed → (∀ w ∈ D', c'.Allocated w) →
      (∀ ws bs, c.Live input D ws bs → c'.Live input D' ws bs) → c'.Vacant D' b → b.length = n →
      (f b).Yields c' fun _ c'' => c'.Drives input b bits c'')
    (hrest : ∀ b c', c.Evolves ∅ c' → c'.Live input D b bits → (rest b).Yields c' P) :
    (newBundle n >>= fun b => f b >>= fun _ => rest b).Yields c P := by
  refine .bind (newBundle_yields hc hn) ?_
  rintro b c₁ ⟨hev, hlen, hnew, hvacant⟩
  -- while the new wires are driven, they are kept apart with those of `D`
  have hvacant := hvacant.mono (Set.subset_union_right (s := D))
  have hD₁ : ∀ w ∈ D ∪ {w | w ∈ b}, c₁.Allocated w := by
    rintro w (hw | hw)
    · exact hev.allocated (hD w hw)
    · exact (hvacant.writable w hw).allocated
  have hlive : ∀ ws bs, c.Live input D ws bs → c₁.Live input (D ∪ {w | w ∈ b}) ws bs := fun ws bs h =>
    (h.union hnew).evolves hc hev (Set.empty_subset _)
  refine .bind (hf b c₁ _ hev.wellFormed hD₁ hlive hvacant hlen) ?_
  intro u c₂ hdrive
  refine hrest b c₂ (hev.trans hdrive.toEvolves fun w hw => .inr (hnew w hw)) (hdrive.live ?_)
  exact fun w hw hm => hnew w hw (hD w hm)

end Build
end BitCircuit
