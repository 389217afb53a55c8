/-
# Steps that run to the end

While an operation runs it may drive the wires of a set `D`, all of which can be driven
(`Circuit.Site`), and it reads wires that have values and are not among them (`Circuit.Ready`). On
such wires no step that appends a gate is refused. An operation that allocates a bundle for itself
may drive that one, too, while it fills it, and read it afterwards (`Circuit.Widens`,
`Build.newBundle_fills`).

Values play no part here: these are the conditions under which an operation runs to the end and
leaves wires that can be read.

Key definitions: `Circuit.Site`, `Circuit.Ready`, `Circuit.Widens`, `Build.Finds`, `Build.Fills`.
Key theorems: `Build.gate_finds`, `Build.gateTo_fills`, `Build.mapM_yields`, `Build.forM_zip_fills`,
`Build.newBundle_fills`.
-/
import BitCircuit.Proofs.Folding

namespace BitCircuit
namespace Circuit

variable {c c₁ c' : Circuit} {D D₁ D' : Set Wire} {w : Wire} {b : Bundle}

/-! ### What may be driven and what may be read -/

/-- A well-formed circuit, and wires of it that may be driven. -/
structure Site (c : Circuit) (D : Set Wire) : Prop where
  wellFormed : c.WellFormed
  writable : ∀ w ∈ D, c.Writable w

/-- The wire can be read and is none of those that may be driven. -/
structure Ready (c : Circuit) (D : Set Wire) (w : Wire) : Prop where
  readable : c.Readable w
  apart : w ∉ D

theorem Site.evolves (hs : c.Site D) (hev : c.Evolves D' c') : c'.Site D :=
  ⟨hev.wellFormed, fun w hw => hev.writable (hs.writable w hw)⟩

theorem Ready.evolves (h : c.Ready D w) (hev : c.Evolves D' c') : c'.Ready D w :=
  ⟨hev.readable h.readable, h.apart⟩

/-- A given wire is ready: it is not to be driven. -/
theorem Given.ready (h : c.Given w) (hs : c.Site D) : c.Ready D w :=
  ⟨h.readable, fun hw => h.not_writable (hs.writable w hw)⟩

/-- A wire that a step finds is ready if those that it may return as they are, are. -/
theorem Makes.ready {reads : List Wire} {f : Valuation → Bool} (h : c.Makes c' reads w f)
    (hs : c.Site D) (hr : ∀ x ∈ reads, x ∉ D) : c'.Ready D w := by
  refine ⟨h.readable, fun hw => ?_⟩
  rcases h.origin with ho | ho | ho
  · exact hr w ho hw
  · exact ho.not_writable (h.toEvolves.writable (hs.writable w hw))
  · exact ho (hs.writable w hw).allocated

/-- The circuit has new wires, and `D'` are the wires of `D` with some of them. -/
structure Widens (c : Circuit) (D : Set Wire) (c' : Circuit) (D' : Set Wire) : Prop where
  evolves : c.Evolves ∅ c'
  site : c'.Site D'
  subset : D ⊆ D'
  fresh : ∀ w ∈ D', w ∈ D ∨ ¬ c.Allocated w

namespace Widens

theorem refl (hs : c.Site D) : c.Widens D c D :=
  ⟨.refl hs.wellFormed ∅, hs, subset_rfl, fun _ hw => .inl hw⟩

theorem trans (h : c.Widens D c₁ D₁) (h' : c₁.Widens D₁ c' D') : c.Widens D c' D' := by
  refine ⟨h.evolves.trans_same h'.evolves, h'.site, h.subset.trans h'.subset, fun w hw => ?_⟩
  rcases h'.fresh w hw with hw | hw
  · exact h.fresh w hw
  · exact .inr fun ha => hw (h.evolves.allocated ha)

theorem ready (h : c.Widens D c' D') (hw : c.Ready D w) : c'.Ready D' w := by
  refine ⟨h.evolves.readable hw.readable, fun hm => ?_⟩
  rcases h.fresh w hm with hm | hm
  · exact hw.apart hm
  · exact hm hw.readable.allocated

/-- What is done with the new wires leaves the old ones alone. -/
theorem evolves_of (h : c.Widens D c₁ D') (hev : c₁.Evolves D' c') : c.Evolves D c' :=
  (h.evolves.of_empty D).trans hev h.fresh

end Widens

end Circuit

namespace Build

variable {α β : Type} {c c₁ c' : Circuit} {D D' : Set Wire} {kind : GateKind} {x y w out : Wire}

/-- The step runs to the end, drives no wire that was there and returns a ready wire. -/
def Finds (step : Build Wire) (c : Circuit) (D : Set Wire) : Prop :=
  step.Yields c fun w c' => c.Evolves ∅ c' ∧ c'.Ready D w

/-- The step runs to the end, drives of the wires that were there only those of `D`, and leaves
`out` readable. -/
def Fills (step : Build Unit) (c : Circuit) (D : Set Wire) (out : Bundle) : Prop :=
  step.Yields c fun _ c' => c.Evolves D c' ∧ ∀ w ∈ out, c'.Readable w

theorem Fills.mono {step : Build Unit} {out out' : Bundle} (h : step.Fills c D out)
    (hsub : ∀ w ∈ out', w ∈ out) : step.Fills c D out' :=
  Yields.mono h fun _ _ h => ⟨h.1, fun w hw => h.2 w (hsub w hw)⟩

theorem fills_pure (hs : c.Site D) : (pure () : Build Unit).Fills c D [] :=
  .pure ⟨.refl hs.wellFormed D, by simp⟩

/-- Two steps, the second of which may read what the first one has filled. -/
theorem Fills.append {step : Build Unit} {next : Unit → Build Unit} {out out' : Bundle}
    (h : step.Fills c D out)
    (hnext : ∀ c', c.Evolves D c' → (∀ w ∈ out, c'.Readable w) → (next ()).Fills c' D out') :
    (step >>= next).Fills c D (out ++ out') := by
  refine .bind h ?_
  rintro u c₁ ⟨hev, hout⟩
  refine Yields.mono (hnext c₁ hev hout) ?_
  rintro u c₂ ⟨hev', hout'⟩
  refine ⟨hev.trans_same hev', fun w hw => ?_⟩
  rcases List.mem_append.mp hw with hw | hw
  · exact hev'.readable (hout w hw)
  · exact hout' w hw

/-- Two steps, of which the first one only fills what the second one reads. -/
theorem Fills.last {step : Build Unit} {next : Unit → Build Unit} {out out' : Bundle}
    (h : step.Fills c D out)
    (hnext : ∀ c', c.Evolves D c' → (∀ w ∈ out, c'.Readable w) → (next ()).Fills c' D out') :
    (step >>= next).Fills c D out' :=
  (h.append hnext).mono fun _ hw => List.mem_append_right _ hw

/-- A step that fills a bundle after others have been run. -/
theorem Fills.after {step : Build Unit} {out : Bundle} (h : step.Fills c₁ D out)
    (hev : c.Evolves D c₁) : step.Yields c₁ fun _ c' => c.Evolves D c' ∧ ∀ w ∈ out, c'.Readable w :=
  Yields.mono h fun _ _ h => ⟨hev.trans_same h.1, h.2⟩

/-- A step that fills a bundle with new wires at hand. -/
theorem Fills.widened {step : Build Unit} {out : Bundle} (h : step.Fills c₁ D' out)
    (hw : c.Widens D c₁ D') : step.Yields c₁ fun _ c' => c.Evolves D c' ∧ ∀ w ∈ out, c'.Readable w :=
  Yields.mono h fun _ _ h => ⟨hw.evolves_of h.1, h.2⟩

/-! ### Gates -/

section

variable (hs : c.Site D)
include hs

theorem constant_finds (v : Bool) : (constant v).Finds c D := by
  obtain ⟨w, c', h⟩ := constant_succeeds c v
  have hmake := constant_spec hs.wellFormed h
  exact ⟨w, c', h, hmake.toEvolves, hmake.ready hs (by simp)⟩

theorem gate_finds (hk : kind.isUnary = false) (hx : c.Ready D x) (hy : c.Ready D y) :
    (gate kind x y).Finds c D := by
  obtain ⟨w, c', h⟩ := gate_succeeds hs.wellFormed hk hx.readable hy.readable
  have hmake := gate_spec hs.wellFormed h
  exact ⟨w, c', h, hmake.toEvolves, hmake.ready hs (by simp [hx.apart, hy.apart])⟩

theorem inv_finds (hx : c.Ready D x) : (inv x).Finds c D := by
  obtain ⟨w, c', h⟩ := inv_succeeds hs.wellFormed hx.readable
  have hmake := inv_spec hs.wellFormed h
  exact ⟨w, c', h, hmake.toEvolves, hmake.ready hs (by simp)⟩

omit hs in
theorem fills_of_sets {step : Build Unit} {f : Valuation → Bool} (hout : out ∈ D)
    (h : step.exec c = (.ok (), c')) (hset : c.Sets {out} c' out f) : step.Fills c D [out] :=
  ⟨(), c', h, hset.toEvolves.mono (Set.singleton_subset_iff.mpr hout), by simpa using hset.readable⟩

theorem gateTo_fills (hk : kind.isUnary = false) (hx : c.Readable x) (hy : c.Readable y)
    (hout : out ∈ D) : (gateTo kind x y out).Fills c D [out] := by
  obtain ⟨c', h⟩ := gateTo_succeeds hs.wellFormed hk hx hy (hs.writable out hout)
  exact fills_of_sets hout h (gateTo_spec hs.wellFormed h)

theorem invTo_fills (hx : c.Readable x) (hout : out ∈ D) : (invTo x out).Fills c D [out] := by
  obtain ⟨c', h⟩ := invTo_succeeds hs.wellFormed hx (hs.writable out hout)
  exact fills_of_sets hout h (invTo_spec hs.wellFormed h)

theorem copyTo_fills (hx : c.Readable x) (hout : out ∈ D) : (copyTo x out).Fills c D [out] := by
  obtain ⟨c', h⟩ := copyTo_succeeds hx (hs.writable out hout)
  exact fills_of_sets hout h (copyTo_spec hs.wellFormed h)

end

/-! ### Lists of steps -/

/-- One step for each entry of a list, each leaving what the later ones do not undo. -/
theorem mapM_yields {f : α → Build β} {P : α → β → Circuit → Prop}
    (hP : ∀ {a b c c'}, P a b c → c.Evolves D c' → P a b c') : ∀ {l : List α} {c : Circuit},
    c.WellFormed → (∀ a ∈ l, ∀ c', c.Evolves D c' → (f a).Yields c' fun b c'' =>
      c'.Evolves D c'' ∧ P a b c'') →
    (l.mapM f).Yields c fun bs c' => c.Evolves D c' ∧ List.Forall₂ (fun a b => P a b c') l bs
  | [], c, hc, _ => by
    rw [List.mapM_nil]
    exact .pure ⟨.refl hc D, .nil⟩
  | a :: l, c, hc, hf => by
    rw [List.mapM_cons]
    refine .bind (hf a List.mem_cons_self c (.refl hc D)) ?_
    rintro b c₁ ⟨hev, hb⟩
    refine .bind (mapM_yields (P := P) hP hev.wellFormed fun a' ha' c' hev' =>
      hf a' (List.mem_cons_of_mem a ha') c' (hev.trans_same hev')) ?_
    rintro bs c₂ ⟨hev', hbs⟩
    exact .pure ⟨hev.trans_same hev', .cons (hP hb hev') hbs⟩

theorem forall₂_right {R : β → Prop} {l : List α} {bs : List β}
    (h : List.Forall₂ (fun _ b => R b) l bs) : bs.length = l.length ∧ ∀ b ∈ bs, R b := by
  induction h with
  | nil => exact ⟨rfl, by simp⟩
  | cons hb _ ih => exact ⟨congrArg Nat.succ ih.1, List.forall_mem_cons.mpr ⟨hb, ih.2⟩⟩

/-- One wire for each entry of a list. -/
theorem mapM_finds {f : α → Build Wire} {l : List α} (hc : c.WellFormed)
    (hf : ∀ a ∈ l, ∀ c', c.Evolves ∅ c' → (f a).Finds c' D) :
    (l.mapM f).Yields c fun ws c' => c.Evolves ∅ c' ∧ ws.length = l.length ∧ ∀ w ∈ ws, c'.Ready D w := by
  refine (mapM_yields (P := fun _ w c' => c'.Ready D w) (fun h hev => h.evolves hev) hc hf).mono ?_
  rintro ws c' ⟨hev, h⟩
  exact ⟨hev, forall₂_right h⟩

/-- One wire for each wire of a bundle. -/
theorem forM_zip_fills {f : α × Wire → Build Unit} : ∀ {xs : List α} {out : Bundle} {c : Circuit},
    c.WellFormed → xs.length = out.length →
    (∀ x ∈ xs, ∀ o ∈ out, ∀ c', c.Evolves D c' → (f (x, o)).Fills c' D [o]) →
    ((xs.zip out).forM f).Fills c D out
  | [], [], c, hc, _, _ => ⟨(), c, rfl, .refl hc D, by simp⟩
  | x :: xs, o :: out, c, hc, hlen, hf => by
    rw [List.zip_cons_cons, List.forM_eq_forM, List.forM_cons]
    refine Fills.append (hf x List.mem_cons_self o List.mem_cons_self c (.refl hc D)) ?_
    intro c₁ hev _
    exact forM_zip_fills hev.wellFormed (Nat.succ.inj hlen) fun x' hx' o' ho' c' hev' =>
      hf x' (List.mem_cons_of_mem x hx') o' (List.mem_cons_of_mem o ho') c' (hev.trans_same hev')

/-! ### New wires -/

section

variable {n : Nat} (hs : c.Site D) (hn : n < wireLimit)
include hs hn

omit hn in
/-- Allocating wires, registered as temporaries or not, widens what may be driven. -/
theorem widens_nextBundle (hev : c.Evolves ∅ c')
    (hnew : ∀ w ∈ c.nextBundle n, c'.state? w = some .undriven) :
    c.Widens D c' (D ∪ {w | w ∈ c.nextBundle n}) := by
  refine ⟨hev, ⟨hev.wellFormed, ?_⟩, Set.subset_union_left, ?_⟩
  · rintro w (hw | hw)
    · exact hev.writable (hs.writable w hw)
    · exact Circuit.writable_iff.mpr (.inl (hnew w hw))
  · rintro w (hw | hw)
    · exact .inl hw
    · exact .inr (Circuit.mem_nextBundle.mp hw).1

theorem newBundle_widens :
    (newBundle n).Yields c fun b c' => b.length = n ∧ (∀ w ∈ b, w ∉ D) ∧
      c.Widens D c' (D ∪ {w | w ∈ b}) := by
  refine ⟨c.nextBundle n, c.addWires .undriven n, ?_, Circuit.length_nextBundle, fun w hw hD => ?_, ?_⟩
  · rw [newBundle, exec_allocate, if_pos hn]
  · exact (Circuit.mem_nextBundle.mp hw).1 (hs.writable w hD).allocated
  · refine widens_nextBundle hs ⟨Circuit.extends_addWires ∅ n, hs.wellFormed.addWires n⟩ fun w hw => ?_
    rw [Circuit.state?_addWires, if_pos hw]

theorem addTemps_widens :
    (addTemps n).Yields c fun b c' => b.length = n ∧ (∀ w ∈ b, w ∉ D) ∧
      c.Widens D c' (D ∪ {w | w ∈ b}) := by
  refine ⟨c.nextBundle n, c.withTemps n, ?_, Circuit.length_nextBundle, fun w hw hD => ?_, ?_⟩
  · rw [Circuit.exec_addTemps, if_pos hn]
  · exact (Circuit.mem_nextBundle.mp hw).1 (hs.writable w hD).allocated
  · refine widens_nextBundle hs ⟨Circuit.extends_withTemps ∅ n, hs.wellFormed.withTemps n⟩ fun w hw => ?_
    exact Circuit.state?_addWires.trans (if_pos hw)

/-- A bundle that an operation makes, fills and then reads. -/
theorem newBundle_fills {f : Bundle → Build Unit} {rest : Bundle → Build α}
    {P : α → Circuit → Prop}
    (hf : ∀ b c' D', c.Widens D c' D' → (∀ w ∈ b, w ∈ D' ∧ w ∉ D) → b.length = n →
      (f b).Fills c' D' b)
    (hrest : ∀ b c', c.Evolves D c' → (∀ w ∈ b, c'.Ready D w) → b.length = n →
      (rest b).Yields c' P) :
    (newBundle n >>= fun b => f b >>= fun _ => rest b).Yields c P := by
  refine .bind (newBundle_widens hs hn) ?_
  rintro b c₁ ⟨hlen, hnew, hwide⟩
  refine .bind (hf b c₁ _ hwide (fun w hw => ⟨.inr hw, hnew w hw⟩) hlen) ?_
  rintro u c₂ ⟨hev, hb⟩
  exact hrest b c₂ (hwide.evolves_of hev) (fun w hw => ⟨hb w hw, hnew w hw⟩) hlen

end

end Build
end BitCircuit
