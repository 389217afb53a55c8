/-
# Operations on new wires

An operation allocates temporaries and bundles for what it computes on its way. New wires are none
of those that the circuit had, so an operation that drives them changes nothing that could be read
before (`Circuit.Spawns.driven`), and they keep their values as long as only wires that were there
before them are driven (`Circuit.Spawns.settled`).

What the steps of an operation may drive is known from what they keep: a step that drives only wires
in `D` and new ones makes the circuit evolve (`Build.Keeps.evolves`).

Key definitions: `Circuit.Spawns`.
Key theorems: `Circuit.upheld_evolves`, `Build.Keeps.evolves`, `Circuit.Spawns.driven`,
`Circuit.Spawns.settled`, `Build.newBundle_spec`, `Build.addTemps_spec`.
-/
import BitCircuit.Proofs.Folding
import BitCircuit.Proofs.Upkeep

namespace BitCircuit
namespace Circuit

variable {c c₁ c' : Circuit} {D D' : Set Wire} {b : Bundle} {w : Wire}

/-- Growing from `c` is kept by the steps that drive the wires in `D` and wires that `c` does not
have. -/
theorem upheld_evolves (c : Circuit) (D : Set Wire) :
    Upheld (c.Evolves D) {w | w ∈ D ∨ ¬ c.Allocated w} where
  step hs hev := ⟨hev.toExtends.trans hs.extends fun _ hw => hw, hs.wellFormed hev.wellFormed⟩
  fresh hev hw := .inr fun ha => hw (hev.allocated ha)

/-- A circuit in which only new wires were driven has the old values. -/
theorem Evolves.map_value {input : Valuation} {ws : Bundle} (h : c.Evolves ∅ c') (hc : c.WellFormed)
    (hws : ∀ w ∈ ws, c.Allocated w) : ws.map (c'.value input) = ws.map (c.value input) :=
  List.map_congr_left fun w hw => h.value_eq hc (hws w hw) (Set.notMem_empty w)

/-- The circuit has grown by the wires of `b`, which are new and distinct. -/
structure Spawns (c : Circuit) (b : Bundle) (c' : Circuit) : Prop extends c.Evolves ∅ c' where
  nodup : b.Nodup
  fresh : ∀ w ∈ b, ¬ c.Allocated w
  present : ∀ w ∈ b, c'.Allocated w

namespace Spawns

theorem nil (hc : c.WellFormed) : c.Spawns [] c :=
  ⟨.refl hc ∅, List.nodup_nil, by simp, by simp⟩

/-- Two new wires are different. -/
theorem ne_of_length_eq_two (h : c.Spawns b c₁) (hlen : b.length = 2) : b[0]? ≠ b[1]? := by
  obtain ⟨x, y, rfl⟩ := List.length_eq_two.mp hlen
  simpa using h.nodup

/-- Driving new wires is no change to the wires that were there. -/
theorem driven (h : c.Spawns b c₁) (hev : c₁.Evolves D' c') (hD : ∀ w ∈ D', w ∈ D ∨ w ∈ b) :
    c.Evolves D c' :=
  (h.toEvolves.of_empty D).trans hev fun w hw => (hD w hw).imp_right (h.fresh w)

/-- New wires keep their values while wires that were there before are driven. -/
theorem settled (h : c.Spawns b c₁) (hev : c₁.Evolves D' c') (hD : ∀ w ∈ D, c.Allocated w) :
    ∀ w ∈ b, c'.Settled D w :=
  fun w hw => ⟨hev.allocated (h.present w hw), .inl fun hm => h.fresh w hw (hD w hm)⟩

/-- Wires that were there keep their values also while the new ones are driven. -/
theorem settled_old (h : c.Spawns b c₁) (hw : c.Settled D w) :
    c₁.Settled {w | w ∈ D ∨ w ∈ b} w := by
  refine ⟨h.allocated hw.allocated, ?_⟩
  rcases hw.kept with hn | hg
  · exact .inl fun hm => hm.elim hn fun hb => h.fresh w hb hw.allocated
  · exact .inr (h.given hg)

/-- The same of wires with known values. -/
theorem signals_old {input : Valuation} {ws : Bundle} {bs : List Bool} (h : c.Spawns b c₁)
    (hc : c.WellFormed) (hs : c.Signals input D ws bs) :
    c₁.Signals input {w | w ∈ D ∨ w ∈ b} ws bs :=
  ⟨fun w hw => h.settled_old (hs.settled w hw),
    (hs.evolves hc h.toEvolves (Set.empty_subset D)).values⟩

end Spawns
end Circuit

namespace Build

variable {α : Type} {c c' : Circuit} {D : Set Wire} {b : Bundle} {n : Nat}

/-- A step that drives only wires in `D` and new ones. -/
theorem Keeps.evolves {x : Build α} {Q : α → Prop} {r : Except Error α} (hc : c.WellFormed)
    (hkeeps : Keeps (c.Evolves D) x Q) (h : x.exec c = (r, c')) : c.Evolves D c' :=
  hkeeps.of_exec h (.refl hc D)

theorem newBundle_spec (hc : c.WellFormed) (h : (newBundle n).exec c = (.ok b, c')) :
    c.Spawns b c' ∧ b.length = n := by
  obtain ⟨-, rfl, rfl⟩ := Circuit.newBundle_eq_ok h
  refine ⟨⟨⟨Circuit.extends_addWires ∅ n, hc.addWires n⟩, Circuit.nodup_nextBundle, fun w hw => ?_,
    fun w hw => ?_⟩, Circuit.length_nextBundle⟩
  · exact (Circuit.mem_nextBundle.mp hw).1
  · exact Circuit.allocated_iff.mpr ⟨_, by rw [Circuit.state?_addWires, if_pos hw]⟩

theorem addTemps_spec (hc : c.WellFormed) (h : (addTemps n).exec c = (.ok b, c')) :
    c.Spawns b c' ∧ b.length = n := by
  obtain ⟨-, rfl, rfl⟩ := Circuit.addTemps_eq_ok h
  refine ⟨⟨⟨Circuit.extends_withTemps ∅ n, hc.withTemps n⟩, Circuit.nodup_nextBundle, fun w hw => ?_,
    fun w hw => ?_⟩, Circuit.length_nextBundle⟩
  · exact (Circuit.mem_nextBundle.mp hw).1
  · exact ((hc.withTemps n).writable w (by simp [Circuit.withTemps, hw])).allocated

end Build
end BitCircuit
