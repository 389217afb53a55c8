/-
# Replaying keeps meaning

A replay renames the wires of the template: an input or output to the wire of the host it is
bound to, a constant to the host's constant, every other wire to one of its own
(`Build.Renames`). The renaming may merge wires, but never a wire that a gate drives with another
one (`Build.Renames.ne`). So the replayed gates do to the renamed wires what the template's gates
do to its own (`Build.replay_spec`), and the host's outputs get what the template computes from
the values on the host's wires it is bound to.

Key definitions: `Circuit.Bindings`, `Build.Hosted`, `Build.Renames`, `Build.Simulates`.
Key theorems: `Build.hostWires_spec`, `Build.replay_spec`, `instantiate_preserves_meaning`.
-/
import Mathlib.Data.List.Flatten
import BitCircuit.Proofs.Bundle
import BitCircuit.Proofs.Evaluation
import BitCircuit.Proofs.Folding
import BitCircuit.Proofs.Reachable

namespace BitCircuit
namespace Circuit

/-! ### Bindings that fit -/

/-- The bundles of the host fit the template. -/
structure Bindings (host template : Circuit) (ins outs : List Bundle) : Prop where
  ins_widths : ins.map List.length = template.inputs.map List.length
  outs_widths : outs.map List.length = template.outputs.map List.length
  distinct : ∀ w ∈ ins.flatten, w ∉ outs.flatten
  nodup : outs.flatten.Nodup
  readable : ∀ w ∈ ins.flatten, host.Readable w
  writable : ∀ w ∈ outs.flatten, host.Writable w

theorem map_length_eq {ts hs : List Bundle} (hlen : hs.length = ts.length)
    (h : ∀ q ∈ ts.zip hs, q.2.length = q.1.length) : hs.map List.length = ts.map List.length := by
  induction ts generalizing hs with
  | nil => simp_all
  | cons t ts ih =>
    cases hs with
    | nil => cases hlen
    | cons b hs =>
      obtain ⟨hb, hrest⟩ := List.forall_mem_cons.mp h
      rw [List.map_cons, List.map_cons, ih (Nat.succ.inj hlen) hrest]
      exact congrArg (· :: _) hb

theorem requireBindings_eq_ok {host template : Circuit} {ins outs : List Bundle}
    (h : host.requireBindings template ins outs = .ok ()) : host.Bindings template ins outs := by
  unfold requireBindings at h
  dsimp only at h
  split at h
  · cases h
  rename_i hins
  split at h
  · cases h
  rename_i houts
  obtain ⟨u, hdistinct, h⟩ := bind_eq_ok.mp h
  split at h
  · cases h
  rename_i hnodup
  obtain ⟨u, hwidths, h⟩ := bind_eq_ok.mp h
  obtain ⟨u, hread, hwrite⟩ := bind_eq_ok.mp h
  have hwidths := forM_eq_ok.mp hwidths
  have hdistinct := requireDistinct_eq_ok.mp hdistinct
  refine ⟨?_, ?_, fun w hw hw' => ?_, not_not.mp hnodup, forM_eq_ok.mp hread, forM_eq_ok.mp hwrite⟩
  · refine map_length_eq (not_not.mp hins) fun q hq => ?_
    exact requireWidth_eq_ok.mp (hwidths q (List.mem_append_left _ hq))
  · refine map_length_eq (not_not.mp houts) fun q hq => ?_
    exact requireWidth_eq_ok.mp (hwidths q (List.mem_append_right _ hq))
  · obtain ⟨b, hb, hwb⟩ := List.mem_flatten.mp hw
    obtain ⟨o, ho, hwo⟩ := List.mem_flatten.mp hw'
    exact hdistinct b hb o ho w hwb hwo

/-! ### The table of bindings -/

/-- The wires of the template that are bound, with the wires of the host. -/
def boundPairs (template : Circuit) (ins outs : List Bundle) : List (Wire × Wire) :=
  template.inputs.flatten.zip ins.flatten ++ template.outputs.flatten.zip outs.flatten

/-- The bindings with one more. -/
def bindOne (v : Wire → Option Wire) (q : Wire × Wire) : Wire → Option Wire :=
  Function.update v q.1 (some q.2)

/-- The wire of the host that a wire of the template is bound to. -/
def binding (template : Circuit) (ins outs : List Bundle) : Wire → Option Wire :=
  (template.boundPairs ins outs).foldl bindOne fun _ => none

theorem foldl_bindOne_of_notMem {w : Wire} : ∀ (l : List (Wire × Wire)) (v : Wire → Option Wire),
    w ∉ l.map Prod.fst → l.foldl bindOne v w = v w
  | [], _, _ => rfl
  | q :: l, v, h => by
    obtain ⟨hq, hl⟩ := not_or.mp (List.mem_cons.not.mp h)
    rw [List.foldl_cons, foldl_bindOne_of_notMem l _ hl, bindOne, Function.update_of_ne hq]

theorem foldl_bindOne_of_mem {t w : Wire} : ∀ (l : List (Wire × Wire)) (v : Wire → Option Wire),
    (l.map Prod.fst).Nodup → (t, w) ∈ l →
    l.foldl bindOne v t = some w
  | q :: l, v, hn, h => by
    obtain ⟨hq, hl⟩ := List.nodup_cons.mp hn
    rw [List.foldl_cons]
    rcases List.mem_cons.mp h with rfl | h
    · rw [foldl_bindOne_of_notMem l _ hq, bindOne, Function.update_self]
    · exact foldl_bindOne_of_mem l _ hl h

theorem foldlM_setEntry_bindOne {n : Nat} : ∀ (l : List (Wire × Wire)) (v : Wire → Option Wire),
    (∀ q ∈ l, q.1.index < n) →
    l.foldlM (fun table (t, h) => setEntry table t.index (some h)) (valueTable n v) =
      .ok (valueTable n (l.foldl bindOne v))
  | [], _, _ => rfl
  | q :: l, v, h => by
    obtain ⟨hq, hl⟩ := List.forall_mem_cons.mp h
    rw [List.foldlM_cons]
    dsimp only
    rw [setEntry_valueTable hq]
    exact foldlM_setEntry_bindOne l _ hl

variable {template : Circuit} {ins outs : List Bundle}

theorem boundPairs_keys_subset {q : Wire × Wire} (h : q ∈ template.boundPairs ins outs) :
    q.1 ∈ template.inputs.flatten ++ template.outputs.flatten := by
  rcases List.mem_append.mp h with h | h
  · exact List.mem_append_left _ (List.of_mem_zip h).1
  · exact List.mem_append_right _ (List.of_mem_zip h).1

theorem bindingTable_eq (hT : template.WellFormed) :
    template.bindingTable ins outs =
      .ok (valueTable template.wires.size (template.binding ins outs)) := by
  have hinit : Array.replicate template.wires.size none =
      valueTable template.wires.size fun _ => (none : Option Wire) := by
    apply Array.ext
    · simp [valueTable]
    · intro i h₁ h₂
      simp [valueTable]
  unfold bindingTable
  rw [hinit]
  refine foldlM_setEntry_bindOne _ _ fun q hq => ?_
  exact hT.registered_allocated (List.mem_append_left _ (boundPairs_keys_subset hq))

theorem nodup_inputs_outputs (hT : template.WellFormed) :
    (template.inputs.flatten ++ template.outputs.flatten).Nodup :=
  (List.nodup_append.mp hT.nodup).1

theorem length_flatten_eq {hs ts : List Bundle} (h : hs.map List.length = ts.map List.length) :
    hs.flatten.length = ts.flatten.length := by
  rw [List.length_flatten, List.length_flatten, h]

variable {host : Circuit}

theorem boundPairs_keys (hb : host.Bindings template ins outs) :
    (template.boundPairs ins outs).map Prod.fst =
      template.inputs.flatten ++ template.outputs.flatten := by
  rw [boundPairs, List.map_append, List.map_fst_zip (length_flatten_eq hb.ins_widths).ge,
    List.map_fst_zip (length_flatten_eq hb.outs_widths).ge]

theorem binding_eq_some (hT : template.WellFormed) (hb : host.Bindings template ins outs) {t w : Wire} :
    template.binding ins outs t = some w ↔ (t, w) ∈ template.boundPairs ins outs := by
  have hkeys : ((template.boundPairs ins outs).map Prod.fst).Nodup := by
    rw [boundPairs_keys hb]
    exact nodup_inputs_outputs hT
  constructor
  · intro h
    by_cases ht : t ∈ (template.boundPairs ins outs).map Prod.fst
    · obtain ⟨⟨t', w'⟩, hm, rfl⟩ := List.mem_map.mp ht
      have h' := foldl_bindOne_of_mem (template.boundPairs ins outs) (fun _ => none) hkeys hm
      cases h.symm.trans h'
      exact hm
    · cases h.symm.trans (foldl_bindOne_of_notMem (template.boundPairs ins outs) (fun _ => none) ht)
  · exact foldl_bindOne_of_mem _ _ hkeys

end Circuit

namespace Build

variable {c c₁ c' : Circuit} {w : Wire} {input : Valuation}

/-! ### The wires of the host -/

/-- The wire of the template gets a wire of its own. -/
def NeedsWire (p : WireState × Option Wire) : Prop :=
  p.2 = none ∧ ∀ v, p.1 ≠ .constant v

/-- The wire `w` of `c'` stands for a wire of the template, in a replay that began with `c`. -/
inductive Hosted (c c' : Circuit) : WireState × Option Wire → Wire → Prop
  /-- It is bound to `w`. -/
  | bound (s : WireState) (w : Wire) : Hosted c c' (s, some w) w
  /-- It is a constant, as `w` is. -/
  | constant (v : Bool) (w : Wire) : c'.state? w = some (.constant v) →
    Hosted c c' (.constant v, none) w
  /-- It has got a new wire. -/
  | fresh (p : WireState × Option Wire) (w : Wire) : NeedsWire p → ¬ c.Allocated w → c'.Writable w →
    Hosted c c' p w

theorem Hosted.evolves {p : WireState × Option Wire} {D : Set Wire} (h : Hosted c c₁ p w)
    (hev : c₁.Evolves D c') : Hosted c c' p w := by
  cases h with
  | bound s w => exact .bound s w
  | constant v w hw =>
    rcases hev.state w _ hw with hw' | ⟨he, -⟩
    · exact .constant v w hw'
    · cases he
  | fresh p w hp hn hw => exact .fresh p w hp hn (hev.writable hw)

theorem Hosted.earlier {p : WireState × Option Wire} {D : Set Wire} (h : Hosted c₁ c' p w)
    (hev : c.Evolves D c₁) : Hosted c c' p w := by
  cases h with
  | bound s w => exact .bound s w
  | constant v w hw => exact .constant v w hw
  | fresh p w hp hn hw => exact .fresh p w hp (fun ha => hn (hev.allocated ha)) hw

theorem Hosted.of_needsWire {p : WireState × Option Wire} (h : Hosted c c' p w) (hp : NeedsWire p) :
    ¬ c.Allocated w ∧ c'.Writable w := by
  cases h with
  | bound s w => cases hp.1
  | constant v w hw => exact absurd rfl (hp.2 v)
  | fresh p w _ hn hw => exact ⟨hn, hw⟩

theorem Hosted.allocated {p : WireState × Option Wire} (h : Hosted c c' p w)
    (hp : ∀ w ∈ p.2, c'.Allocated w) : c'.Allocated w := by
  cases h with
  | bound s w => exact hp w rfl
  | constant v w hw => exact Circuit.allocated_iff.mpr ⟨_, hw⟩
  | fresh p w _ _ hw => exact hw.allocated

theorem hostWire_spec {p : WireState × Option Wire} (hc : c.WellFormed)
    (h : (hostWire p.1 p.2).exec c = (.ok w, c')) : c.Evolves ∅ c' ∧ Hosted c c' p w := by
  have hnew : NeedsWire p → newWire.exec c = (.ok w, c') → c.Evolves ∅ c' ∧ Hosted c c' p w := by
    intro hp hw
    rw [exec_newWire] at hw
    cases hw
    refine ⟨evolves_addWire hc, .fresh p _ hp Circuit.not_allocated_nextWire ?_⟩
    exact Circuit.writable_iff.mpr (.inl (by rw [Circuit.state?_addWire, if_pos rfl]))
  obtain ⟨s, b⟩ := p
  cases b with
  | some w' =>
    obtain ⟨rfl, rfl⟩ := exec_pure_eq_ok.mp h
    exact ⟨.refl hc ∅, .bound s w⟩
  | none =>
    cases s with
    | constant v =>
      obtain ⟨hev, hs⟩ := constant_state hc h
      exact ⟨hev, .constant v w hs⟩
    | input => exact hnew ⟨rfl, by simp⟩ h
    | undriven => exact hnew ⟨rfl, by simp⟩ h
    | driven => exact hnew ⟨rfl, by simp⟩ h

/-- Every wire of the template gets its wire, and the new ones are all distinct. -/
theorem hostWires_spec : ∀ {pairs : List (WireState × Option Wire)} {ws : List Wire} {c c' : Circuit},
    c.WellFormed → (∀ p ∈ pairs, ∀ w ∈ p.2, c.Allocated w) →
    (pairs.mapM fun (s, w) => hostWire s w).exec c = (.ok ws, c') →
    c.Evolves ∅ c' ∧ pairs.length = ws.length ∧ (∀ q ∈ pairs.zip ws, Hosted c c' q.1 q.2) ∧
      (pairs.zip ws).Pairwise fun q q' => NeedsWire q.1 ∨ NeedsWire q'.1 → q.2 ≠ q'.2
  | [], ws, c, c', hc, _, h => by
    rw [List.mapM_nil] at h
    obtain ⟨rfl, rfl⟩ := exec_pure_eq_ok.mp h
    exact ⟨.refl hc ∅, rfl, by simp, .nil⟩
  | p :: pairs, ws, c, c', hc, ha, h => by
    obtain ⟨hp, hpairs⟩ := List.forall_mem_cons.mp ha
    rw [List.mapM_cons] at h
    obtain ⟨w, c₁, hw, h⟩ := exec_bind_eq_ok.mp h
    obtain ⟨ws', c₂, hws, h⟩ := exec_bind_eq_ok.mp h
    obtain ⟨rfl, rfl⟩ := exec_pure_eq_ok.mp h
    obtain ⟨hev, hhost⟩ := hostWire_spec hc hw
    obtain ⟨hev', hlen, hhosts, hne⟩ := hostWires_spec hev.wellFormed
      (fun q hq w hw => hev.allocated (hpairs q hq w hw)) hws
    refine ⟨hev.trans_same hev', congrArg Nat.succ hlen, ?_, List.pairwise_cons.mpr ⟨?_, hne⟩⟩
    · rw [List.zip_cons_cons, List.forall_mem_cons]
      exact ⟨hhost.evolves hev', fun q hq => (hhosts q hq).earlier hev⟩
    · intro q hq hneeds he
      have hmem := (List.of_mem_zip hq).1
      have hw : c₁.Allocated w := hhost.allocated fun w hw => hev.allocated (hp w hw)
      rcases hneeds with hneeds | hneeds
      · -- a wire that has been made for this entry is not one that was there
        obtain ⟨hnew, hwrite⟩ := hhost.of_needsWire hneeds
        have hlater := hhosts q hq
        rw [← he] at hlater
        generalize hp' : q.1 = p' at hlater hmem
        cases hlater with
        | bound s w => exact hnew (hpairs _ hmem w rfl)
        | constant v w hs => exact Circuit.Given.not_writable (.inr ⟨v, hs⟩) (hev'.writable hwrite)
        | fresh p w _ hn _ => exact hn hw
      · exact ((hhosts q hq).of_needsWire hneeds).1 (he ▸ hw)

/-! ### The renaming -/

/-- The renaming of a template's wires: `c` is the host before the replay and `c'` the host when all
wires are there. -/
structure Renames (c c' template : Circuit) (ins outs : List Bundle) (ρ : Wire → Wire) : Prop where
  /-- A bound wire is renamed to the one it is bound to. -/
  bound : ∀ q ∈ template.boundPairs ins outs, ρ q.1 = q.2
  /-- A constant is renamed to the host's. -/
  constant : ∀ t v, template.state? t = some (.constant v) → c'.state? (ρ t) = some (.constant v)
  /-- A driven wire is renamed to a wire of an output or to a new one. -/
  driven : ∀ t, template.state? t = some .driven → ρ t ∈ outs.flatten ∨ ¬ c.Allocated (ρ t)
  /-- A driven wire is renamed to a wire that may be driven. -/
  writable : ∀ t, template.state? t = some .driven → c'.Writable (ρ t)
  /-- No other wire is renamed like a driven one. -/
  ne : ∀ t t', template.state? t = some .driven → template.Allocated t' → t' ≠ t → ρ t' ≠ ρ t

variable {template : Circuit} {ins outs : List Bundle}

theorem needsWire_or_bound (hT : template.WellFormed) (hb : c.Bindings template ins outs) {t : Wire}
    (ht : template.state? t = some .driven) :
    NeedsWire (.driven, template.binding ins outs t) ∨
      ∃ w, (t, w) ∈ template.outputs.flatten.zip outs.flatten := by
  cases hbind : template.binding ins outs t with
  | none => exact .inl ⟨rfl, by simp⟩
  | some w =>
    rcases List.mem_append.mp ((Circuit.binding_eq_some hT hb).mp hbind) with h | h
    · have := (hT.input_iff t).mpr (List.of_mem_zip h).1
      cases ht.symm.trans this
    · exact .inr ⟨w, h⟩

theorem binding_constant (hT : template.WellFormed) (hb : c.Bindings template ins outs) {t : Wire}
    {v : Bool} (ht : template.state? t = some (.constant v)) : template.binding ins outs t = none := by
  cases hbind : template.binding ins outs t with
  | none => rfl
  | some w =>
    rcases List.mem_append.mp
      (Circuit.boundPairs_keys_subset ((Circuit.binding_eq_some hT hb).mp hbind)) with h | h
    · cases ht.symm.trans ((hT.input_iff t).mpr h)
    · have hw := hT.writable t (List.mem_append_left _ h)
      exact absurd hw (Circuit.Given.not_writable (.inr ⟨v, ht⟩))

/-- Only one wire is bound to a wire that is written. -/
theorem eq_of_bound_output (hT : template.WellFormed) (hb : c.Bindings template ins outs) {t t' : Wire}
    (ht' : template.binding ins outs t' = some w)
    (ht : (t, w) ∈ template.outputs.flatten.zip outs.flatten) : t' = t := by
  rcases List.mem_append.mp ((Circuit.binding_eq_some hT hb).mp ht') with h | h
  · exact absurd (List.of_mem_zip ht).2 (hb.distinct w (List.of_mem_zip h).2)
  · have hsnd : ((template.outputs.flatten.zip outs.flatten).map Prod.snd).Nodup := by
      rw [List.map_snd_zip (Circuit.length_flatten_eq hb.outs_widths).le]
      exact hb.nodup
    exact congrArg Prod.fst (List.inj_on_of_nodup_map hsnd h ht rfl)

theorem ne_of_needsWire {l : List ((WireState × Option Wire) × Wire)}
    {q q' : (WireState × Option Wire) × Wire} {i j : Nat}
    (hne : l.Pairwise fun q q' => NeedsWire q.1 ∨ NeedsWire q'.1 → q.2 ≠ q'.2)
    (hi : l[i]? = some q) (hj : l[j]? = some q') (hij : i ≠ j) (hq : NeedsWire q.1) : q.2 ≠ q'.2 := by
  obtain ⟨hli, rfl⟩ := List.getElem?_eq_some_iff.mp hi
  obtain ⟨hlj, rfl⟩ := List.getElem?_eq_some_iff.mp hj
  rcases Nat.lt_or_gt_of_ne hij with hlt | hlt
  · exact List.pairwise_iff_getElem.mp hne i j hli hlj hlt (.inl hq)
  · exact (List.pairwise_iff_getElem.mp hne j i hlj hli hlt (.inr hq)).symm

/-- The wires that were found are a renaming. -/
theorem renames_of_hosted {l : List ((WireState × Option Wire) × Wire)} {ρ : Wire → Wire}
    (hT : template.WellFormed) (hb : c.Bindings template ins outs) (hev : c.Evolves ∅ c')
    (hl : ∀ t s, template.state? t = some s →
      l[t.index]? = some ((s, template.binding ins outs t), ρ t))
    (hhost : ∀ q ∈ l, Hosted c c' q.1 q.2)
    (hne : l.Pairwise fun q q' => NeedsWire q.1 ∨ NeedsWire q'.1 → q.2 ≠ q'.2) :
    Renames c c' template ins outs ρ := by
  have hmem {t : Wire} {s : WireState} (ht : template.state? t = some s) :
      Hosted c c' (s, template.binding ins outs t) (ρ t) :=
    hhost _ (List.mem_of_getElem? (hl t s ht))
  have hbound : ∀ q ∈ template.boundPairs ins outs, ρ q.1 = q.2 := by
    intro q hq
    obtain ⟨s, hs⟩ := Circuit.allocated_iff.mp
      (hT.registered_allocated (List.mem_append_left _ (Circuit.boundPairs_keys_subset hq)))
    have hq' := hmem hs
    rw [(Circuit.binding_eq_some hT hb).mpr hq] at hq'
    generalize ρ q.1 = w at hq'
    cases hq' with
    | bound s w => rfl
    | fresh p w hp _ _ => cases hp.1
  refine ⟨hbound, fun t v ht => ?_, fun t ht => ?_, fun t ht => ?_, fun t t' ht ht' htne => ?_⟩
  · have hq := hmem ht
    rw [binding_constant hT hb ht] at hq
    generalize ρ t = w at hq ⊢
    cases hq with
    | constant v w hw => exact hw
    | fresh p w hp _ _ => exact absurd rfl (hp.2 v)
  · rcases needsWire_or_bound hT hb ht with hneeds | ⟨w, hw⟩
    · exact .inr ((hmem ht).of_needsWire hneeds).1
    · rw [hbound (t, w) (List.mem_append_right _ hw)]
      exact .inl (List.of_mem_zip hw).2
  · rcases needsWire_or_bound hT hb ht with hneeds | ⟨w, hw⟩
    · exact ((hmem ht).of_needsWire hneeds).2
    · rw [hbound (t, w) (List.mem_append_right _ hw)]
      exact hev.writable (hb.writable w (List.of_mem_zip hw).2)
  · obtain ⟨s, hs⟩ := Circuit.allocated_iff.mp ht'
    rcases needsWire_or_bound hT hb ht with hneeds | ⟨w, hw⟩
    · have hindex : t.index ≠ t'.index := fun he => htne (congrArg Wire.mk he).symm
      exact (ne_of_needsWire hne (hl t _ ht) (hl t' s hs) hindex hneeds).symm
    · rw [hbound (t, w) (List.mem_append_right _ hw)]
      have hout := hb.writable w (List.of_mem_zip hw).2
      have hq := hmem hs
      intro he
      rw [he] at hq
      generalize hbind : template.binding ins outs t' = b at hq
      cases hq with
      | bound s w => exact htne (eq_of_bound_output hT hb hbind hw)
      | constant v w hc => exact Circuit.Given.not_writable (.inr ⟨v, hc⟩) (hev.writable hout)
      | fresh p w _ hn _ => exact hn hout.allocated

/-! ### The replay -/

/-- The gate on renamed wires. -/
def renameGate (ρ : Wire → Wire) (g : Gate) : Gate :=
  ⟨g.kind, ρ g.x, ρ g.y, ρ g.out⟩

/-- After the gates `done` of the template, the renamed wires of the host have the values of the
template's wires, as far as these have one. -/
def Simulates (template : Circuit) (ρ : Wire → Wire) (input v : Valuation) (done : List Gate)
    (c : Circuit) : Prop :=
  ∀ t, template.Given t ∨ (∃ g ∈ done, g.out = t) →
    c.value input (ρ t) = runGates done (template.start v) t

variable {ρ : Wire → Wire} {v : Valuation} {host host₁ : Circuit}

/-- Before the gates the given wires have their values. -/
theorem simulates_nil (hT : template.WellFormed) (hb : host.Bindings template ins outs)
    (hhost : host.WellFormed) (hev : host.Evolves ∅ c)
    (hρ : Renames host c template ins outs ρ) (hv : ∀ t, v t = host.value input (ρ t)) :
    Simulates template ρ input v [] c := by
  rintro t (ht | ⟨g, hg, -⟩)
  · rcases ht with hs | ⟨b, hs⟩
    · -- an input is bound to a wire that was there
      have hkey : t ∈ (template.inputs.flatten.zip ins.flatten).map Prod.fst := by
        rw [List.map_fst_zip (Circuit.length_flatten_eq hb.ins_widths).ge]
        exact (hT.input_iff t).mp hs
      obtain ⟨⟨t, w⟩, hq, rfl⟩ := List.mem_map.mp hkey
      have hw := hb.readable w (List.of_mem_zip hq).2
      rw [runGates, List.foldl_nil, Circuit.start_of_state hs, WireState.start, hv,
        hρ.bound (t, w) (List.mem_append_left _ hq),
        hev.value_eq hhost hw.allocated (Set.notMem_empty w)]
    · rw [runGates, List.foldl_nil, Circuit.start_of_state hs, WireState.start,
        Circuit.value_constant hev.wellFormed (hρ.constant t b hs)]
  · cases hg

/-- One gate of the replay. -/
theorem Simulates.gate {done rest : List Gate} {g : Gate} (hT : template.WellFormed)
    (hgates : template.gates.toList = done ++ g :: rest) (hρ : Renames host host₁ template ins outs ρ)
    (h : Simulates template ρ input v done c) (hg : c.requireGate (renameGate ρ g) = .ok ()) :
    Simulates template ρ input v (done ++ [g]) (c.pushGate (renameGate ρ g)) := by
  have hmem : g ∈ template.gates.toList := hgates ▸ List.mem_append_right _ List.mem_cons_self
  have hdriven : template.state? g.out = some .driven := (hT.driven_iff g.out).mpr ⟨g, hmem, rfl⟩
  intro t ht
  rw [Circuit.value_pushGate hg, runGates_append]
  change Gate.apply _ _ _ = Gate.apply _ _ _
  by_cases he : t = g.out
  · subst he
    have hx := h g.x (hT.reads done g rest hgates g.x (by simp))
    have hy := h g.y (hT.reads done g rest hgates g.y (by simp))
    rw [Gate.apply_out, ← hx, ← hy]
    exact Gate.apply_out (renameGate ρ g) _
  · -- the gate drives no wire that another one was renamed to
    have hold : template.Given t ∨ ∃ g' ∈ done, g'.out = t := by
      rcases ht with ht | ⟨g', hg', rfl⟩
      · exact .inl ht
      · rcases List.mem_append.mp hg' with hg' | hg'
        · exact .inr ⟨g', hg', rfl⟩
        · exact absurd (congrArg Gate.out (List.mem_singleton.mp hg')) he
    have halloc : template.Allocated t := by
      rcases hold with hg | ⟨g', hg', rfl⟩
      · exact hg.readable.allocated
      · exact (hT.gate_allocated (hgates ▸ List.mem_append_left _ hg')).2.2
    rw [Gate.apply_of_ne _ _ he, ← h t hold]
    exact Gate.apply_of_ne (renameGate ρ g) _ (hρ.ne g.out t hdriven halloc he)

/-- **The replayed gates do to the renamed wires what the template's gates do to its own.** -/
theorem replay_spec {table : Array Wire} (hT : template.WellFormed)
    (hρ : Renames host host₁ template ins outs ρ)
    (htable : ∀ t, template.Allocated t → entry table t.index = .ok (ρ t)) :
    ∀ {rest done : List Gate} {c c' : Circuit} {u : Unit}, template.gates.toList = done ++ rest →
    host.Evolves {w | w ∈ outs.flatten} c → Simulates template ρ input v done c →
    (rest.forM (m := Build) fun g => do
      let x ← entry table g.x.index
      let y ← entry table g.y.index
      let out ← entry table g.out.index
      drive ⟨g.kind, x, y, out⟩).exec c = (.ok u, c') →
    host.Evolves {w | w ∈ outs.flatten} c' ∧
      Simulates template ρ input v template.gates.toList c'
  | [], done, c, c', u, hgates, hev, hsim, h => by
    obtain ⟨-, rfl⟩ := exec_pure_eq_ok.mp h
    rw [List.append_nil] at hgates
    exact ⟨hev, hgates ▸ hsim⟩
  | g :: rest, done, c, c', u, hgates, hev, hsim, h => by
    have hmem : g ∈ template.gates.toList := hgates ▸ List.mem_append_right _ List.mem_cons_self
    obtain ⟨hx, hy, hout⟩ := hT.gate_allocated hmem
    rw [List.forM_eq_forM, List.forM_cons] at h
    obtain ⟨u₁, c₁, hgate, h⟩ := exec_bind_eq_ok.mp h
    rw [htable g.x hx, htable g.y hy, htable g.out hout] at hgate
    have hdrive : (drive (renameGate ρ g)).exec c = (.ok u₁, c₁) := hgate
    have hset := drive_spec hev.wellFormed hdrive
    obtain ⟨hg, rfl⟩ := exec_drive_eq_ok.mp hdrive
    refine replay_spec hT hρ htable (by rw [hgates, List.append_assoc, List.singleton_append])
      (hev.trans hset.toEvolves ?_) (hsim.gate hT hgates hρ hg) h
    rintro w rfl
    exact hρ.driven g.out ((hT.driven_iff g.out).mpr ⟨g, hmem, rfl⟩)

theorem map_eq_of_zip : ∀ {ts hs : Bundle}, hs.length = ts.length →
    (∀ q ∈ ts.zip hs, ρ q.1 = q.2) → ts.map ρ = hs
  | [], [], _, _ => rfl
  | t :: ts, w :: hs, hlen, h => by
    obtain ⟨hw, hrest⟩ := List.forall_mem_cons.mp h
    rw [List.map_cons, map_eq_of_zip (Nat.succ.inj hlen) hrest]
    exact congrArg (· :: hs) hw

/-- Bundles that are renamed wire by wire are renamed bundle by bundle. -/
theorem map_bundles_eq {ts hs : List Bundle} (hwidths : hs.map List.length = ts.map List.length)
    (h : ∀ q ∈ ts.flatten.zip hs.flatten, ρ q.1 = q.2) : (ts.map fun b => b.map ρ) = hs := by
  rw [List.eq_iff_flatten_eq]
  constructor
  · rw [← List.map_flatten, map_eq_of_zip (Circuit.length_flatten_eq hwidths) h]
  · rw [hwidths, List.map_map]
    simp [Function.comp_def]

theorem allocated_of_binding (hT : template.WellFormed) (hb : c.Bindings template ins outs) {t : Wire}
    (ht : template.binding ins outs t = some w) : c.Allocated w := by
  rcases List.mem_append.mp ((Circuit.binding_eq_some hT hb).mp ht) with h | h
  · exact (hb.readable w (List.of_mem_zip h).2).allocated
  · exact (hb.writable w (List.of_mem_zip h).2).allocated

/-- The wires of the host are found and are a renaming. -/
theorem hostTable_spec {ws : List Wire} (hT : template.WellFormed) (hc : c.WellFormed)
    (hb : c.Bindings template ins outs)
    (h : ((template.wires.toList.zip (valueTable template.wires.size (template.binding ins outs)).toList).mapM
      fun (s, w) => hostWire s w).exec c = (.ok ws, c')) :
    c.Evolves ∅ c' ∧ ∃ ρ : Wire → Wire, Renames c c' template ins outs ρ ∧
      ∀ t, template.Allocated t → entry ws.toArray t.index = .ok (ρ t) := by
  have hbound : ∀ p ∈ template.wires.toList.zip
      (valueTable template.wires.size (template.binding ins outs)).toList, ∀ w ∈ p.2, c.Allocated w := by
    intro p hp w hw
    obtain ⟨i, hlt, hi⟩ := List.getElem_of_mem (List.of_mem_zip hp).2
    refine allocated_of_binding hT hb (t := ⟨i⟩) ?_
    rw [← Option.mem_def.mp hw, ← hi]
    simp [valueTable]
  obtain ⟨hev, hlen, hhost, hne⟩ := hostWires_spec hc hbound h
  have hws : ws.length = template.wires.size := by
    rw [← hlen]
    simp [valueTable]
  have hget {t : Wire} (ht : template.Allocated t) : ws[t.index]? = some (ws[t.index]?.getD t) := by
    have hlt : t.index < ws.length := hws ▸ ht
    rw [List.getElem?_eq_getElem hlt]
    rfl
  refine ⟨hev, fun t => ws[t.index]?.getD t, renames_of_hosted hT hb hev (fun t s hs => ?_) hhost hne,
    fun t ht => ?_⟩
  · have ht := Circuit.allocated_iff.mpr ⟨s, hs⟩
    refine List.getElem?_zip_eq_some.mpr ⟨List.getElem?_zip_eq_some.mpr ⟨?_, ?_⟩, hget ht⟩
    · rw [Array.getElem?_toList]
      exact hs
    · have hlt : t.index < template.wires.size := ht
      simp [valueTable, hlt]
  · unfold entry
    rw [List.getElem?_toArray, hget ht]

/-- What a replay does: it drives of the host's wires only those of `outs`, and these get what the
template computes. -/
theorem instantiate_spec {u : Unit} (hT : template.WellFormed) (hc : c.WellFormed)
    (h : (instantiate template ins outs).exec c = (.ok u, c')) (input : Valuation) :
    c.Evolves {w | w ∈ outs.flatten} c' ∧ ∃ ρ : Wire → Wire,
      (template.inputs.map fun b => b.map ρ) = ins ∧ (template.outputs.map fun b => b.map ρ) = outs ∧
      ∀ t, template.Readable t →
        c'.value input (ρ t) = template.value (fun t => c.value input (ρ t)) t := by
  unfold instantiate at h
  rw [exec_get_bind] at h
  obtain ⟨u₁, hbind, h⟩ := exec_check_bind.mp h
  obtain ⟨bound, hbound, h⟩ := exec_check_bind.mp h
  obtain ⟨pairs, hpairs, h⟩ := exec_check_bind.mp h
  have hb := Circuit.requireBindings_eq_ok hbind
  rw [Circuit.bindingTable_eq hT] at hbound
  cases hbound
  obtain ⟨-, rfl⟩ := inStep_eq_ok.mp hpairs
  obtain ⟨ws, c₁, hws, h⟩ := exec_bind_eq_ok.mp h
  dsimp only at h
  rw [forM_array] at h
  obtain ⟨hev, ρ, hρ, htable⟩ := hostTable_spec hT hc hb hws
  obtain ⟨hev', hsim⟩ := replay_spec hT hρ htable (List.nil_append _).symm (hev.of_empty _)
    (simulates_nil (v := fun t => c.value input (ρ t)) hT hb hc hev hρ fun _ => rfl) h
  refine ⟨hev', ρ, map_bundles_eq hb.ins_widths fun q hq => hρ.bound q (List.mem_append_left _ hq),
    map_bundles_eq hb.outs_widths fun q hq => hρ.bound q (List.mem_append_right _ hq), fun t ht => ?_⟩
  refine hsim t (ht.given_or_driven.imp_right fun hs => ?_)
  exact (hT.driven_iff t).mp hs

end Build

/-- **Replaying keeps meaning.** The host's wires that the outputs of the template are bound to get
what the template computes from the values on the wires its inputs are bound to, bundle by
bundle, and every other wire of the host keeps its value. -/
theorem instantiate_preserves_meaning {template host host' : Circuit} {ins outs : List Bundle}
    (hT : Reachable template) (hH : Reachable host)
    (hdriven : ∀ w ∈ template.outputs.flatten, template.state? w = some .driven)
    (h : (Build.instantiate template ins outs).exec host = (.ok (), host')) (input : Valuation) :
    template.evalBits (ins.map fun b => b.map (host.value input)) =
        .ok (outs.map fun b => b.map (host'.value input)) ∧
      ∀ w, host.Allocated w → w ∉ outs.flatten → host'.value input w = host.value input w := by
  obtain ⟨hev, ρ, hins, houts, hval⟩ := Build.instantiate_spec hT.wellFormed hH.wellFormed h input
  have hread : ∀ w ∈ template.outputs.flatten, template.Readable w := fun w hw =>
    Circuit.readable_iff.mpr ⟨_, hdriven w hw, by simp⟩
  refine ⟨?_, fun w ha hw => hev.value_eq hH.wellFormed ha hw⟩
  -- the host's wires give the template its input, and its outputs are the host's
  have heval := Circuit.evalBits_eq_value hT.wellFormed hread fun t => host.value input (ρ t)
  have hin : (ins.map fun b => b.map (host.value input)) =
      template.inputs.map fun b => b.map fun t => host.value input (ρ t) := by
    rw [← hins]
    simp [Function.comp_def]
  have hout : (outs.map fun b => b.map (host'.value input)) =
      template.outputs.map fun b => b.map (template.value fun t => host.value input (ρ t)) := by
    rw [← houts, List.map_map]
    refine List.map_congr_left fun b hb => ?_
    rw [Function.comp_apply, List.map_map]
    exact List.map_congr_left fun t ht => hval t (hread t (List.mem_flatten.mpr ⟨b, hb, ht⟩))
  rw [hin, hout, heval]

/-- A template with an output that is driven twice. -/
def redrivenOutput : Circuit :=
  Call.afterAll [.addInput 2, .addOutput 1, .gateTo .and ⟨0⟩ ⟨1⟩ ⟨2⟩, .gateTo .xor ⟨0⟩ ⟨2⟩ ⟨2⟩]

/-- Both inputs of a template bound to one wire of a host. -/
theorem instantiate_preserves_meaning_same_wire :
    ∃ host host' : Circuit, Reachable redrivenOutput ∧ Reachable host ∧
      (Build.instantiate redrivenOutput [[⟨0⟩, ⟨0⟩]] [[⟨1⟩]]).exec host = (.ok (), host') ∧
      ∀ input : Valuation, redrivenOutput.evalBits [[host.value input ⟨0⟩, host.value input ⟨0⟩]] =
        .ok [[host'.value input ⟨1⟩]] := by
  have hT : Reachable redrivenOutput := reachable_afterAll (by simp [Call.template?])
  have hH : Reachable (Call.afterAll [.addInput 1, .addOutput 1]) :=
    reachable_afterAll (by simp [Call.template?])
  have hdriven : ∀ w ∈ redrivenOutput.outputs.flatten, redrivenOutput.state? w = some .driven := by
    decide
  obtain ⟨host', h⟩ : ∃ c', (Build.instantiate redrivenOutput [[⟨0⟩, ⟨0⟩]] [[⟨1⟩]]).exec
      (Call.afterAll [.addInput 1, .addOutput 1]) = (.ok (), c') := Build.exists_ok (by decide +kernel)
  exact ⟨_, host', hT, hH, h, fun input => (instantiate_preserves_meaning hT hH hdriven h input).1⟩

end BitCircuit
