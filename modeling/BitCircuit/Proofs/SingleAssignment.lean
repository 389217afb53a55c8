/-
# Circuits in single-assignment form

In every circuit of the catalogue, a wire that is neither an input nor a constant nor a registered
temporary is driven by exactly one gate, and no gate reads an output (`Circuit.Disciplined`). A circuit
without temporaries is therefore in single-assignment form (`Circuit.SingleAssignment`): each gate drives
a wire of its own, all wires but inputs and constants are driven, and a gate reads only what has a value
by then. Which requests need no temporaries is known from the request (`Request.TemporaryFree`).

Key definitions: `Circuit.Disciplined`, `Circuit.SingleAssignment`, `Request.TemporaryFree`.
Key theorems: `Circuit.Disciplined.singleAssignment`, `Request.leads_build`, `register_discipline`.
-/
import BitCircuit.Proofs.Catalogue
import BitCircuit.Proofs.Integer.Discipline
import BitCircuit.Proofs.Aes.Discipline

namespace BitCircuit
namespace Circuit

variable {c : Circuit} {outs pending known : Bundle} {ts : List Bundle}

/-! ### Finished circuits -/

/-- Only temporaries are driven more than once, only temporaries may be left undriven, and outputs are
not read. -/
structure Disciplined (c : Circuit) : Prop where
  once : ∀ w, c.Allocated w → ¬ c.Given w → w ∉ c.temps.flatten → c.drivers w = 1
  unread : ∀ g ∈ c.gates.toList, ∀ w ∈ g.reads, w ∉ c.outputs.flatten

/-- No two gates drive one wire, every wire that is neither an input nor a constant is driven, and a gate
reads inputs, constants and what a gate before it drives. -/
structure SingleAssignment (c : Circuit) : Prop where
  nodup : (c.gates.toList.map Gate.out).Nodup
  driven_iff : ∀ w, w ∈ c.gates.toList.map Gate.out ↔ c.Allocated w ∧ ¬ c.Given w
  reads : ∀ before g after, c.gates.toList = before ++ g :: after →
    ∀ w ∈ g.reads, c.Given w ∨ w ∈ before.map Gate.out

theorem mem_reads {g : Gate} {w : Wire} (h : w ∈ g.reads) : w = g.x ∨ w = g.y := by
  unfold Gate.reads at h
  split at h
  · exact .inl (List.mem_singleton.mp h)
  · simpa using h

theorem count_out (c : Circuit) (w : Wire) : (c.gates.toList.map Gate.out).count w = c.drivers w := by
  rw [List.count_eq_countP, List.countP_map]
  rfl

theorem Disciplined.singleAssignment (h : c.Disciplined) (hc : c.WellFormed) (ht : c.temps = []) :
    c.SingleAssignment := by
  have hdriven : ∀ w, w ∈ c.gates.toList.map Gate.out ↔ c.Allocated w ∧ ¬ c.Given w := by
    intro w
    constructor
    · intro hw
      obtain ⟨g, hg, rfl⟩ := List.mem_map.mp hw
      exact ⟨(hc.gate_allocated hg).2.2, hc.not_given_out hg⟩
    · rintro ⟨ha, hn⟩
      apply List.count_pos_iff.mp
      rw [count_out, h.once w ha hn (by simp [ht])]
      exact Nat.one_pos
  refine ⟨List.nodup_iff_count_le_one.mpr fun w => ?_, hdriven, fun before g after hsplit w hw => ?_⟩
  · by_cases hw : w ∈ c.gates.toList.map Gate.out
    · obtain ⟨ha, hn⟩ := (hdriven w).mp hw
      rw [count_out, h.once w ha hn (by simp [ht])]
    · rw [List.count_eq_zero_of_not_mem hw]
      exact Nat.zero_le 1
  · have hxy : w ∈ [g.x, g.y] := by simpa using mem_reads hw
    rcases hc.reads before g after hsplit w hxy with hgiven | ⟨g', hg', rfl⟩
    · exact .inl hgiven
    · exact .inr (List.mem_map_of_mem hg')

/-- A wire is given or may be driven. -/
theorem writable_of_not_given {w : Wire} (ha : c.Allocated w) (hn : ¬ c.Given w) : c.Writable w := by
  obtain ⟨s, hs⟩ := allocated_iff.mp ha
  rw [writable_iff]
  cases s with
  | input => exact absurd (.inl hs) hn
  | constant v => exact absurd (.inr ⟨v, hs⟩) hn
  | undriven => exact .inl hs
  | driven => exact .inr hs

/-- A tidy circuit with nothing pending is disciplined. -/
theorem Tidy.disciplined (h : Tidy outs ts [] c) : c.Disciplined := by
  constructor
  · intro w ha hn ht
    rw [h.temps] at ht
    exact h.once w (writable_of_not_given ha hn) ht List.not_mem_nil
  · intro g hg w hw
    obtain ⟨hx, hy⟩ := h.unread g hg
    rw [h.outputs]
    rcases mem_reads hw with rfl | rfl
    · exact hx
    · exact hy

/-- A tidy circuit with nothing pending, which has no temporaries exactly if `frugal` holds. -/
def Neat (frugal : Prop) (c : Circuit) : Prop :=
  ∃ outs, TidyFrom frugal outs [] [] c

theorem Tidy.neat_of_temps {temps : Bundle} (h : Tidy outs [temps] [] c) : Neat False c :=
  ⟨outs, [temps], by simp, h⟩

/-- Old wires are there after an allocation. -/
theorem Allocated.addWires {w : Wire} {s : WireState} {n : Nat} (h : c.Allocated w) :
    (c.addWires s n).Allocated w := by
  obtain ⟨t, ht⟩ := allocated_iff.mp h
  exact allocated_iff.mpr ⟨t, state_addWires ht⟩

/-- A circuit that is tidy and has the wires `known`, none of which is an output. -/
def Laid (outs : Bundle) (ts : List Bundle) (pending known : Bundle) (c : Circuit) : Prop :=
  Tidy outs ts pending c ∧ ∀ w ∈ known, c.Allocated w ∧ w ∉ outs

end Circuit

namespace Build

open Circuit

variable {α β : Type} {outs pending known : Bundle} {ts : List Bundle} {Q : α → Prop} {R : β → Prop}
  {J : Circuit → Prop}

/-! ### Registering bundles -/

theorem Leads.from_empty {step : Build α} (h : Leads (Laid [] [] [] []) step Q J) :
    Leads (· = Circuit.empty) step Q J := by
  rintro c a c' rfl hstep
  exact h _ a c' ⟨.empty, by simp⟩ hstep

theorem Leads.laid {step : Build α}
    (h : (∀ w ∈ known, w ∉ outs) → Leads (Tidy outs ts pending) step Q J) :
    Leads (Laid outs ts pending known) step Q J := by
  rintro c a c' ⟨hc, hknown⟩ hstep
  exact h (fun w hw => (hknown w hw).2) c a c' hc hstep

theorem Leads.addInput {n : Nat} {f : Bundle → Build β}
    (hf : ∀ b, Leads (Laid outs ts pending (known ++ b)) (f b) R J) :
    Leads (Laid outs ts pending known) (addInput n >>= f) R J := by
  rintro c r c' ⟨hc, hknown⟩ h
  obtain ⟨b, c₁, hnew, h⟩ := exec_bind_eq_ok.mp h
  obtain ⟨-, rfl, rfl⟩ := addInput_eq_ok hnew
  refine hf _ _ r c' ⟨hc.withInput n, fun w hw => ?_⟩ h
  rcases List.mem_append.mp hw with hw | hw
  · exact ⟨(hknown w hw).1.addWires, (hknown w hw).2⟩
  · refine ⟨allocated_iff.mpr ⟨.input, ?_⟩, not_mem_of_mem_nextBundle hc w hw⟩
    exact state?_addWires.trans (if_pos hw)

/-- An output is none of the wires that were there before. -/
theorem Leads.addOutput {n : Nat} {f : Bundle → Build β}
    (hf : ∀ b, b.length = n → Leads (Laid (outs ++ b) ts (b ++ pending) known) (f b) R J) :
    Leads (Laid outs ts pending known) (addOutput n >>= f) R J := by
  rintro c r c' ⟨hc, hknown⟩ h
  obtain ⟨b, c₁, hnew, h⟩ := exec_bind_eq_ok.mp h
  obtain ⟨-, rfl, rfl⟩ := addOutput_eq_ok hnew
  refine hf _ length_nextBundle _ r c' ⟨hc.withOutput n, fun w hw => ?_⟩ h
  obtain ⟨ha, hn⟩ := hknown w hw
  refine ⟨ha.addWires, fun hm => ?_⟩
  rcases List.mem_append.mp hm with hm | hm
  · exact hn hm
  · exact (mem_nextBundle.mp hm).1 ha

theorem Leads.constant {v : Bool} {f : Wire → Build β}
    (hf : ∀ w, Leads (Laid outs ts pending (known ++ [w])) (f w) R J) :
    Leads (Laid outs ts pending known) (constant v >>= f) R J := by
  rintro c r c' ⟨hc, hknown⟩ h
  obtain ⟨w, c₁, hconst, h⟩ := exec_bind_eq_ok.mp h
  obtain ⟨hw, hc₁⟩ := leads_constant v c w c₁ hc hconst
  obtain ⟨hev, hs⟩ := constant_state hc.wellFormed hconst
  refine hf w c₁ r c' ⟨hc₁, fun w' hw' => ?_⟩ h
  rcases List.mem_append.mp hw' with hw' | hw'
  · exact ⟨hev.allocated (hknown w' hw').1, (hknown w' hw').2⟩
  · rw [List.mem_singleton.mp hw']
    exact ⟨allocated_iff.mpr ⟨_, hs⟩, hw⟩

theorem Leads.constants : ∀ (bits : List Bool) {known : Bundle} {f : Bundle → Build β},
    (∀ b, Leads (Laid outs ts pending (known ++ b)) (f b) R J) →
    Leads (Laid outs ts pending known) (bits.mapM Build.constant >>= f) R J
  | [], known, f, hf => by
    have hnil := hf []
    rw [List.append_nil] at hnil
    rw [List.mapM_nil, pure_bind]
    exact hnil
  | v :: bits, known, f, hf => by
    rw [List.mapM_cons, bind_assoc]
    apply Leads.constant
    intro w
    simp only [bind_assoc, pure_bind]
    apply Leads.constants bits
    intro b
    rw [List.append_assoc]
    exact hf (w :: b)

theorem Leads.constantBundle {v : Word} {n : Nat} {f : Bundle → Build β}
    (hf : ∀ b, Leads (Laid outs ts pending (known ++ b)) (f b) R J) :
    Leads (Laid outs ts pending known) (constantBundle v n >>= f) R J := by
  unfold Build.constantBundle
  rw [bind_assoc]
  apply Leads.checked
  intro _ _
  exact Leads.constants _ hf

end Build

namespace Request

open Build Circuit

variable {a b n : Nat}

/-! ### Recipes -/

/-- The requests whose circuits have no temporaries: sums, differences and comparisons that are made
shallow, the shallow unsigned product, and operations without an adder or a selection. -/
def TemporaryFree : Request → Prop
  | .addSub _ _ _ _ _ obj | .addSubConst _ _ _ _ _ obj | .addMsb _ obj | .subMsb _ _ _ obj
  | .lessThan _ _ _ obj | .atLeast _ _ _ obj => obj = .depth
  | .multiply enc _ _ _ obj => enc = .unsigned ∧ obj = .depth
  | .equal _ | .notEqual _ | .isZero _ | .complement _ | .bitwise _ _ _ _ | .aes _ => True
  | .divide _ _ _ _ | .select _ | .magnitude _ _ | .applySign _ _ | .negate _ _ => False

/-- An operation with two operands that drives its result. -/
theorem leads_buildBinary {op : Bundle → Bundle → Bundle → Build Unit} {frugal : Prop}
    (hop : ∀ x y out : Bundle, (∀ w ∈ x, w ∉ out) → (∀ w ∈ y, w ∉ out) →
      Leads (Tidy out [] (out ++ [])) (op x y out) (fun _ => True) (TidyFrom frugal out [] [])) :
    Leads (· = Circuit.empty) (buildBinary a b n op) (fun _ => True) (Neat frugal) := by
  apply Leads.from_empty
  apply Leads.addInput
  intro x
  apply Leads.addInput
  intro y
  apply Leads.addOutput
  intro out _
  apply Leads.laid
  intro hknown
  have hx : ∀ w ∈ x, w ∉ out := fun w hw => hknown w (by simp [hw])
  have hy : ∀ w ∈ y, w ∉ out := fun w hw => hknown w (by simp [hw])
  exact (hop x y out hx hy).weaken fun c hc => ⟨out, hc⟩

/-- An operation with one operand that drives its result. -/
theorem leads_buildUnary {op : Bundle → Bundle → Build Unit} {frugal : Prop}
    (hop : ∀ x out : Bundle, (∀ w ∈ x, w ∉ out) →
      Leads (Tidy out [] (out ++ [])) (op x out) (fun _ => True) (TidyFrom frugal out [] [])) :
    Leads (· = Circuit.empty) (addInput a >>= fun x => addOutput n >>= fun out => op x out)
      (fun _ => True) (Neat frugal) := by
  apply Leads.from_empty
  apply Leads.addInput
  intro x
  apply Leads.addOutput
  intro out _
  apply Leads.laid
  intro hknown
  exact (hop x out hknown).weaken fun c hc => ⟨out, hc⟩

theorem leads_buildMsb {dir : Direction} {enc : Encoding} {obj : Objective} :
    Leads (· = Circuit.empty) (buildMsb dir enc a b obj) (fun _ => True) (Neat (obj = .depth)) := by
  apply leads_buildBinary
  intro x y out hx hy
  apply Leads.adderTemps
  intro temps more hmore htemps
  exact (leads_sumBit hx hy htemps).tidyFrom hmore

theorem leads_divide {enc : Encoding} :
    Leads (· = Circuit.empty) (Request.divide enc a b n).build (fun _ => True) (Neat False) := by
  apply Leads.from_empty
  apply Leads.addInput
  intro x
  apply Leads.addInput
  intro y
  apply Leads.addOutput
  intro quot _
  apply Leads.addOutput
  intro rem _
  apply Leads.laid
  intro hknown
  have hx : ∀ w ∈ x, w ∉ [] ++ quot ++ rem := fun w hw => hknown w (by simp [hw])
  have hy : ∀ w ∈ y, w ∉ [] ++ quot ++ rem := fun w hw => hknown w (by simp [hw])
  apply Leads.perm (List.perm_append_comm_assoc rem quot [])
  exact (Build.leads_divide hx hy).weaken fun c hc => ⟨_, hc⟩

/-- Besides the magnitude there is the sign, which is pending until the end. -/
theorem leads_magnitude {obj : Objective} :
    Leads (· = Circuit.empty) (Request.magnitude a obj).build (fun _ => True) (Neat False) := by
  apply Leads.from_empty
  apply Leads.addInput
  intro x
  apply Leads.addOutput
  intro out _
  apply Leads.addOutput
  intro sign hsign
  apply Leads.laid
  intro hx
  apply Leads.addTemps
  intro temps htemps
  apply Leads.perm (List.perm_append_comm_assoc sign out [])
  apply (Build.leads_magnitude hx htemps).after
  intro _
  apply Leads.checked
  intro top htop
  apply Leads.checked
  intro o ho
  rw [eq_singleton_of_wireAt (requireWidth_eq_ok.mpr hsign) ho] at hx ⊢
  exact (leads_copyTo (not_mem_of_msb hx htop) .first).weaken fun c hc => hc.neat_of_temps

/-- **The recipe of a request leaves a tidy circuit** with nothing pending. -/
theorem leads_build (r : Request) :
    Leads (· = Circuit.empty) r.build (fun _ => True) (Neat r.TemporaryFree) := by
  cases r with
  | addSub dir enc a b n obj =>
    apply leads_buildBinary
    intro x y out hx hy
    apply Leads.adderTemps
    intro temps more hmore htemps
    exact (leads_addSub hx hy htemps).tidyFrom hmore
  | addSubConst dir a b v n obj =>
    apply Leads.from_empty
    apply Leads.addInput
    intro x
    apply Leads.constantBundle
    intro y
    apply Leads.addOutput
    intro out _
    apply Leads.laid
    intro hknown
    have hx : ∀ w ∈ x, w ∉ out := fun w hw => hknown w (by simp [hw])
    have hy : ∀ w ∈ y, w ∉ out := fun w hw => hknown w (by simp [hw])
    apply Leads.adderTemps
    intro temps more hmore htemps
    exact (leads_addSub hx hy htemps).weaken fun c hc => ⟨out, more, hmore, hc⟩
  | addMsb a obj => exact leads_buildMsb
  | subMsb enc a b obj => exact leads_buildMsb
  | multiply enc a b n obj => exact leads_buildBinary fun x y out hx hy => leads_multiply hx hy
  | divide enc a b n => exact leads_divide
  | equal a =>
    exact leads_buildBinary fun x y out hx hy => (leads_equal hx hy).frugal
  | notEqual a =>
    exact leads_buildBinary fun x y out hx hy => (leads_notEqual hx hy).frugal
  | lessThan enc a b obj => exact leads_buildBinary fun x y out hx hy => leads_lessThan hx hy
  | atLeast enc a b obj => exact leads_buildBinary fun x y out hx hy => leads_atLeast hx hy
  | select a =>
    apply Leads.from_empty
    apply Leads.addInput
    intro ifTrue
    apply Leads.addInput
    intro ifFalse
    apply Leads.addInput
    intro choice
    apply Leads.addOutput
    intro out _
    apply Leads.laid
    intro hknown
    have ht : ∀ w ∈ ifTrue, w ∉ out := fun w hw => hknown w (by simp [hw])
    have hf : ∀ w ∈ ifFalse, w ∉ out := fun w hw => hknown w (by simp [hw])
    have hchoice : ∀ w ∈ choice, w ∉ out := fun w hw => hknown w (by simp [hw])
    apply Leads.addTemps
    intro temps htemps
    exact (leads_selectTo ht hf hchoice htemps).weaken fun c hc => hc.neat_of_temps
  | magnitude a obj => exact leads_magnitude
  | applySign a obj =>
    apply leads_buildBinary
    intro x sign out hx hsign
    apply Leads.addTemps
    intro temps htemps
    exact (leads_applySign hx htemps hsign).tidyFrom (by simp [TemporaryFree])
  | negate a obj =>
    apply leads_buildUnary
    intro x out hx
    apply Leads.addTemps
    intro temps htemps
    exact (leads_negate hx htemps).tidyFrom (by simp [TemporaryFree])
  | isZero a =>
    exact leads_buildUnary fun x out hx => (leads_isZero hx).frugal
  | complement a =>
    exact leads_buildUnary fun x out hx => (leads_complement hx).frugal
  | bitwise op a b n =>
    exact leads_buildBinary fun x y out hx hy => (leads_bitwise hx hy).frugal
  | aes rounds =>
    apply Leads.checked
    intro keyWidth _
    exact leads_buildBinary fun x y out hx hy => (leads_encrypt hx hy).frugal

theorem neat_of_circuit {r : Request} {c : Circuit} (h : r.circuit = .ok c) : Neat r.TemporaryFree c := by
  unfold circuit at h
  split at h
  · rename_i c' hbuild
    cases h
    exact (leads_build r _ _ _ rfl hbuild).2
  · cases h

end Request

open Catalogue in
/-- **Every circuit of the catalogue keeps the register discipline.** Whatever was asked for before, in
the circuit that a request returns a wire that is neither an input nor a constant nor a temporary is driven
by exactly one gate, and no gate reads an output. The circuit has no temporaries exactly if the request
needs none, and then it is in single-assignment form. -/
theorem register_discipline (before : List Request) (r : Request) (c : Circuit)
    (h : ((afterAll before).serve r).result = .ok c) :
    c.Disciplined ∧ (c.temps = [] ↔ r.TemporaryFree) ∧ (c.temps = [] → c.SingleAssignment) := by
  rw [(holds_afterAll before).result_eq r] at h
  obtain ⟨outs, more, hmore, hc⟩ := Request.neat_of_circuit h
  have hd := hc.disciplined
  refine ⟨hd, ?_, hd.singleAssignment hc.wellFormed⟩
  rw [hc.temps]
  exact hmore

open Catalogue in
/-- A small sum of three bits has two temporaries, one of which is driven four times; a shallow comparison
asked for after it has none and is in single-assignment form. -/
theorem register_discipline_small_and_shallow : ∃ sum less : Circuit,
    ((afterAll []).serve (.addSub .addition .unsigned 3 3 3 .size)).result = .ok sum ∧
    ((afterAll [.addSub .addition .unsigned 3 3 3 .size]).serve (.lessThan .unsigned 2 1 .depth)).result =
      .ok less ∧
    sum.Disciplined ∧ sum.temps = [[⟨9⟩, ⟨10⟩]] ∧ sum.drivers ⟨9⟩ = 4 ∧ less.SingleAssignment := by
  have hsum : (((afterAll []).serve (.addSub .addition .unsigned 3 3 3 .size)).result.toOption.map
      fun c => (c.temps, c.drivers ⟨9⟩)) = some ([[⟨9⟩, ⟨10⟩]], 4) := by decide +kernel
  obtain ⟨sum, hsum, hvalues⟩ := Option.map_eq_some_iff.mp hsum
  obtain ⟨htemps, hdrivers⟩ := Prod.mk.inj hvalues
  have hless : (((afterAll [.addSub .addition .unsigned 3 3 3 .size]).serve
      (.lessThan .unsigned 2 1 .depth)).result.toOption.map Circuit.temps) = some [] := by decide +kernel
  obtain ⟨less, hless, hnone⟩ := Option.map_eq_some_iff.mp hless
  have hsum := ok_of_toOption hsum
  have hless := ok_of_toOption hless
  exact ⟨sum, less, hsum, hless, (register_discipline _ _ sum hsum).1, htemps, hdrivers,
    (register_discipline _ _ less hless).2.2 hnone⟩

end BitCircuit
