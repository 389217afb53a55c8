/-
# Wires that are driven once

An operation drives each wire of its results once, and so it does with every wire that it allocates
on its way; only temporaries are driven again and again. And it reads none of the outputs of the
circuit. `Circuit.Tidy outs ts pending` says this of a circuit that is being built: a wire that gates
may drive is one of the temporaries `ts`, or among the wires `pending` that no gate drives yet, or
driven by one gate. A step allocates wires, which are pending from then on, or drives a wire that is
pending, which is not pending any more. An operation is done with its results when it leaves none
of them pending.

Key definitions: `Circuit.drivers`, `Circuit.Tidy`, `Circuit.Spent`, `Circuit.TidyFrom`,
`Build.Leads`, `Build.Spare`.
Key theorems: `Circuit.Tidy.pushGate`, `Build.Leads.bind`, `Build.Leads.newBundle`,
`Build.Leads.addTemps`, `Build.leads_gate`, `Build.leads_gateTo`, `Build.Leads.forM_inStep`.
-/
import BitCircuit.Proofs.Bundle
import BitCircuit.Proofs.Folding

namespace BitCircuit
namespace Circuit

variable {c c' : Circuit} {w : Wire} {outs pending pending' : Bundle} {ts : List Bundle}

/-! ### Tidy circuits -/

/-- The number of gates that drive the wire. -/
def drivers (c : Circuit) (w : Wire) : Nat :=
  c.gates.toList.countP fun g => g.out = w

/-- A well-formed circuit with the output wires `outs` and the temporaries `ts`, in which no gate reads
an output. Of the wires that gates may drive, those in `pending` are not driven yet; all others are
temporaries or driven by exactly one gate. -/
structure Tidy (outs : Bundle) (ts : List Bundle) (pending : Bundle) (c : Circuit) : Prop where
  wellFormed : c.WellFormed
  outputs : c.outputs.flatten = outs
  temps : c.temps = ts
  nodup : pending.Nodup
  undriven : ∀ w ∈ pending, c.state? w = some .undriven ∧ w ∉ ts.flatten
  once : ∀ w, c.Writable w → w ∉ ts.flatten → w ∉ pending → c.drivers w = 1
  unread : ∀ g ∈ c.gates.toList, g.x ∉ outs ∧ g.y ∉ outs

/-- An undriven wire has no driver. -/
theorem drivers_eq_zero (hc : c.WellFormed) (h : c.state? w = some .undriven) : c.drivers w = 0 := by
  apply List.countP_eq_zero.mpr
  intro g hg
  have hne : g.out ≠ w := by
    intro he
    have hdriven := (hc.driven_iff w).mpr ⟨g, hg, he⟩
    rw [h] at hdriven
    cases hdriven
  simpa using hne

theorem drivers_pushGate (c : Circuit) (g : Gate) (w : Wire) :
    (c.pushGate g).drivers w = c.drivers w + if g.out = w then 1 else 0 := by
  unfold drivers pushGate
  rw [Array.toList_push, List.countP_append, List.countP_singleton]
  simp

namespace Tidy

theorem empty : Tidy [] [] [] Circuit.empty where
  wellFormed := wellFormed_empty
  outputs := rfl
  temps := rfl
  nodup := List.nodup_nil
  undriven := by simp
  once w hw := by simp [writable_iff, Circuit.empty, state?] at hw
  unread := by simp [Circuit.empty]

/-- The order in which wires are pending does not matter. -/
theorem perm (h : Tidy outs ts pending c) (hp : pending.Perm pending') : Tidy outs ts pending' c where
  wellFormed := h.wellFormed
  outputs := h.outputs
  temps := h.temps
  nodup := hp.nodup_iff.mp h.nodup
  undriven w hw := h.undriven w (hp.mem_iff.mpr hw)
  once w hw ht hn := h.once w hw ht fun hm => hn (hp.mem_iff.mp hm)
  unread := h.unread

theorem pending_allocated (h : Tidy outs ts pending c) : ∀ w ∈ pending, c.Allocated w :=
  fun w hw => allocated_iff.mpr ⟨_, (h.undriven w hw).1⟩

theorem temps_allocated (h : Tidy outs ts pending c) : ∀ w ∈ ts.flatten, c.Allocated w := by
  intro w hw
  rw [← h.temps] at hw
  exact (h.wellFormed.writable w (List.mem_append_right _ hw)).allocated

theorem outs_writable (h : Tidy outs ts pending c) : ∀ w ∈ outs, c.Writable w := by
  intro w hw
  rw [← h.outputs] at hw
  exact h.wellFormed.writable w (List.mem_append_left _ hw)

/-- A given wire is no output. -/
theorem not_mem_of_given (h : Tidy outs ts pending c) (hw : c.Given w) : w ∉ outs :=
  fun hm => hw.not_writable (h.outs_writable w hm)

/-- A wire that can be read is not pending. -/
theorem not_mem_of_readable (h : Tidy outs ts pending c) (hw : c.Readable w) : w ∉ pending := by
  intro hm
  obtain ⟨s, hs, hne⟩ := readable_iff.mp hw
  rw [(h.undriven w hm).1] at hs
  cases hs
  exact hne rfl

/-! ### Allocation -/

/-- Allocation keeps a circuit tidy if the new wires that gates may drive are pending or registered as
temporaries, and old ones are not registered as outputs. -/
theorem allocate {outs' : Bundle} {ts' : List Bundle} (h : Tidy outs ts pending c)
    (hwf : c'.WellFormed) (hgates : c'.gates = c.gates)
    (hstate : ∀ w, c.Allocated w → c'.state? w = c.state? w)
    (houtputs : c'.outputs.flatten = outs') (htemps : c'.temps = ts') (hnodup : pending'.Nodup)
    (hpending : ∀ w ∈ pending', c'.state? w = some .undriven ∧ w ∉ ts'.flatten)
    (hnew : ∀ w, c'.Writable w → ¬ c.Allocated w → w ∈ ts'.flatten ∨ w ∈ pending')
    (hold : ∀ w, w ∈ pending → w ∈ pending') (hts : ∀ w ∈ ts.flatten, w ∈ ts'.flatten)
    (houts : ∀ w ∈ outs', w ∈ outs ∨ ¬ c.Allocated w) : Tidy outs' ts' pending' c' where
  wellFormed := hwf
  outputs := houtputs
  temps := htemps
  nodup := hnodup
  undriven := hpending
  once w hw ht hp := by
    have ha : c.Allocated w := by
      by_contra ha
      rcases hnew w hw ha with hm | hm
      · exact ht hm
      · exact hp hm
    have hw' : c.Writable w := by
      rw [writable_iff] at hw ⊢
      rwa [hstate w ha] at hw
    have honce := h.once w hw' (fun hm => ht (hts w hm)) fun hm => hp (hold w hm)
    unfold drivers at honce ⊢
    rwa [hgates]
  unread g hg := by
    rw [hgates] at hg
    obtain ⟨hx, hy⟩ := h.unread g hg
    obtain ⟨hax, hay, -⟩ := h.wellFormed.gate_allocated hg
    constructor
    · intro hm
      rcases houts _ hm with hm | hm
      · exact hx hm
      · exact hm hax
    · intro hm
      rcases houts _ hm with hm | hm
      · exact hy hm
      · exact hm hay

section Fresh

variable (h : Tidy outs ts pending c) (n : Nat)
include h

theorem nodup_fresh : (c.nextBundle n ++ pending).Nodup := by
  apply List.nodup_append.mpr
  refine ⟨nodup_nextBundle, h.nodup, ?_⟩
  rintro w hw w' hw' rfl
  exact (mem_nextBundle.mp hw).1 (h.pending_allocated w hw')

/-- New wires are undriven and no temporaries, and those that were pending are so still. -/
theorem undriven_fresh : ∀ w ∈ c.nextBundle n ++ pending,
    (c.addWires .undriven n).state? w = some .undriven ∧ w ∉ ts.flatten := by
  intro w hw
  rcases List.mem_append.mp hw with hw | hw
  · refine ⟨by rw [state?_addWires, if_pos hw], ?_⟩
    exact fun ht => (mem_nextBundle.mp hw).1 (h.temps_allocated w ht)
  · obtain ⟨hs, ht⟩ := h.undriven w hw
    exact ⟨state_addWires hs, ht⟩

omit h in
/-- A wire of the new circuit that was not there before is a new one. -/
theorem mem_fresh {s : WireState} (hw : (c.addWires s n).Allocated w) (ha : ¬ c.Allocated w) :
    w ∈ c.nextBundle n := by
  obtain ⟨t, ht⟩ := allocated_iff.mp hw
  rw [state?_addWires] at ht
  by_contra hm
  rw [if_neg hm, state?_eq_none.mpr ha] at ht
  cases ht

theorem addWires : Tidy outs ts (c.nextBundle n ++ pending) (c.addWires .undriven n) := by
  refine h.allocate (h.wellFormed.addWires n) rfl (fun w => state?_addWires_of_allocated) h.outputs h.temps
    (h.nodup_fresh n) (h.undriven_fresh n) ?_ (fun w => List.mem_append_right _) (fun w hw => hw)
    (fun w hw => .inl hw)
  intro w hw ha
  exact .inr (List.mem_append_left _ (mem_fresh n hw.allocated ha))

theorem withOutput :
    Tidy (outs ++ c.nextBundle n) ts (c.nextBundle n ++ pending) (c.withOutput n) := by
  refine h.allocate (h.wellFormed.withOutput n) rfl (fun w => state?_addWires_of_allocated) ?_ h.temps
    (h.nodup_fresh n) (h.undriven_fresh n) ?_ (fun w => List.mem_append_right _) (fun w hw => hw) ?_
  · simp [Circuit.withOutput, h.outputs]
  · intro w hw ha
    exact .inr (List.mem_append_left _ (mem_fresh n hw.allocated ha))
  · intro w hw
    rcases List.mem_append.mp hw with hw | hw
    · exact .inl hw
    · exact .inr (mem_nextBundle.mp hw).1

theorem withTemps : Tidy outs (ts ++ [c.nextBundle n]) pending (c.withTemps n) := by
  have hflat : (ts ++ [c.nextBundle n]).flatten = ts.flatten ++ c.nextBundle n := by simp
  refine h.allocate (h.wellFormed.withTemps n) rfl (fun w => state?_addWires_of_allocated) h.outputs
    (congrArg (· ++ _) h.temps) h.nodup ?_ ?_ (fun w hw => hw) ?_ (fun w hw => .inl hw)
  · intro w hw
    obtain ⟨hs, ht⟩ := h.undriven w hw
    refine ⟨state_addWires hs, ?_⟩
    rw [hflat, List.mem_append]
    rintro (hm | hm)
    · exact ht hm
    · exact (mem_nextBundle.mp hm).1 (h.pending_allocated w hw)
  · intro w hw ha
    rw [hflat]
    exact .inl (List.mem_append_right _ (mem_fresh n hw.allocated ha))
  · intro w hw
    rw [hflat]
    exact List.mem_append_left _ hw

theorem withInput : Tidy outs ts pending (c.withInput n) := by
  refine h.allocate (h.wellFormed.withInput n) rfl (fun w => state?_addWires_of_allocated) h.outputs h.temps
    h.nodup ?_ ?_ (fun w hw => hw) (fun w hw => hw) (fun w hw => .inl hw)
  · intro w hw
    obtain ⟨hs, ht⟩ := h.undriven w hw
    exact ⟨state_addWires hs, ht⟩
  · intro w hw ha
    -- a new wire is an input, which no gate may drive
    have hs : (c.addWires .input n).state? w = some .input := by
      rw [state?_addWires, if_pos (mem_fresh n hw.allocated ha)]
    exact absurd hw (Given.not_writable (c := c.withInput n) (.inl hs))

end Fresh

theorem addConstant {v : Bool} (h : Tidy outs ts pending c) (hv : c.constantWire? v = none) :
    Tidy outs ts pending (c.addConstant v) := by
  obtain ⟨hgates, -, houtputs, htemps⟩ := addConstant_eq (c := c) v
  refine h.allocate (h.wellFormed.addConstant hv) hgates (fun w => state?_addConstant_of_allocated)
    (houtputs ▸ h.outputs) (htemps.trans h.temps) h.nodup ?_ ?_ (fun w hw => hw) (fun w hw => hw)
    (fun w hw => .inl hw)
  · intro w hw
    obtain ⟨hs, ht⟩ := h.undriven w hw
    exact ⟨(state?_addConstant_of_allocated (h.pending_allocated w hw)).trans hs, ht⟩
  · intro w hw ha
    -- the new wire is a constant, which no gate may drive
    have hs : (c.addConstant v).state? w = if w = c.nextWire then some (.constant v) else none := by
      rw [state?_addConstant, state?_eq_none.mpr ha]
    by_cases he : w = c.nextWire
    · rw [if_pos he] at hs
      exact absurd hw (Given.not_writable (.inr ⟨v, hs⟩))
    · rw [if_neg he] at hs
      exact absurd hw.allocated (state?_eq_none.mp hs)

end Tidy

/-! ### Gates -/

/-- Driving `out` turns the pending wires `pending` into `pending'`: it is the first of them, or a
temporary, for which nothing changes. -/
inductive Spent (ts : List Bundle) (out : Wire) : Bundle → Bundle → Prop
  | first {pending : Bundle} : Spent ts out (out :: pending) pending
  | temp {pending : Bundle} : out ∈ ts.flatten → Spent ts out pending pending

namespace Spent

variable {out : Wire} (hs : Spent ts out pending pending')
include hs

/-- The wires still pending were pending before, and the one that was driven is none of them. -/
theorem pending_rest (h : Tidy outs ts pending c) :
    pending'.Nodup ∧ ∀ w ∈ pending', w ∈ pending ∧ w ≠ out := by
  cases hs with
  | first =>
    obtain ⟨hout, hrest⟩ := List.nodup_cons.mp h.nodup
    refine ⟨hrest, fun w hw => ⟨List.mem_cons_of_mem _ hw, ?_⟩⟩
    rintro rfl
    exact hout hw
  | temp ht =>
    refine ⟨h.nodup, fun w hw => ⟨hw, ?_⟩⟩
    rintro rfl
    exact (h.undriven w hw).2 ht

/-- No wire but the one that was driven has been taken off. -/
theorem not_mem_pending (hw : w ∉ pending') (hne : w ≠ out) : w ∉ pending := by
  cases hs with
  | first =>
    intro hm
    rcases List.mem_cons.mp hm with hm | hm
    · exact hne hm
    · exact hw hm
  | temp _ => exact hw

/-- A wire that is readable before it is driven is a temporary. -/
theorem eq_of_readable (h : Tidy outs ts pending c) (hout : c.Readable out) : pending' = pending := by
  cases hs with
  | first => exact absurd List.mem_cons_self (h.not_mem_of_readable hout)
  | temp _ => rfl

/-- A wire that is no temporary has its first driver now. -/
theorem drivers_eq_zero_of_not_temp (h : Tidy outs ts pending c) (ht : out ∉ ts.flatten) :
    c.drivers out = 0 := by
  cases hs with
  | first => exact drivers_eq_zero h.wellFormed (h.undriven out List.mem_cons_self).1
  | temp hm => exact absurd hm ht

end Spent

/-- **A gate keeps a circuit tidy** if it drives a pending wire or a temporary and reads no output. -/
theorem Tidy.pushGate {g : Gate} (h : Tidy outs ts pending c) (hg : c.requireGate g = .ok ())
    (hx : g.x ∉ outs) (hy : g.y ∉ outs) (hs : Spent ts g.out pending pending') :
    Tidy outs ts pending' (c.pushGate g) := by
  obtain ⟨-, -, hout⟩ := requireGate_eq_ok.mp hg
  obtain ⟨hnodup, hrest⟩ := hs.pending_rest h
  have hstate : ∀ w, w ≠ g.out → (c.pushGate g).state? w = c.state? w := by
    intro w hne
    rw [state?_pushGate hout.allocated, if_neg hne]
  refine ⟨h.wellFormed.pushGate hg, h.outputs, h.temps, hnodup, ?_, ?_, ?_⟩
  · intro w hw
    obtain ⟨hw, hne⟩ := hrest w hw
    rw [hstate w hne]
    exact h.undriven w hw
  · intro w hw ht hp
    rw [drivers_pushGate]
    by_cases he : w = g.out
    · subst he
      rw [hs.drivers_eq_zero_of_not_temp h ht, if_pos rfl]
    · have hw' : c.Writable w := by
        rw [writable_iff] at hw ⊢
        rwa [hstate w he] at hw
      rw [if_neg (Ne.symm he)]
      exact h.once w hw' ht (hs.not_mem_pending hp he)
  · intro g' hg'
    simp only [Circuit.pushGate, Array.toList_push, List.mem_append, List.mem_singleton] at hg'
    rcases hg' with hg' | rfl
    · exact h.unread g' hg'
    · exact ⟨hx, hy⟩

/-- A circuit that is tidy with further temporaries after `ts`, unless `frugal` holds: then with no
further ones. -/
def TidyFrom (frugal : Prop) (outs : Bundle) (ts : List Bundle) (pending : Bundle) (c : Circuit) : Prop :=
  ∃ more, (more = [] ↔ frugal) ∧ Tidy outs (ts ++ more) pending c

end Circuit

namespace Build

open Circuit

variable {α β : Type} {I J K : Circuit → Prop} {Q : α → Prop} {R : β → Prop}

/-! ### Where a step leads -/

/-- From a circuit with `I` the step leads to one with `J` if it is not refused, and what it returns
has `Q`. -/
def Leads (I : Circuit → Prop) (x : Build α) (Q : α → Prop) (J : Circuit → Prop) : Prop :=
  ∀ c a c', I c → x.exec c = (.ok a, c') → Q a ∧ J c'

namespace Leads

theorem mono {x : Build α} {Q' : α → Prop} {J' : Circuit → Prop} (h : Leads I x Q J)
    (hQ : ∀ a, Q a → Q' a) (hJ : ∀ c, J c → J' c) : Leads I x Q' J' := by
  intro c a c' hc hx
  obtain ⟨ha, hc'⟩ := h c a c' hc hx
  exact ⟨hQ a ha, hJ c' hc'⟩

theorem weaken {x : Build α} {J' : Circuit → Prop} (h : Leads I x Q J) (hJ : ∀ c, J c → J' c) :
    Leads I x Q J' :=
  h.mono (fun _ ha => ha) hJ

theorem pure {a : α} (h : Q a) : Leads I (Pure.pure a) Q I := by
  intro c b c' hc hx
  obtain ⟨rfl, rfl⟩ := exec_pure_eq_ok.mp hx
  exact ⟨h, hc⟩

theorem throw {e : Error} : Leads I (throw e : Build α) Q J :=
  fun _ _ _ _ hx => (exec_throw_eq_ok.mp hx).elim

theorem bind {x : Build α} {f : α → Build β} (hx : Leads I x Q J)
    (hf : ∀ a, Q a → Leads J (f a) R K) : Leads I (x >>= f) R K := by
  intro c b c' hc h
  obtain ⟨a, c₁, hexec, h⟩ := exec_bind_eq_ok.mp h
  obtain ⟨ha, hc₁⟩ := hx c a c₁ hc hexec
  exact hf a ha c₁ b c' hc₁ h

/-- A step whose result does not matter in front of another one. -/
theorem after {x : Build α} {f : α → Build β} (hx : Leads I x Q J) (hf : ∀ a, Leads J (f a) R K) :
    Leads I (x >>= f) R K :=
  hx.bind fun a _ => hf a

/-- A check leaves the circuit alone. -/
theorem check {r : Except Error α} (h : ∀ a, r = .ok a → Q a) : Leads I (liftM r : Build α) Q I := by
  intro c a c' hc hx
  obtain ⟨ha, rfl⟩ := exec_check_eq_ok.mp hx
  exact ⟨h a ha, hc⟩

/-- A step after a check that has passed. -/
theorem checked {r : Except Error α} {f : α → Build β} (hf : ∀ a, r = .ok a → Leads I (f a) R J) :
    Leads I ((liftM r : Build α) >>= f) R J := by
  apply bind (check fun a ha => ha)
  exact hf

/-- A step that looks at the circuit first. -/
theorem of_get {f : Circuit → Build α}
    (h : ∀ c a c', I c → (f c).exec c = (.ok a, c') → Q a ∧ J c') :
    Leads I (MonadState.get >>= f) Q J := by
  intro c a c' hc hx
  rw [exec_get_bind] at hx
  exact h c a c' hc hx

theorem mapM {f : α → Build β} : ∀ {l : List α}, (∀ a ∈ l, Leads I (f a) R I) →
    Leads I (l.mapM f) (fun bs => ∀ b ∈ bs, R b) I
  | [], _ => by
    rw [List.mapM_nil]
    exact .pure (by simp)
  | a :: l, h => by
    obtain ⟨ha, hl⟩ := List.forall_mem_cons.mp h
    rw [List.mapM_cons]
    apply ha.bind
    intro b hb
    apply (mapM hl).bind
    intro bs hbs
    exact .pure (List.forall_mem_cons.mpr ⟨hb, hbs⟩)

theorem foldlM {f : β → α → Build β} : ∀ {l : List α} {b : β}, R b →
    (∀ a ∈ l, ∀ b, R b → Leads I (f b a) R I) → Leads I (l.foldlM f b) R I
  | [], _, hb, _ => .pure hb
  | a :: l, b, hb, h => by
    obtain ⟨ha, hl⟩ := List.forall_mem_cons.mp h
    rw [List.foldlM_cons]
    exact (ha b hb).bind fun b' hb' => foldlM hb' hl

end Leads

variable {outs pending pending' : Bundle} {ts : List Bundle} {kind : GateKind} {x y out : Wire}

/-- Steps that start with any of several lists of temporaries. -/
theorem Leads.of_tidyFrom {frugal : Prop} {step : Build α}
    (h : ∀ more, (more = [] ↔ frugal) → Leads (Tidy outs (ts ++ more) pending) step Q J) :
    Leads (TidyFrom frugal outs ts pending) step Q J := by
  rintro c a c' ⟨more, hmore, hc⟩ hstep
  exact h more hmore c a c' hc hstep

/-- Steps that have registered the temporaries `more`. -/
theorem Leads.tidyFrom {frugal : Prop} {more : List Bundle} {step : Build α}
    (h : Leads I step Q (Tidy outs (ts ++ more) pending)) (hmore : more = [] ↔ frugal) :
    Leads I step Q (TidyFrom frugal outs ts pending) :=
  h.weaken fun _ hc => ⟨more, hmore, hc⟩

/-- Steps that have registered no temporaries. -/
theorem Leads.frugal {step : Build α} (h : Leads I step Q (Tidy outs ts pending)) :
    Leads I step Q (TidyFrom True outs ts pending) := by
  apply Leads.tidyFrom _ (iff_of_true rfl trivial)
  rwa [List.append_nil]

/-- Steps that find the pending wires in another order. -/
theorem Leads.perm {step : Build α} (hp : pending.Perm pending')
    (h : Leads (Tidy outs ts pending') step Q J) : Leads (Tidy outs ts pending) step Q J :=
  fun c a c' hc hstep => h c a c' (hc.perm hp) hstep

/-! ### Steps that allocate -/

/-- Registered temporaries, which are no outputs. -/
def Spare (outs : Bundle) (ts : List Bundle) (temps : Bundle) : Prop :=
  ∀ w ∈ temps, w ∈ ts.flatten ∧ w ∉ outs

theorem Spare.append {temps : Bundle} (h : Spare outs ts temps) (more : List Bundle) :
    Spare outs (ts ++ more) temps := by
  intro w hw
  refine ⟨?_, (h w hw).2⟩
  rw [List.flatten_append]
  exact List.mem_append_left _ (h w hw).1

/-- Wires that are not there yet are no outputs. -/
theorem not_mem_of_mem_nextBundle {c : Circuit} (hc : Tidy outs ts pending c) {n : Nat} :
    ∀ w ∈ c.nextBundle n, w ∉ outs :=
  fun w hw hm => (mem_nextBundle.mp hw).1 (hc.outs_writable w hm).allocated

theorem Leads.newBundle {n : Nat} {f : Bundle → Build β}
    (hf : ∀ b, b.length = n → (∀ w ∈ b, w ∉ outs) → Leads (Tidy outs ts (b ++ pending)) (f b) R J) :
    Leads (Tidy outs ts pending) (newBundle n >>= f) R J := by
  intro c a c' hc h
  obtain ⟨b, c₁, hnew, h⟩ := exec_bind_eq_ok.mp h
  obtain ⟨-, rfl, rfl⟩ := newBundle_eq_ok hnew
  exact hf _ length_nextBundle (not_mem_of_mem_nextBundle hc) _ a c' (hc.addWires n) h

theorem Leads.addTemps {n : Nat} {f : Bundle → Build β}
    (hf : ∀ b, Spare outs (ts ++ [b]) b → Leads (Tidy outs (ts ++ [b]) pending) (f b) R J) :
    Leads (Tidy outs ts pending) (addTemps n >>= f) R J := by
  intro c a c' hc h
  obtain ⟨b, c₁, hnew, h⟩ := exec_bind_eq_ok.mp h
  obtain ⟨-, rfl, rfl⟩ := addTemps_eq_ok hnew
  refine hf _ ?_ _ a c' (hc.withTemps n) h
  intro w hw
  refine ⟨?_, not_mem_of_mem_nextBundle hc w hw⟩
  rw [List.flatten_append, List.flatten_singleton]
  exact List.mem_append_right _ hw

theorem leads_constant (v : Bool) :
    Leads (Tidy outs ts pending) (constant v) (· ∉ outs) (Tidy outs ts pending) := by
  intro c w c' hc h
  obtain ⟨-, hs⟩ := constant_state hc.wellFormed h
  have hc' : Tidy outs ts pending c' := by
    rw [exec_constant] at h
    cases hv : c.constantWire? v with
    | some w' =>
      rw [hv] at h
      cases h
      exact hc
    | none =>
      rw [hv] at h
      cases h
      exact hc.addConstant hv
  exact ⟨hc'.not_mem_of_given (.inr ⟨v, hs⟩), hc'⟩

theorem leads_constantBundle (v : Word) (n : Nat) :
    Leads (Tidy outs ts pending) (constantBundle v n) (fun b => ∀ w ∈ b, w ∉ outs)
      (Tidy outs ts pending) := by
  apply Leads.checked
  intro _ _
  exact .mapM fun b _ => leads_constant b

/-! ### Steps that append a gate -/

theorem leads_drive {g : Gate} (hx : g.x ∉ outs) (hy : g.y ∉ outs)
    (hs : Spent ts g.out pending pending') :
    Leads (Tidy outs ts pending) (drive g) (fun _ => True) (Tidy outs ts pending') := by
  intro c u c' hc h
  obtain ⟨hg, rfl⟩ := exec_drive_eq_ok.mp h
  exact ⟨trivial, hc.pushGate hg hx hy hs⟩

/-- A gate on a new wire. -/
theorem leads_newWire_drive (hx : x ∉ outs) (hy : y ∉ outs) :
    Leads (Tidy outs ts pending) (newWire >>= fun out => drive ⟨kind, x, y, out⟩ >>= fun _ => pure out)
      (· ∉ outs) (Tidy outs ts pending) := by
  intro c w c' hc h
  obtain ⟨out, c₁, hnew, h⟩ := exec_bind_eq_ok.mp h
  rw [exec_newWire] at hnew
  cases hnew
  have hc₁ : Tidy outs ts (c.nextWire :: pending) (c.addWire .undriven) := by
    rw [addWire_eq]
    exact hc.addWires 1
  have hout : c.nextWire ∉ outs := not_mem_of_mem_nextBundle (n := 1) hc _ (by simp [nextBundle_one])
  have hdrive : Leads (Tidy outs ts (c.nextWire :: pending))
      (drive ⟨kind, x, y, c.nextWire⟩ >>= fun _ => pure c.nextWire) (· ∉ outs) (Tidy outs ts pending) :=
    .after (leads_drive hx hy .first) fun _ => .pure hout
  exact hdrive _ w c' hc₁ h

theorem leads_requireReadable (w : Wire) :
    Leads I (requireReadable w) (fun _ => True) fun c => I c ∧ c.Readable w := by
  intro c u c' hc h
  obtain ⟨hw, rfl⟩ := exec_requireReadable_eq_ok.mp h
  exact ⟨trivial, hc, hw⟩

theorem leads_inv (hx : x ∉ outs) :
    Leads (Tidy outs ts pending) (inv x) (· ∉ outs) (Tidy outs ts pending) := by
  apply Leads.after (leads_requireReadable x)
  intro _
  apply Leads.of_get
  rintro c w c' ⟨hc, -⟩ h
  cases hv : c.constantValue? x with
  | some v =>
    rw [hv] at h
    exact leads_constant (!v) c w c' hc h
  | none =>
    rw [hv] at h
    exact leads_newWire_drive hx hx c w c' hc h

/-- A constant is copied to a wire. -/
theorem leads_constant_drive {v : Bool} (hs : Spent ts out pending pending') :
    Leads (Tidy outs ts pending) (constant v >>= fun w => drive ⟨.copy, w, w, out⟩) (fun _ => True)
      (Tidy outs ts pending') := by
  apply (leads_constant v).bind
  intro w hw
  exact leads_drive hw hw hs

theorem leads_invTo (hx : x ∉ outs) (hs : Spent ts out pending pending') :
    Leads (Tidy outs ts pending) (invTo x out) (fun _ => True) (Tidy outs ts pending') := by
  apply Leads.after (leads_requireReadable x)
  intro _
  apply Leads.of_get
  rintro c u c' ⟨hc, -⟩ h
  cases hv : c.constantValue? x with
  | some v =>
    rw [hv] at h
    exact leads_constant_drive hs c u c' hc h
  | none =>
    rw [hv] at h
    exact leads_drive (g := ⟨.inv, x, x, out⟩) hx hx hs c u c' hc h

/-- A wire that carries a value already stays as it is. -/
theorem leads_keep {c c' : Circuit} {u : Unit} (hc : Tidy outs ts pending c) (hout : c.Readable out)
    (hs : Spent ts out pending pending') (h : (requireWritable out).exec c = (.ok u, c')) :
    Tidy outs ts pending' c' := by
  obtain ⟨-, rfl⟩ := exec_requireWritable_eq_ok.mp h
  rwa [hs.eq_of_readable hc hout]

theorem leads_copyTo (hx : x ∉ outs) (hs : Spent ts out pending pending') :
    Leads (Tidy outs ts pending) (copyTo x out) (fun _ => True) (Tidy outs ts pending') := by
  unfold copyTo
  split
  · rename_i he
    subst he
    apply Leads.after (leads_requireReadable x)
    rintro _ c u c' ⟨hc, hr⟩ h
    exact ⟨trivial, leads_keep hc hr hs h⟩
  · exact leads_drive hx hx hs

/-- A gate returns one of the wires it reads, a constant or a new wire. -/
theorem leads_gate (hx : x ∉ outs) (hy : y ∉ outs) :
    Leads (Tidy outs ts pending) (gate kind x y) (· ∉ outs) (Tidy outs ts pending) := by
  intro c w c' hc h
  unfold gate at h
  obtain ⟨-, -, -, h⟩ := exec_checks_eq_ok.mp h
  rw [exec_get_bind] at h
  cases hf : c.fold? kind x y with
  | none =>
    rw [hf] at h
    exact leads_newWire_drive hx hy c w c' hc h
  | some f =>
    rw [hf] at h
    have hread : ∀ {w : Wire}, f = .same w ∨ f = .inverted w → w ∉ outs := by
      intro w hfw
      rcases mem_of_fold? hf hfw with rfl | rfl
      · exact hx
      · exact hy
    cases f with
    | constant v => exact leads_constant v c w c' hc h
    | same w' =>
      obtain ⟨rfl, rfl⟩ := exec_pure_eq_ok.mp h
      exact ⟨hread (.inl rfl), hc⟩
    | inverted w' => exact leads_inv (hread (.inr rfl)) c w c' hc h

theorem leads_gateTo (hx : x ∉ outs) (hy : y ∉ outs) (hs : Spent ts out pending pending') :
    Leads (Tidy outs ts pending) (gateTo kind x y out) (fun _ => True) (Tidy outs ts pending') := by
  intro c u c' hc h
  unfold gateTo at h
  obtain ⟨-, hrx, hry, h⟩ := exec_checks_eq_ok.mp h
  rw [exec_get_bind] at h
  cases hf : c.fold? kind x y with
  | none =>
    rw [hf] at h
    exact leads_drive (g := ⟨kind, x, y, out⟩) hx hy hs c u c' hc h
  | some f =>
    rw [hf] at h
    have hread : ∀ {w : Wire}, f = .same w ∨ f = .inverted w → w ∉ outs ∧ c.Readable w := by
      intro w hfw
      rcases mem_of_fold? hf hfw with rfl | rfl
      · exact ⟨hx, hrx⟩
      · exact ⟨hy, hry⟩
    cases f with
    | constant v => exact leads_constant_drive hs c u c' hc h
    | same w =>
      obtain ⟨hw, hr⟩ := hread (.inl rfl)
      dsimp only at h
      split at h
      · rename_i he
        exact ⟨trivial, leads_keep hc (he ▸ hr) hs h⟩
      · exact leads_drive (g := ⟨.copy, w, w, out⟩) hw hw hs c u c' hc h
    | inverted w =>
      have hw := (hread (.inr rfl)).1
      exact leads_drive (g := ⟨.inv, w, w, out⟩) hw hw hs c u c' hc h

/-! ### Results that go to bundles of their own -/

/-- One step for each entry of a list, each driving the pending wires that are its own. -/
theorem Leads.forM_flatMap {ι : Type} {f : ι → Build Unit} {wires : ι → Bundle} : ∀ {l : List ι},
    (∀ i ∈ l, ∀ rest, Leads (Tidy outs ts (wires i ++ rest)) (f i) (fun _ => True) (Tidy outs ts rest)) →
    Leads (Tidy outs ts (l.flatMap wires ++ pending)) (l.forM f) (fun _ => True) (Tidy outs ts pending)
  | [], _ => .pure trivial
  | i :: l, h => by
    obtain ⟨hi, hl⟩ := List.forall_mem_cons.mp h
    rw [List.forM_eq_forM, List.forM_cons, List.flatMap_cons, List.append_assoc]
    apply (hi _).after
    intro _
    exact forM_flatMap hl

/-- One step for each wire of a bundle, driving it. -/
theorem Leads.forM_inStep {ι : Type} {f : ι × Wire → Build Unit} {l : List ι} {out : Bundle}
    (h : ∀ i ∈ l, ∀ o rest,
      Leads (Tidy outs ts (o :: rest)) (f (i, o)) (fun _ => True) (Tidy outs ts rest)) :
    Leads (Tidy outs ts (out ++ pending)) ((liftM (inStep l out) : Build _) >>= fun ps => ps.forM f)
      (fun _ => True) (Tidy outs ts pending) := by
  apply Leads.checked
  intro ps hps
  obtain ⟨hlen, rfl⟩ := inStep_eq_ok.mp hps
  have hwires : (l.zip out).flatMap (fun p => [p.2]) = out := by
    rw [← List.map_eq_flatMap]
    exact List.map_snd_zip (Nat.le_of_eq hlen.symm)
  have hall : Leads (Tidy outs ts ((l.zip out).flatMap (fun p => [p.2]) ++ pending)) ((l.zip out).forM f)
      (fun _ => True) (Tidy outs ts pending) :=
    .forM_flatMap fun p hp => h p.1 (List.of_mem_zip hp).1 p.2
  rwa [hwires] at hall

end Build
end BitCircuit
