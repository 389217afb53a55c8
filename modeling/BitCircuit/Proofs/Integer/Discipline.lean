/-
# Operations on integers drive each wire once

If the operands of an operation on integers are no outputs and its results are pending, the operation
drives every wire of its results once, and likewise every wire that it allocates. What it drives again
and again are the temporaries that it is given or registers itself. A shallow adder needs none, and so
the comparisons and the unsigned product made of it register none either.

Key definitions: `Sink.upper`.
Key theorems: one `leads_…` for each operation, among them `Build.leads_ripple`, `Build.leads_lookahead`,
`Build.leads_multiply` and `Build.leads_divide`.
-/
import BitCircuit.Integer.Order
import BitCircuit.Integer.Product
import BitCircuit.Integer.Quotient
import BitCircuit.Proofs.Discipline
import BitCircuit.Proofs.Integer.Ripple

namespace BitCircuit

/-- The wires that the bits above the lowest one go to. -/
def Sink.upper : Sink → Bundle
  | .all out => out.tail
  | .bit 0 _ => []
  | .bit (_ + 1) out => [out]

theorem Sink.flatMap_targets (sink : Sink) : sink.targets.flatMap Option.toList = sink.wires := by
  cases sink with
  | all out => simp [targets, wires, List.flatMap_map]
  | bit position out => simp [targets, wires]

/-- The lowest bit and those above it go to all wires of the sink. -/
theorem Sink.lowest_append_upper (sink : Sink) :
    (sink.targets.headD none).toList ++ sink.upper = sink.wires := by
  cases sink with
  | all out => cases out <;> rfl
  | bit position out => cases position <;> rfl

/-- The wires of a span are no outputs. -/
def Span.Clear (outs : Bundle) (s : Span) : Prop :=
  s.generate ∉ outs ∧ s.propagate ∉ outs

namespace Build

open Circuit

variable {outs pending : Bundle} {ts : List Bundle} {a b out temps : Bundle} {enc : Encoding}
  {dir : Direction} {obj : Objective}

/-! ### Operands and temporaries -/

theorem not_mem_of_msb {w : Wire} (ha : ∀ w ∈ a, w ∉ outs) (h : a.msb = .ok w) : w ∉ outs :=
  ha w (mem_of_msb h)

/-- An operand is filled up with its sign or a constant. -/
theorem leads_extend {n : Nat} (ha : ∀ w ∈ a, w ∉ outs) :
    Leads (Tidy outs ts pending) (extend enc n a) (fun x => ∀ w ∈ x, w ∉ outs)
      (Tidy outs ts pending) := by
  unfold extend
  split
  · exact .pure fun w hw => ha w (List.mem_of_mem_take hw)
  · have hpad : Leads (Tidy outs ts pending) (padding enc a) (· ∉ outs) (Tidy outs ts pending) := by
      cases enc with
      | twosComplement => exact .check fun w hw => not_mem_of_msb ha hw
      | unsigned => exact leads_constant false
    apply hpad.bind
    intro pad hpad
    apply Leads.checked
    intro _ _
    apply Leads.pure
    intro w hw
    rcases List.mem_append.mp hw with hw | hw
    · exact ha w hw
    · exact List.eq_of_mem_replicate hw ▸ hpad

/-- A small adder registers temporaries, a shallow one does not. -/
theorem Leads.adderTemps {α : Type} {f : Bundle → Build α} {Q : α → Prop} {J : Circuit → Prop}
    (hf : ∀ temps more, (more = [] ↔ obj = .depth) → Spare outs (ts ++ more) temps →
      Leads (Tidy outs (ts ++ more) pending) (f temps) Q J) :
    Leads (Tidy outs ts pending) (adderTemps obj >>= f) Q J := by
  cases obj with
  | size =>
    apply Leads.addTemps
    intro temps htemps
    exact hf temps [temps] (by simp) htemps
  | depth =>
    have hnone := hf [] [] (by simp) (by simp [Spare])
    rwa [List.append_nil] at hnone

/-- A division registers temporaries in any case. -/
theorem Leads.divisionTemps {α : Type} {f : Bundle → Build α} {Q : α → Prop} {J : Circuit → Prop}
    (hf : ∀ temps, Spare outs (ts ++ [temps]) temps →
      Leads (Tidy outs (ts ++ [temps]) pending) (f temps) Q J) :
    Leads (Tidy outs ts pending) (divisionTemps obj >>= f) Q J := by
  cases obj with
  | size => exact .addTemps hf
  | depth => exact .addTemps hf

/-! ### Bit by bit -/

theorem leads_complement (ha : ∀ w ∈ a, w ∉ outs) :
    Leads (Tidy outs ts (out ++ pending)) (complement a out) (fun _ => True) (Tidy outs ts pending) := by
  apply Leads.checked
  intro _ _
  apply Leads.checked
  intro _ _
  apply (leads_extend ha).bind
  intro x hx
  apply Leads.forM_inStep
  intro w hw o rest
  exact leads_invTo (hx w hw) .first

theorem leads_bitwise {kind : GateKind} (ha : ∀ w ∈ a, w ∉ outs) (hb : ∀ w ∈ b, w ∉ outs) :
    Leads (Tidy outs ts (out ++ pending)) (bitwise kind a b out enc) (fun _ => True)
      (Tidy outs ts pending) := by
  apply Leads.checked
  intro _ _
  apply Leads.checked
  intro _ _
  apply (leads_extend ha).bind
  intro x hx
  apply (leads_extend hb).bind
  intro y hy
  apply Leads.checked
  intro xy hxy
  apply Leads.forM_inStep
  intro p hp o rest
  obtain ⟨hpx, hpy⟩ := mem_of_inStep hxy p hp
  exact leads_gateTo (hx _ hpx) (hy _ hpy) .first

theorem leads_copyBundle {source : Bundle} (hsource : ∀ w ∈ source, w ∉ outs) :
    Leads (Tidy outs ts (out ++ pending)) (copyBundle source out enc) (fun _ => True)
      (Tidy outs ts pending) := by
  apply (leads_extend hsource).bind
  intro x hx
  apply Leads.forM_inStep
  intro w hw o rest
  exact leads_copyTo (hx w hw) .first

/-- A selection drives a temporary twice for each wire of its result. -/
theorem leads_selectTo {ifTrue ifFalse choice : Bundle} (ht : ∀ w ∈ ifTrue, w ∉ outs)
    (hf : ∀ w ∈ ifFalse, w ∉ outs) (hchoice : ∀ w ∈ choice, w ∉ outs) (htemps : Spare outs ts temps) :
    Leads (Tidy outs ts (out ++ pending)) (selectTo ifTrue ifFalse choice out temps) (fun _ => True)
      (Tidy outs ts pending) := by
  apply Leads.checked
  intro _ _
  apply Leads.checked
  intro _ _
  apply Leads.checked
  intro _ _
  apply Leads.checked
  intro _ _
  apply Leads.checked
  intro _ _
  apply Leads.checked
  intro _ _
  apply Leads.checked
  intro spare hspare
  obtain ⟨hspare, hspareOut⟩ := htemps spare (mem_of_wireAt hspare)
  apply Leads.checked
  intro chosen hchosen
  have hchosen := hchoice chosen (mem_of_wireAt hchosen)
  apply Leads.checked
  intro tf htf
  apply Leads.forM_inStep
  intro p hp o rest
  obtain ⟨hpt, hpf⟩ := mem_of_inStep htf p hp
  apply (leads_gateTo (ht _ hpt) (hf _ hpf) (.temp hspare)).after
  intro _
  apply (leads_gateTo hspareOut hchosen (.temp hspare)).after
  intro _
  exact leads_gateTo hspareOut (hf _ hpf) .first

theorem leads_select {ifTrue ifFalse : Bundle} {choice : Wire} (ht : ∀ w ∈ ifTrue, w ∉ outs)
    (hf : ∀ w ∈ ifFalse, w ∉ outs) (hchoice : choice ∉ outs) :
    Leads (Tidy outs ts pending) (select ifTrue ifFalse choice) (fun ws => ∀ w ∈ ws, w ∉ outs)
      (Tidy outs ts pending) := by
  apply Leads.checked
  intro _ _
  apply Leads.mapM
  intro p hp
  obtain ⟨hpt, hpf⟩ := List.of_mem_zip hp
  apply (leads_gate (ht _ hpt) (hf _ hpf)).bind
  intro d hd
  apply (leads_gate hd hchoice).bind
  intro d' hd'
  exact leads_gate hd' (hf _ hpf)

/-! ### Balanced reduction -/

section Reduce

variable {α : Type} {R : α → Prop} {I : Circuit → Prop} {join : Bool → α → α → Build α}
  (hjoin : ∀ lowest lo hi, R lo → R hi → Leads I (join lowest lo hi) R I)
include hjoin

theorem leads_joinPairs : ∀ (lowest : Bool) (parts : List α), (∀ p ∈ parts, R p) →
    Leads I (joinPairs join lowest parts) (fun ps => ∀ p ∈ ps, R p) I
  | _, [], h => .pure h
  | _, [_], h => .pure h
  | lowest, lo :: hi :: rest, h => by
    obtain ⟨hlo, h⟩ := List.forall_mem_cons.mp h
    obtain ⟨hhi, hrest⟩ := List.forall_mem_cons.mp h
    rw [joinPairs]
    apply (hjoin lowest lo hi hlo hhi).bind
    intro joined hjoined
    apply (leads_joinPairs false rest hrest).bind
    intro ps hps
    exact .pure (List.forall_mem_cons.mpr ⟨hjoined, hps⟩)

theorem leads_joinLevels : ∀ (levels : Nat) (parts : List α), (∀ p ∈ parts, R p) →
    Leads I (joinLevels join levels parts) (fun ps => ∀ p ∈ ps, R p) I
  | 0, _, h => .pure h
  | _ + 1, [], h => .pure h
  | _ + 1, [_], h => .pure h
  | levels + 1, lo :: hi :: rest, h => by
    rw [joinLevels]
    apply (leads_joinPairs hjoin true _ h).bind
    intro ps hps
    exact leads_joinLevels levels ps hps

theorem leads_reduce {parts : List α} (h : ∀ p ∈ parts, R p) : Leads I (reduce join parts) R I := by
  apply (leads_joinLevels hjoin _ _ h).bind
  intro ps hps
  cases ps with
  | nil => exact .throw
  | cons joined rest => exact .pure (hps joined List.mem_cons_self)

end Reduce

theorem leads_orAll (ha : ∀ w ∈ a, w ∉ outs) :
    Leads (Tidy outs ts pending) (orAll a) (· ∉ outs) (Tidy outs ts pending) :=
  leads_reduce (fun _ _ _ hlo hhi => leads_gate hlo hhi) ha

/-! ### The ripple-carry adder -/

theorem leads_driveTarget {kind : GateKind} {x y : Wire} {target : Option Wire} (hx : x ∉ outs)
    (hy : y ∉ outs) :
    Leads (Tidy outs ts (target.toList ++ pending)) (driveTarget kind x y target) (fun _ => True)
      (Tidy outs ts pending) := by
  cases target with
  | none => exact .pure trivial
  | some out => exact leads_gateTo hx hy .first

section Ripple

variable {carry spare : Wire} (hcarry : carry ∈ ts.flatten ∧ carry ∉ outs)
  (hspare : spare ∈ ts.flatten ∧ spare ∉ outs)
include hcarry hspare

theorem leads_rippleLowest {col : AdderColumn} {more : Bool} (hx : col.x ∉ outs) (hy : col.y ∉ outs) :
    Leads (Tidy outs ts (col.target.toList ++ pending)) (rippleLowest dir carry spare col more)
      (fun _ => True) (Tidy outs ts pending) := by
  apply (leads_driveTarget hx hy).after
  intro _
  split
  · cases dir with
    | addition => exact leads_gateTo hx hy (.temp hcarry.1)
    | subtraction =>
      apply (leads_invTo hy (.temp hspare.1)).after
      intro _
      exact leads_gateTo hx hspare.2 (.temp hcarry.1)
  · exact .pure trivial

omit hspare in
theorem leads_rippleKnown {bit more : Bool} {x : Wire} {target : Option Wire} (hx : x ∉ outs) :
    Leads (Tidy outs ts (target.toList ++ pending)) (rippleKnown bit carry x target more)
      (fun _ => True) (Tidy outs ts pending) := by
  apply (leads_driveTarget hx hcarry.2).after
  intro _
  split
  · exact leads_gateTo hx hcarry.2 (.temp hcarry.1)
  · exact .pure trivial

theorem leads_rippleFull {x y : Wire} {target : Option Wire} {more : Bool} (hx : x ∉ outs)
    (hy : y ∉ outs) :
    Leads (Tidy outs ts (target.toList ++ pending)) (rippleFull dir carry spare x y target more)
      (fun _ => True) (Tidy outs ts pending) := by
  apply (leads_gateTo hx hy (.temp hspare.1)).after
  intro _
  apply (leads_driveTarget hspare.2 hcarry.2).after
  intro _
  split
  · apply (leads_gateTo hx hcarry.2 (.temp hcarry.1)).after
    intro _
    apply (leads_gateTo hcarry.2 hspare.2 (.temp hcarry.1)).after
    intro _
    exact leads_gateTo hcarry.2 hx (.temp hcarry.1)
  · exact .pure trivial

theorem leads_rippleColumn {col : AdderColumn} {more : Bool} (hx : col.x ∉ outs) (hy : col.y ∉ outs) :
    Leads (Tidy outs ts (col.target.toList ++ pending)) (rippleColumn dir carry spare col more)
      (fun _ => True) (Tidy outs ts pending) := by
  apply Leads.of_get
  intro c u c' hc h
  rcases hk : c.knownBit dir col.x col.y with ⟨x, y, known⟩
  rw [hk] at h
  -- the operands of an addition may have been exchanged
  have hxy : x ∉ outs ∧ y ∉ outs := by
    rcases (Circuit.knownBit_cases hk).2 with ⟨rfl, rfl⟩ | ⟨-, rfl, rfl, -⟩
    · exact ⟨hx, hy⟩
    · exact ⟨hy, hx⟩
  cases known with
  | some v => exact leads_rippleKnown hcarry hxy.1 c u c' hc h
  | none => exact leads_rippleFull hcarry hspare hxy.1 hxy.2 c u c' hc h

/-- The columns drive the wires they go to, one after the other. -/
theorem leads_rippleColumns : ∀ (cols : List AdderColumn),
    (∀ col ∈ cols, col.x ∉ outs ∧ col.y ∉ outs) →
    Leads (Tidy outs ts (cols.flatMap (·.target.toList) ++ pending)) (rippleColumns dir carry spare cols)
      (fun _ => True) (Tidy outs ts pending)
  | [], _ => .pure trivial
  | col :: rest, h => by
    obtain ⟨hcol, hrest⟩ := List.forall_mem_cons.mp h
    rw [rippleColumns, List.flatMap_cons, List.append_assoc]
    apply (leads_rippleColumn hcarry hspare hcol.1 hcol.2).after
    intro _
    exact leads_rippleColumns rest hrest

end Ripple

theorem leads_ripple (sink : Sink) (ha : ∀ w ∈ a, w ∉ outs) (hb : ∀ w ∈ b, w ∉ outs)
    (htemps : Spare outs ts temps) :
    Leads (Tidy outs ts (sink.wires ++ pending)) (ripple a b sink temps enc dir) (fun _ => True)
      (Tidy outs ts pending) := by
  apply Leads.checked
  intro _ _
  apply Leads.checked
  intro _ _
  apply Leads.checked
  intro width _
  apply (leads_extend ha).bind
  intro x hx
  apply (leads_extend hb).bind
  intro y hy
  apply Leads.checked
  intro carry hcarry
  have hcarry := htemps carry (mem_of_wireAt hcarry)
  apply Leads.checked
  intro spare hspare
  have hspare := htemps spare (mem_of_wireAt hspare)
  apply Leads.checked
  intro cols hcols
  obtain ⟨htargets, hmem, -⟩ := adderColumns_eq_ok hcols
  have hcolumns : ∀ col ∈ cols, col.x ∉ outs ∧ col.y ∉ outs := fun col hcol =>
    ⟨hx _ (hmem col hcol).1, hy _ (hmem col hcol).2⟩
  have hwires : sink.wires = cols.flatMap (·.target.toList) := by
    rw [← sink.flatMap_targets, ← htargets, List.flatMap_map]
  rw [hwires]
  cases cols with
  | nil => exact .throw
  | cons lowest rest =>
    obtain ⟨hlowest, hrest⟩ := List.forall_mem_cons.mp hcolumns
    rw [List.flatMap_cons, List.append_assoc]
    apply (leads_rippleLowest hcarry hspare hlowest.1 hlowest.2).after
    intro _
    exact leads_rippleColumns hcarry hspare rest hrest

/-! ### The carry-lookahead adder -/

theorem leads_propagateBoth {skip : Bool} {unused : Wire} {lo hi : Span} (hunused : unused ∉ outs)
    (hlo : lo.Clear outs) (hhi : hi.Clear outs) :
    Leads (Tidy outs ts pending) (propagateBoth skip unused lo hi) (· ∉ outs) (Tidy outs ts pending) := by
  unfold propagateBoth
  split
  · exact .pure hunused
  · exact leads_gate hhi.2 hlo.2

theorem leads_joinStride : ∀ (his los below : List Span), (∀ s ∈ his, s.Clear outs) →
    (∀ s ∈ los, s.Clear outs) →
    Leads (Tidy outs ts pending) (joinStride his los below) (fun ss => ∀ s ∈ ss, s.Clear outs)
      (Tidy outs ts pending)
  | [], _, _, hhis, _ => .pure hhis
  | _ :: _, [], _, hhis, _ => .pure hhis
  | hi :: his, lo :: los, below, hhis, hlos => by
    obtain ⟨hhi, hhis⟩ := List.forall_mem_cons.mp hhis
    obtain ⟨hlo, hlos⟩ := List.forall_mem_cons.mp hlos
    rw [joinStride]
    apply (leads_gate hhi.2 hlo.1).bind
    intro t ht
    apply (leads_gate hhi.1 ht).bind
    intro g hg
    apply (leads_propagateBoth hhi.2 hlo hhi).bind
    intro p hp
    apply (leads_joinStride his los below.tail hhis hlos).bind
    intro ss hss
    exact .pure (List.forall_mem_cons.mpr ⟨⟨hg, hp⟩, hss⟩)

theorem leads_koggeStone {spans : List Span} (h : ∀ s ∈ spans, s.Clear outs) :
    Leads (Tidy outs ts pending) (koggeStone spans) (fun ws => ∀ w ∈ ws, w ∉ outs)
      (Tidy outs ts pending) := by
  have hlevels : Leads (Tidy outs ts pending)
      ((strides spans.length 1).foldlM
        (fun top d => joinStride top (top.drop d) (top.drop (2 * d))) spans.reverse)
      (fun top => ∀ s ∈ top, s.Clear outs) (Tidy outs ts pending) := by
    apply Leads.foldlM
    · intro s hs
      exact h s (List.mem_reverse.mp hs)
    · intro d _ top htop
      exact leads_joinStride _ _ _ htop fun s hs => htop s (List.mem_of_mem_drop hs)
  apply hlevels.bind
  intro top htop
  apply Leads.pure
  intro w hw
  obtain ⟨s, hs, rfl⟩ := List.mem_map.mp hw
  exact (htop s (List.mem_reverse.mp hs)).1

theorem leads_topCarry {spans : List Span} (h : ∀ s ∈ spans, s.Clear outs) :
    Leads (Tidy outs ts pending) (topCarry spans) (· ∉ outs) (Tidy outs ts pending) := by
  have hjoin : ∀ (lowest : Bool) (lo hi : Span), lo.Clear outs → hi.Clear outs →
      Leads (Tidy outs ts pending) (joinSpans lowest lo hi) (Span.Clear outs) (Tidy outs ts pending) := by
    intro lowest lo hi hlo hhi
    apply (leads_gate hhi.2 hlo.1).bind
    intro t ht
    apply (leads_gate hhi.1 ht).bind
    intro g hg
    apply (leads_propagateBoth hlo.2 hlo hhi).bind
    intro p hp
    exact .pure ⟨hg, hp⟩
  apply (leads_reduce hjoin h).bind
  intro s hs
  exact .pure hs.1

theorem leads_generateBits {columns : List (Wire × Wire)} (h : ∀ p ∈ columns, p.1 ∉ outs ∧ p.2 ∉ outs) :
    Leads (Tidy outs ts pending) (generateBits dir columns) (fun g => ∀ w ∈ g, w ∉ outs)
      (Tidy outs ts pending) := by
  have hgate : ∀ p ∈ columns.dropLast,
      Leads (Tidy outs ts pending) (gate .and p.1 p.2) (· ∉ outs) (Tidy outs ts pending) := by
    intro p hp
    obtain ⟨hx, hy⟩ := h p (List.dropLast_subset _ hp)
    exact leads_gate hx hy
  apply (Leads.mapM hgate).bind
  intro g hg
  split
  · rename_i x y _ _ rest
    obtain ⟨hx, hy⟩ := h (x, y) List.mem_cons_self
    apply (leads_gate hx hy).bind
    intro lowest hlowest
    exact .pure (List.forall_mem_cons.mpr ⟨hlowest, (List.forall_mem_cons.mp hg).2⟩)
  · exact .pure hg

theorem leads_addend {y : Bundle} (hy : ∀ w ∈ y, w ∉ outs) :
    Leads (Tidy outs ts pending) (addend dir y) (fun y' => ∀ w ∈ y', w ∉ outs)
      (Tidy outs ts pending) := by
  cases dir with
  | addition => exact .pure hy
  | subtraction => exact .mapM fun w hw => leads_inv (hy w hw)

theorem leads_driveLowest {targets : List (Option Wire)} {p : Bundle} (hp : ∀ w ∈ p, w ∉ outs) :
    Leads (Tidy outs ts ((targets.headD none).toList ++ pending)) (driveLowest dir targets p)
      (fun _ => True) (Tidy outs ts pending) := by
  unfold driveLowest
  split
  · exact .pure trivial
  · rename_i lowest _
    have hlowest := hp lowest List.mem_cons_self
    cases dir with
    | addition => exact leads_copyTo hlowest .first
    | subtraction => exact leads_invTo hlowest .first
  · exact .throw

theorem leads_driveUpper {p : Bundle} {spans : List Span} {sink : Sink} (hp : ∀ w ∈ p, w ∉ outs)
    (hspans : ∀ s ∈ spans, s.Clear outs) :
    Leads (Tidy outs ts (sink.upper ++ pending)) (driveUpper p spans sink) (fun _ => True)
      (Tidy outs ts pending) := by
  unfold driveUpper
  split
  · apply (leads_koggeStone hspans).bind
    intro carries hcarries
    apply Leads.checked
    intro pc hpc
    apply Leads.forM_inStep
    intro q hq o rest
    obtain ⟨hqp, hqc⟩ := mem_of_inStep hpc q hq
    exact leads_gateTo (hp _ (List.mem_of_mem_tail hqp)) (hcarries _ hqc) .first
  · exact .pure trivial
  · rename_i position out hpos
    cases position with
    | zero => exact absurd rfl hpos
    | succ k =>
      apply (leads_topCarry hspans).bind
      intro carry hcarry
      apply Leads.checked
      intro w hw
      exact leads_gateTo (hp w (mem_of_wireAt hw)) hcarry .first

theorem leads_lookahead (sink : Sink) (ha : ∀ w ∈ a, w ∉ outs) (hb : ∀ w ∈ b, w ∉ outs) :
    Leads (Tidy outs ts (sink.wires ++ pending)) (lookahead a b sink enc dir) (fun _ => True)
      (Tidy outs ts pending) := by
  apply Leads.checked
  intro width _
  apply (leads_extend ha).bind
  intro x hx
  apply (leads_extend hb).bind
  intro y hy
  apply (leads_addend hy).bind
  intro y' hy'
  apply Leads.checked
  intro columns hcolumns
  have hcolumn : ∀ q ∈ columns, q.1 ∉ outs ∧ q.2 ∉ outs := fun q hq =>
    ⟨hx _ (mem_of_inStep hcolumns q hq).1, hy' _ (mem_of_inStep hcolumns q hq).2⟩
  apply (Leads.mapM fun q hq => leads_gate (hcolumn q hq).1 (hcolumn q hq).2).bind
  intro p hp
  apply (leads_generateBits hcolumn).bind
  intro g hg
  rw [← sink.lowest_append_upper, List.append_assoc]
  apply (leads_driveLowest hp).after
  intro _
  apply Leads.checked
  intro gp hgp
  apply leads_driveUpper hp
  intro s hs
  obtain ⟨q, hq, rfl⟩ := List.mem_map.mp hs
  obtain ⟨hqg, hqp⟩ := mem_of_inStep hgp q hq
  exact ⟨hg _ hqg, hp _ (List.dropLast_subset _ hqp)⟩

/-! ### Addition and subtraction -/

theorem leads_addSub (ha : ∀ w ∈ a, w ∉ outs) (hb : ∀ w ∈ b, w ∉ outs) (htemps : Spare outs ts temps) :
    Leads (Tidy outs ts (out ++ pending)) (addSub dir a b out temps enc obj) (fun _ => True)
      (Tidy outs ts pending) := by
  cases obj with
  | size =>
    apply Leads.checked
    intro _ _
    exact leads_ripple (.all out) ha hb htemps
  | depth =>
    apply Leads.checked
    intro _ _
    exact leads_lookahead (.all out) ha hb

theorem leads_sumBit {position : Nat} (ha : ∀ w ∈ a, w ∉ outs) (hb : ∀ w ∈ b, w ∉ outs)
    (htemps : Spare outs ts temps) :
    Leads (Tidy outs ts (out ++ pending)) (sumBit a b out temps position enc dir obj) (fun _ => True)
      (Tidy outs ts pending) := by
  apply Leads.checked
  intro _ hlen
  apply Leads.checked
  intro w hw
  rw [eq_singleton_of_wireAt hlen hw]
  apply Leads.checked
  intro _ _
  cases obj with
  | size => exact leads_ripple (.bit position w) ha hb htemps
  | depth => exact leads_lookahead (.bit position w) ha hb

/-! ### Equality and order -/

theorem leads_isZero (ha : ∀ w ∈ a, w ∉ outs) :
    Leads (Tidy outs ts (out ++ pending)) (isZero a out) (fun _ => True) (Tidy outs ts pending) := by
  apply Leads.checked
  intro _ hlen
  apply Leads.checked
  intro _ _
  apply (leads_orAll ha).bind
  intro any hany
  apply Leads.checked
  intro w hw
  rw [eq_singleton_of_wireAt hlen hw]
  exact leads_invTo hany .first

theorem leads_differ (ha : ∀ w ∈ a, w ∉ outs) (hb : ∀ w ∈ b, w ∉ outs) :
    Leads (Tidy outs ts pending) (differ a b out) (fun w => w ∉ outs ∧ requireWidth out 1 = .ok ())
      (Tidy outs ts pending) := by
  apply Leads.checked
  intro _ hlen
  apply Leads.checked
  intro _ _
  apply Leads.checked
  intro _ _
  have hgate : ∀ p ∈ a.zip b, Leads (Tidy outs ts pending) (gate .xor p.1 p.2) (· ∉ outs)
      (Tidy outs ts pending) := by
    intro p hp
    obtain ⟨hpa, hpb⟩ := List.of_mem_zip hp
    exact leads_gate (ha _ hpa) (hb _ hpb)
  apply (Leads.mapM hgate).bind
  intro ws hws
  exact (leads_orAll hws).mono (fun w hw => ⟨hw, hlen⟩) fun _ hc => hc

theorem leads_equal (ha : ∀ w ∈ a, w ∉ outs) (hb : ∀ w ∈ b, w ∉ outs) :
    Leads (Tidy outs ts (out ++ pending)) (equal a b out) (fun _ => True) (Tidy outs ts pending) := by
  apply (leads_differ ha hb).bind
  rintro any ⟨hany, hlen⟩
  apply Leads.checked
  intro w hw
  rw [eq_singleton_of_wireAt hlen hw]
  exact leads_invTo hany .first

theorem leads_notEqual (ha : ∀ w ∈ a, w ∉ outs) (hb : ∀ w ∈ b, w ∉ outs) :
    Leads (Tidy outs ts (out ++ pending)) (notEqual a b out) (fun _ => True) (Tidy outs ts pending) := by
  apply (leads_differ ha hb).bind
  rintro any ⟨hany, hlen⟩
  apply Leads.checked
  intro w hw
  rw [eq_singleton_of_wireAt hlen hw]
  exact leads_copyTo hany .first

theorem leads_lessThan (ha : ∀ w ∈ a, w ∉ outs) (hb : ∀ w ∈ b, w ∉ outs) :
    Leads (Tidy outs ts (out ++ pending)) (lessThan a b out enc obj) (fun _ => True)
      (TidyFrom (obj = .depth) outs ts pending) := by
  apply Leads.checked
  intro _ _
  apply Leads.checked
  intro _ _
  apply Leads.adderTemps
  intro temps more hmore htemps
  exact (leads_sumBit ha hb htemps).tidyFrom hmore

theorem leads_atLeast (ha : ∀ w ∈ a, w ∉ outs) (hb : ∀ w ∈ b, w ∉ outs) :
    Leads (Tidy outs ts (out ++ pending)) (atLeast a b out enc obj) (fun _ => True)
      (TidyFrom (obj = .depth) outs ts pending) := by
  apply Leads.checked
  intro _ hlen
  apply Leads.newBundle
  intro less _ hless
  apply (leads_lessThan ha hb).after
  intro _
  apply Leads.of_tidyFrom
  intro more hmore
  apply Leads.checked
  intro w hw
  apply Leads.checked
  intro o ho
  rw [eq_singleton_of_wireAt hlen ho]
  exact (leads_invTo (hless w (mem_of_wireAt hw)) .first).tidyFrom hmore

/-! ### Sign and magnitude -/

section Sign

variable (ha : ∀ w ∈ a, w ∉ outs) (htemps : Spare outs ts temps)
include ha htemps

theorem leads_negate :
    Leads (Tidy outs ts (out ++ pending)) (negate a out temps obj) (fun _ => True)
      (Tidy outs ts pending) := by
  apply Leads.checked
  intro _ _
  apply (leads_extend ha).bind
  intro x hx
  apply (Leads.mapM fun w hw => leads_inv (hx w hw)).bind
  intro inverted hinverted
  apply (leads_constant true).bind
  intro one hone
  exact leads_addSub hinverted (by simpa using hone) htemps

/-- The bundles for the negation and the absolute value are driven before they are read. -/
theorem leads_magnitude :
    Leads (Tidy outs ts (out ++ pending)) (magnitude a out temps obj) (fun _ => True)
      (Tidy outs ts pending) := by
  apply Leads.checked
  intro _ _
  apply Leads.checked
  intro _ _
  apply Leads.checked
  intro sign hsign
  have hsign : ∀ w ∈ [sign], w ∉ outs := by simpa using not_mem_of_msb ha hsign
  apply Leads.newBundle
  intro negated _ hnegated
  apply (leads_negate ha htemps).after
  intro _
  split
  · exact leads_selectTo hnegated ha hsign htemps
  · apply Leads.newBundle
    intro absolute _ habsolute
    apply (leads_selectTo hnegated ha hsign htemps).after
    intro _
    exact leads_copyBundle habsolute

theorem leads_applySign {sign : Bundle} (hsign : ∀ w ∈ sign, w ∉ outs) :
    Leads (Tidy outs ts (out ++ pending)) (applySign a sign out temps obj) (fun _ => True)
      (Tidy outs ts pending) := by
  apply Leads.checked
  intro _ _
  apply Leads.checked
  intro _ _
  apply (leads_extend ha).bind
  intro absolute habsolute
  apply Leads.newBundle
  intro negated _ hnegated
  apply (leads_negate habsolute htemps).after
  intro _
  exact leads_selectTo hnegated habsolute hsign htemps

end Sign

/-! ### Multiplication -/

theorem leads_partialProducts {width : Nat} (ha : ∀ w ∈ a, w ∉ outs) (hb : ∀ w ∈ b, w ∉ outs) :
    Leads (Tidy outs ts pending) (partialProducts a b width)
      (fun terms => ∀ s ∈ terms, ∀ w ∈ s.bits, w ∉ outs) (Tidy outs ts pending) := by
  apply Leads.mapM
  intro p hp
  have hbit : p.1 ∉ outs := hb _ (List.mem_of_mem_take (List.fst_mem_of_mem_zipIdx hp))
  apply Leads.checked
  intro room _
  apply Leads.checked
  intro shifted hshifted
  apply (leads_constantBundle 0 _).bind
  intro zero hzero
  apply (leads_select (fun w hw => ha w (mem_of_slice hshifted w hw)) hzero hbit).bind
  intro ws hws
  exact .pure hws

/-- The sum of two terms goes to new wires, all of which are driven. -/
theorem leads_accumulate {width : Nat} {lo hi : ShiftedSum} (hlo : ∀ w ∈ lo.bits, w ∉ outs)
    (hhi : ∀ w ∈ hi.bits, w ∉ outs) (htemps : Spare outs ts temps) :
    Leads (Tidy outs ts pending) (accumulate width temps obj lo hi) (fun s => ∀ w ∈ s.bits, w ∉ outs)
      (Tidy outs ts pending) := by
  apply Leads.checked
  intro gap _
  apply (leads_extend hlo).bind
  intro low hlow
  apply Leads.checked
  intro room _
  apply Leads.newBundle
  intro sum _ hsum
  have hresult : ∀ w ∈ low ++ sum, w ∉ outs := fun w hw =>
    (List.mem_append.mp hw).elim (hlow w) (hsum w)
  have hadd : ∀ upper, (∀ w ∈ upper, w ∉ outs) →
      Leads (Tidy outs ts (sum ++ pending)) (add upper hi.bits sum temps .unsigned obj) (fun _ => True)
        (Tidy outs ts pending) := fun upper hupper => leads_addSub hupper hhi htemps
  dsimp only
  split
  · split
    · apply Leads.checked
      intro upper hupper
      apply (hadd upper fun w hw => hlo w (mem_of_slice hupper w hw)).after
      intro _
      exact .pure hresult
    · apply (leads_constantBundle 0 1).bind
      intro upper hupper
      apply (hadd upper hupper).after
      intro _
      exact .pure hresult
  · rename_i hempty
    obtain rfl : sum = [] := by simpa using hempty
    exact .pure hresult

theorem leads_multiplyUnsigned (ha : ∀ w ∈ a, w ∉ outs) (hb : ∀ w ∈ b, w ∉ outs) :
    Leads (Tidy outs ts (out ++ pending)) (multiplyUnsigned a b out obj) (fun _ => True)
      (TidyFrom (obj = .depth) outs ts pending) := by
  apply Leads.adderTemps
  intro temps more hmore htemps
  apply (leads_partialProducts ha hb).bind
  intro terms hterms
  have hcopy : ∀ total : ShiftedSum, (∀ w ∈ total.bits, w ∉ outs) →
      Leads (Tidy outs (ts ++ more) (out ++ pending)) (copyBundle total.bits out .unsigned) (fun _ => True)
        (TidyFrom (obj = .depth) outs ts pending) := fun total htotal =>
    (leads_copyBundle htotal).tidyFrom hmore
  dsimp only
  split
  · exact .throw
  · rename_i first rest
    obtain ⟨hfirst, hrest⟩ := List.forall_mem_cons.mp hterms
    apply Leads.bind _ hcopy
    apply Leads.foldlM hfirst
    intro term hterm sum hsum
    exact leads_accumulate hsum (hrest term hterm) htemps
  · apply Leads.bind _ hcopy
    exact leads_reduce (fun _ _ _ hlo hhi => leads_accumulate hlo hhi htemps) hterms

theorem leads_multiply (ha : ∀ w ∈ a, w ∉ outs) (hb : ∀ w ∈ b, w ∉ outs) :
    Leads (Tidy outs ts (out ++ pending)) (multiply a b out obj enc) (fun _ => True)
      (TidyFrom (enc = .unsigned ∧ obj = .depth) outs ts pending) := by
  apply Leads.checked
  intro _ _
  apply Leads.checked
  intro _ _
  cases enc with
  | unsigned =>
    simpa using leads_multiplyUnsigned ha hb
  | twosComplement =>
    apply Leads.addTemps
    intro temps htemps
    apply Leads.newBundle
    intro ma _ hma
    apply (leads_magnitude ha htemps).after
    intro _
    apply Leads.newBundle
    intro mb _ hmb
    apply (leads_magnitude hb htemps).after
    intro _
    apply Leads.newBundle
    intro product _ hproduct
    apply (leads_multiplyUnsigned hma hmb).after
    intro _
    apply Leads.of_tidyFrom
    intro more _
    apply Leads.checked
    intro sa hsa
    apply Leads.checked
    intro sb hsb
    apply (leads_gate (not_mem_of_msb ha hsa) (not_mem_of_msb hb hsb)).bind
    intro sign hsign
    have hsigned : Leads (Tidy outs (ts ++ [temps] ++ more) (out ++ pending))
        (applySign product [sign] out temps obj) (fun _ => True)
        (Tidy outs (ts ++ [temps] ++ more) pending) :=
      leads_applySign hproduct (htemps.append more) (by simpa using hsign)
    rw [List.append_assoc] at hsigned ⊢
    exact hsigned.tidyFrom (by simp)

/-! ### Division -/

/-- A trial drives the wires of the difference and of the next remainder. -/
theorem leads_trialStep {divisor remainder : Bundle} {bit : Wire} (hdivisor : ∀ w ∈ divisor, w ∉ outs)
    (hremainder : ∀ w ∈ remainder, w ∉ outs) (hbit : bit ∉ outs) (htemps : Spare outs ts temps) :
    Leads (Tidy outs ts pending) (trialStep divisor temps obj remainder bit)
      (fun r => r.1 ∉ outs ∧ ∀ w ∈ r.2, w ∉ outs) (Tidy outs ts pending) := by
  have hshifted : ∀ w ∈ bit :: remainder, w ∉ outs := List.forall_mem_cons.mpr ⟨hbit, hremainder⟩
  apply Leads.newBundle
  intro diff _ hdiff
  apply (leads_addSub hshifted hdivisor htemps).after
  intro _
  apply Leads.checked
  intro borrow hborrow
  have hborrow := hdiff borrow (mem_of_wireAt hborrow)
  apply (leads_inv hborrow).bind
  intro quotientBit hquotientBit
  apply Leads.newBundle
  intro next _ hnext
  apply Leads.checked
  intro kept hkept
  apply Leads.checked
  intro reduced hreduced
  apply (leads_selectTo (fun w hw => hshifted w (mem_of_slice hkept w hw))
    (fun w hw => hdiff w (mem_of_slice hreduced w hw)) (by simpa using hborrow) htemps).after
  intro _
  exact .pure ⟨hquotientBit, hnext⟩

theorem leads_trials {divisor : Bundle} (hdivisor : ∀ w ∈ divisor, w ∉ outs)
    (htemps : Spare outs ts temps) : ∀ bits quotient remainder : Bundle, (∀ w ∈ bits, w ∉ outs) →
    (∀ w ∈ quotient, w ∉ outs) → (∀ w ∈ remainder, w ∉ outs) →
    Leads (Tidy outs ts pending) (trials divisor temps obj bits quotient remainder)
      (fun r => (∀ w ∈ r.1, w ∉ outs) ∧ ∀ w ∈ r.2, w ∉ outs) (Tidy outs ts pending)
  | [], _, _, _, hquotient, hremainder => .pure ⟨hquotient, hremainder⟩
  | bit :: rest, quotient, remainder, hbits, hquotient, hremainder => by
    obtain ⟨hbit, hrest⟩ := List.forall_mem_cons.mp hbits
    rw [trials]
    apply (leads_trialStep hdivisor hremainder hbit htemps).bind
    rintro ⟨quotientBit, next⟩ ⟨hbit, hnext⟩
    exact leads_trials hdivisor htemps rest _ _ hrest (List.forall_mem_cons.mpr ⟨hbit, hquotient⟩) hnext

section Divide

variable {quot rem : Bundle} (ha : ∀ w ∈ a, w ∉ outs) (hb : ∀ w ∈ b, w ∉ outs)
include ha hb

theorem leads_divideUnsigned :
    Leads (Tidy outs ts (quot ++ (rem ++ pending))) (divideUnsigned a b quot rem obj) (fun _ => True)
      (TidyFrom False outs ts pending) := by
  apply Leads.divisionTemps
  intro temps htemps
  apply (leads_constant false).bind
  intro zero hzero
  have hstart : ∀ w ∈ List.replicate b.length zero, w ∉ outs := fun w hw =>
    List.eq_of_mem_replicate hw ▸ hzero
  have hbits : ∀ w ∈ a.reverse, w ∉ outs := fun w hw => ha w (List.mem_reverse.mp hw)
  apply (leads_trials hb htemps _ _ _ hbits (by simp) hstart).bind
  rintro ⟨quotient, remainder⟩ ⟨hquotient, hremainder⟩
  apply (leads_copyBundle hquotient).after
  intro _
  exact (leads_copyBundle hremainder).tidyFrom (by simp)

theorem leads_divide :
    Leads (Tidy outs ts (quot ++ (rem ++ pending))) (divide a b quot rem enc obj) (fun _ => True)
      (TidyFrom False outs ts pending) := by
  apply Leads.checked
  intro _ _
  apply Leads.checked
  intro _ _
  apply Leads.checked
  intro _ _
  cases enc with
  | unsigned => exact leads_divideUnsigned ha hb
  | twosComplement =>
    apply Leads.divisionTemps
    intro temps htemps
    apply Leads.newBundle
    intro ma _ hma
    apply (leads_magnitude ha htemps).after
    intro _
    apply Leads.newBundle
    intro mb _ hmb
    apply (leads_magnitude hb htemps).after
    intro _
    apply Leads.newBundle
    intro mq _ hmq
    apply Leads.newBundle
    intro mr _ hmr
    -- the bundle allocated last comes first in the list of pending wires
    apply Leads.perm (List.perm_append_comm_assoc _ _ _)
    apply (leads_divideUnsigned hma hmb).after
    intro _
    apply Leads.of_tidyFrom
    intro more _
    have htemps := htemps.append more
    apply Leads.checked
    intro sa hsa
    apply Leads.checked
    intro sb hsb
    apply (leads_gate (not_mem_of_msb ha hsa) (not_mem_of_msb hb hsb)).bind
    intro sign hsign
    apply (leads_applySign hmq htemps (by simpa using hsign)).after
    intro _
    apply Leads.checked
    intro sa' hsa'
    have hsigned : Leads (Tidy outs (ts ++ [temps] ++ more) (rem ++ pending))
        (applySign mr [sa'] rem temps obj) (fun _ => True) (Tidy outs (ts ++ [temps] ++ more) pending) :=
      leads_applySign hmr htemps (by simpa using not_mem_of_msb ha hsa')
    rw [List.append_assoc] at hsigned ⊢
    exact hsigned.tidyFrom (by simp)

end Divide

end Build
end BitCircuit
