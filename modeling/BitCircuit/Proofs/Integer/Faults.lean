/-
# Operations on integers do not fault

No operation on integers looks for a position that is not there, whatever bundles it is given: they
may be empty, too narrow, have wires in common or wires that do not exist. The checks at the start of an
operation and the widths of the bundles it makes keep every position in range. What is left is a bundle
that is too wide for any list, and how wide the bundles of an operation are is bounded by those it is
given (`n` in the theorems below).

Key theorems: one `averts_…` for each operation, among them `Build.averts_lookahead`,
`Build.averts_accumulate` and `Build.averts_trialStep`.
-/
import BitCircuit.Integer.Order
import BitCircuit.Integer.Product
import BitCircuit.Integer.Quotient
import BitCircuit.Proofs.Faults

namespace BitCircuit

theorem Sink.targets_ne_nil (sink : Sink) (h : sink.wires ≠ []) : sink.targets ≠ [] := by
  cases sink with
  | all out => simpa [targets, wires] using h
  | bit position out => simp [targets]

namespace Build

variable {α : Type} {n : Nat} {a b out temps : Bundle} {enc : Encoding} {dir : Direction}
  {obj : Objective}

/-! ### Operands and temporaries -/

theorem averts_extend {width : Nat} (h : Allows n width) :
    Averts n (extend enc width a) fun x => x.length = width := by
  unfold extend
  split
  · rename_i hle
    exact .pure (by rw [List.length_take, Nat.min_eq_left hle])
  · rename_i hlt
    have hpad : Averts n (padding enc a) fun _ => True := by
      cases enc with
      | twosComplement => exact .check (answers_msb a)
      | unsigned => exact averts_constant false
    apply hpad.after
    intro pad
    apply Averts.bind (.check (answers_requireBelow h))
    intro _ _
    apply Averts.pure
    rw [List.length_append, List.length_replicate]
    omega

theorem averts_adderTemps : Averts n (adderTemps obj) fun _ => True := by
  cases obj with
  | size => exact (averts_addTemps (.inl (by decide))).any
  | depth => exact .pure trivial

theorem averts_divisionTemps : Averts n (divisionTemps obj) fun _ => True := by
  cases obj with
  | size => exact (averts_addTemps (.inl (by decide))).any
  | depth => exact (averts_addTemps (.inl (by decide))).any

/-! ### Bit by bit -/

theorem averts_complement (hout : Allows n out.length) : Averts n (complement a out) fun _ => True := by
  apply Averts.bind (.check (answers_requireNonempty [a]))
  intro _ _
  apply Averts.bind (.check (answers_requireDistinct [out] [a]))
  intro _ _
  apply (averts_extend hout).bind
  intro x hx
  apply Averts.bind (.check (answers_inStep hx rfl))
  intro l _
  exact .forM fun p _ => averts_invTo p.1 p.2

theorem averts_bitwise {kind : GateKind} (hout : Allows n out.length) :
    Averts n (bitwise kind a b out enc) fun _ => True := by
  apply Averts.bind (.check (answers_requireNonempty [a, b]))
  intro _ _
  apply Averts.bind (.check (answers_requireDistinct [out] [a, b]))
  intro _ _
  apply (averts_extend hout).bind
  intro x hx
  apply (averts_extend hout).bind
  intro y hy
  apply Averts.bind (.check (answers_inStep hx hy))
  intro xy hxy
  apply Averts.bind (.check (answers_inStep hxy rfl))
  intro l _
  exact .forM fun p _ => averts_gateTo kind _ _ _

/-- The widths that the selection checks make its lists run in step. -/
theorem averts_selectTo {ifTrue ifFalse choice : Bundle} :
    Averts n (selectTo ifTrue ifFalse choice out temps) fun _ => True := by
  apply Averts.bind (.check (answers_requireWidth choice 1))
  intro _ hchoice
  apply Averts.bind (.check (answers_requireWidth ifFalse ifTrue.length))
  intro _ hfalse
  apply Averts.bind (.check (answers_requireWidth out ifTrue.length))
  intro _ hout
  apply Averts.bind (.check (answers_requireTemps temps 1))
  intro _ htemps
  apply Averts.bind (.check (answers_requireDistinct _ _))
  intro _ _
  apply Averts.bind (.check (answers_requireDistinct _ _))
  intro _ _
  apply Averts.bind (.check (answers_wireAt htemps))
  intro spare _
  apply Averts.bind (.check (answers_wireAt (by omega)))
  intro chosen _
  apply Averts.bind (.check (answers_inStep rfl hfalse))
  intro tf htf
  apply Averts.bind (.check (answers_inStep htf hout))
  intro l _
  apply Averts.forM
  intro p _
  apply (averts_gateTo _ _ _ _).after
  intro _
  apply (averts_gateTo _ _ _ _).after
  intro _
  exact averts_gateTo _ _ _ _

theorem averts_select {ifTrue ifFalse : Bundle} {choice : Wire} :
    Averts n (select ifTrue ifFalse choice) fun _ => True := by
  apply Averts.bind (.check (answers_requireWidth ifFalse ifTrue.length))
  intro _ _
  have hselect : ∀ p ∈ ifTrue.zip ifFalse, Averts n (do
      let d ← gate .xor p.1 p.2
      let d ← gate .and d choice
      gate .xor d p.2) fun _ => True := fun p _ =>
    (averts_gate _ _ _).after fun _ => (averts_gate _ _ _).after fun _ => averts_gate _ _ _
  exact (Averts.mapM hselect).any

theorem averts_copyBundle (hout : Allows n out.length) :
    Averts n (copyBundle a out enc) fun _ => True := by
  apply (averts_extend hout).bind
  intro x hx
  apply Averts.bind (.check (answers_inStep hx rfl))
  intro l _
  exact .forM fun p _ => averts_copyTo p.1 p.2

/-! ### The ripple-carry chain -/

section Ripple

variable {carry spare x y : Wire} {target : Option Wire} {more : Bool} {col : AdderColumn}

theorem averts_driveTarget {kind : GateKind} : Averts n (driveTarget kind x y target) fun _ => True := by
  cases target with
  | none => exact .pure trivial
  | some out => exact averts_gateTo kind x y out

theorem averts_rippleLowest : Averts n (rippleLowest dir carry spare col more) fun _ => True := by
  apply averts_driveTarget.after
  intro _
  cases more with
  | false => exact .pure trivial
  | true =>
    cases dir with
    | addition => exact averts_gateTo _ _ _ _
    | subtraction => exact (averts_invTo _ _).after fun _ => averts_gateTo _ _ _ _

theorem averts_rippleKnown {bit : Bool} :
    Averts n (rippleKnown bit carry x target more) fun _ => True := by
  apply averts_driveTarget.after
  intro _
  cases more with
  | false => exact .pure trivial
  | true => exact averts_gateTo _ _ _ _

theorem averts_rippleFull : Averts n (rippleFull dir carry spare x y target more) fun _ => True := by
  apply (averts_gateTo _ _ _ _).after
  intro _
  apply averts_driveTarget.after
  intro _
  cases more with
  | false => exact .pure trivial
  | true =>
    apply (averts_gateTo _ _ _ _).after
    intro _
    apply (averts_gateTo _ _ _ _).after
    intro _
    exact averts_gateTo _ _ _ _

theorem averts_rippleColumn : Averts n (rippleColumn dir carry spare col more) fun _ => True := by
  apply Averts.of_get
  intro c
  rcases c.knownBit dir col.x col.y with ⟨x, y, known⟩
  cases known with
  | some v => exact averts_rippleKnown
  | none => exact averts_rippleFull

theorem averts_rippleColumns : ∀ cols : List AdderColumn,
    Averts n (rippleColumns dir carry spare cols) fun _ => True
  | [] => .pure trivial
  | _ :: rest => averts_rippleColumn.after fun _ => averts_rippleColumns rest

theorem answers_adderColumns {xs ys : Bundle} {targets : List (Option Wire)} {width : Nat}
    (hxs : xs.length = width) (hys : ys.length = width) (htargets : targets.length = width) :
    Answers n (adderColumns xs ys targets) fun cols => cols.length = width := by
  apply Answers.bind (answers_inStep hxs hys)
  intro xy hxy
  apply Answers.bind (answers_inStep hxy htargets)
  intro l hl
  exact .ok (by rw [List.length_map, hl])

end Ripple

section Adders

variable {sink : Sink} {width : Nat}

/-- Two temporaries and a column are there. -/
theorem averts_ripple (hwidth : sink.width = .ok width) (hne : sink.targets ≠ [])
    (hn : Allows n width) : Averts n (ripple a b sink temps enc dir) fun _ => True := by
  have htargets : sink.targets.length = width := Sink.length_targets hwidth
  apply Averts.bind (.check (answers_requireTemps temps 2))
  intro _ htemps
  apply Averts.bind (.check (answers_requireDistinct _ _))
  intro _ _
  apply Averts.bind (.check (Answers.of_eq hwidth))
  intro w hw
  rw [hw]
  apply (averts_extend hn).bind
  intro x hx
  apply (averts_extend hn).bind
  intro y hy
  apply Averts.bind (.check (answers_wireAt (by omega)))
  intro carry _
  apply Averts.bind (.check (answers_wireAt (by omega)))
  intro spare _
  apply Averts.bind (.check (answers_adderColumns hx hy htargets))
  intro cols hcols
  cases cols with
  | nil =>
    have hzero : sink.targets.length = 0 := htargets.trans hcols.symm
    exact absurd (List.eq_nil_of_length_eq_zero hzero) hne
  | cons lowest rest => exact averts_rippleLowest.after fun _ => averts_rippleColumns rest

/-! ### Balanced reduction -/

section Reduce

variable {join : Bool → α → α → Build α} {P : α → Prop} {k : α → Nat}
  (hjoin : ∀ lowest lo hi, P lo → P hi → k lo ≤ k hi →
    Averts n (join lowest lo hi) fun p => P p ∧ k p = k lo)
include hjoin

/-- A level leaves parts in the same order: each has the key of the first of those it joins. -/
theorem averts_joinPairs : ∀ {parts : List α} {lowest : Bool}, (∀ p ∈ parts, P p) →
    parts.Pairwise (k · ≤ k ·) → Averts n (joinPairs join lowest parts) fun out =>
      (∀ p ∈ out, P p) ∧ (out.map k).Sublist (parts.map k)
  | [], _, hparts, _ => .pure ⟨hparts, .refl _⟩
  | [_], _, hparts, _ => .pure ⟨hparts, .refl _⟩
  | lo :: hi :: rest, lowest, hparts, hkeys => by
    obtain ⟨hlo, hparts⟩ := List.forall_mem_cons.mp hparts
    obtain ⟨hhi, hrest⟩ := List.forall_mem_cons.mp hparts
    obtain ⟨hle, hkeys⟩ := List.pairwise_cons.mp hkeys
    rw [joinPairs]
    apply (hjoin lowest lo hi hlo hhi (hle hi List.mem_cons_self)).bind
    intro joined hjoined
    apply (averts_joinPairs hrest hkeys.of_cons).bind
    intro out hout
    apply Averts.pure
    refine ⟨List.forall_mem_cons.mpr ⟨hjoined.1, hout.1⟩, ?_⟩
    rw [List.map_cons, List.map_cons, List.map_cons, hjoined.2]
    exact (hout.2.cons _).cons_cons _

theorem averts_joinLevels : ∀ {levels : Nat} {parts : List α}, (∀ p ∈ parts, P p) →
    parts.Pairwise (k · ≤ k ·) → Averts n (joinLevels join levels parts) fun out => ∀ p ∈ out, P p
  | 0, _, hparts, _ => .pure hparts
  | _ + 1, [], hparts, _ => .pure hparts
  | _ + 1, [_], hparts, _ => .pure hparts
  | levels + 1, lo :: hi :: rest, hparts, hkeys => by
    rw [joinLevels]
    apply (averts_joinPairs hjoin hparts hkeys).bind
    intro out hout
    have hkeys' : out.Pairwise (k · ≤ k ·) :=
      List.pairwise_map.mp ((List.pairwise_map.mpr hkeys).sublist hout.2)
    exact averts_joinLevels hout.1 hkeys'

theorem averts_reduce {parts : List α} (hparts : ∀ p ∈ parts, P p)
    (hkeys : parts.Pairwise (k · ≤ k ·)) : Averts n (reduce join parts) P := by
  apply (averts_joinLevels hjoin hparts hkeys).bind
  intro out hout
  cases out with
  | nil => exact .throw rfl
  | cons p out => exact .pure (hout p List.mem_cons_self)

end Reduce

/-- Parts that can be joined in any order. -/
theorem averts_reduce_any {join : Bool → α → α → Build α}
    (hjoin : ∀ lowest lo hi, Averts n (join lowest lo hi) fun _ => True) (parts : List α) :
    Averts n (reduce join parts) fun _ => True := by
  have hjoin' : ∀ lowest lo hi, True → True → 0 ≤ 0 →
      Averts n (join lowest lo hi) fun _ => True ∧ 0 = 0 := fun lowest lo hi _ _ _ =>
    (hjoin lowest lo hi).mono fun _ _ => ⟨trivial, rfl⟩
  exact averts_reduce (P := fun _ => True) (k := fun _ => 0) hjoin' (fun _ _ => trivial)
    (List.pairwise_of_forall fun _ _ => Nat.le_refl 0)

theorem averts_orAll (ws : Bundle) : Averts n (orAll ws) fun _ => True :=
  averts_reduce_any (fun _ x y => averts_gate .or x y) ws

/-! ### Carry lookahead -/

theorem averts_propagateBoth {skip : Bool} {unused : Wire} {lo hi : Span} :
    Averts n (propagateBoth skip unused lo hi) fun _ => True := by
  cases skip with
  | true => exact .pure trivial
  | false => exact averts_gate _ _ _

/-- A level of the network keeps the number of spans. -/
theorem averts_joinStride : ∀ his los below : List Span,
    Averts n (joinStride his los below) fun top => top.length = his.length
  | [], _, _ => .pure rfl
  | _ :: _, [], _ => .pure rfl
  | hi :: his, lo :: los, below => by
    rw [joinStride]
    apply (averts_gate _ _ _).after
    intro t
    apply (averts_gate _ _ _).after
    intro g
    apply averts_propagateBoth.after
    intro p
    apply (averts_joinStride his los below.tail).bind
    intro top htop
    exact .pure (congrArg (· + 1) htop)

/-- There is a carry for each span. -/
theorem averts_koggeStone (spans : List Span) :
    Averts n (koggeStone spans) fun carries => carries.length = spans.length := by
  have hlevels : Averts n ((strides spans.length 1).foldlM
      (fun top d => joinStride top (top.drop d) (top.drop (2 * d))) spans.reverse)
      fun top => top.length = spans.length := by
    apply Averts.foldlM (R := fun top : List Span => top.length = spans.length) List.length_reverse
    intro d _ top htop
    exact (averts_joinStride _ _ _).mono fun _ h => h.trans htop
  apply hlevels.bind
  intro top htop
  exact .pure (by rw [List.length_map, List.length_reverse, htop])

theorem averts_topCarry (spans : List Span) : Averts n (topCarry spans) fun _ => True := by
  have hjoin : ∀ lowest lo hi, Averts n (joinSpans lowest lo hi) fun _ => True := by
    intro lowest lo hi
    apply (averts_gate _ _ _).after
    intro t
    apply (averts_gate _ _ _).after
    intro g
    exact averts_propagateBoth.after fun _ => .pure trivial
  exact (averts_reduce_any hjoin spans).after fun _ => .pure trivial

theorem averts_generateBits (columns : List (Wire × Wire)) :
    Averts n (generateBits dir columns) fun g => g.length = columns.length - 1 := by
  have hbits : Averts n (columns.dropLast.mapM fun p => gate .and p.1 p.2)
      fun g => g.length = columns.length - 1 := by
    apply (Averts.mapM fun p _ => averts_gate .and p.1 p.2).mono
    intro g hg
    rw [← hg.length_eq, List.length_dropLast]
  apply hbits.bind
  intro g hg
  split
  · exact (averts_gate _ _ _).after fun _ => .pure hg
  · exact .pure hg

theorem averts_addend (y : Bundle) : Averts n (addend dir y) fun y' => y'.length = y.length := by
  cases dir with
  | addition => exact .pure rfl
  | subtraction => exact (Averts.mapM fun w _ => averts_inv w).mono fun _ h => h.length_eq.symm

theorem averts_driveLowest {targets : List (Option Wire)} {p : Bundle} (htargets : targets ≠ [])
    (hp : p ≠ []) : Averts n (driveLowest dir targets p) fun _ => True := by
  cases targets with
  | nil => exact absurd rfl htargets
  | cons target targets =>
    cases p with
    | nil => exact absurd rfl hp
    | cons p ps =>
      cases target with
      | none => exact .pure trivial
      | some out =>
        cases dir with
        | addition => exact averts_copyTo p out
        | subtraction => exact averts_invTo p out

/-- The sum bits above the lowest one, the carries and the targets run in step. -/
theorem averts_driveUpper {p : Bundle} {spans : List Span} (hp : p.length = sink.targets.length)
    (hspans : spans.length = p.length - 1) : Averts n (driveUpper p spans sink) fun _ => True := by
  cases sink with
  | all out =>
    have hout : out.length = p.length := by rw [hp, Sink.targets, List.length_map]
    apply (averts_koggeStone spans).bind
    intro carries hcarries
    apply Averts.bind (.check (answers_inStep List.length_tail (hcarries.trans hspans)))
    intro pc hpc
    apply Averts.bind (.check (answers_inStep hpc (by rw [List.length_tail, hout])))
    intro l _
    exact .forM fun _ _ => averts_gateTo _ _ _ _
  | bit position out =>
    cases position with
    | zero => exact .pure trivial
    | succ position =>
      have hposition : position + 1 < p.length := by
        rw [hp, Sink.targets, List.length_append, List.length_replicate]
        exact Nat.lt_succ_self _
      apply (averts_topCarry spans).after
      intro carry
      apply Averts.bind (.check (answers_wireAt hposition))
      intro w _
      exact averts_gateTo _ _ _ _

theorem averts_lookahead (hwidth : sink.width = .ok width) (hne : sink.targets ≠ [])
    (hn : Allows n width) : Averts n (lookahead a b sink enc dir) fun _ => True := by
  have htargets : sink.targets.length = width := Sink.length_targets hwidth
  have hpos : 0 < width := htargets ▸ List.length_pos_iff.mpr hne
  apply Averts.bind (.check (Answers.of_eq hwidth))
  intro w hw
  rw [hw]
  apply (averts_extend hn).bind
  intro x hx
  apply (averts_extend hn).bind
  intro y hy
  apply (averts_addend y).bind
  intro y' hy'
  apply Averts.bind (.check (answers_inStep hx (hy'.trans hy)))
  intro columns hcolumns
  apply (Averts.mapM fun p _ => averts_gate .xor p.1 p.2).bind
  intro p hp
  have hp : p.length = width := hp.length_eq.symm.trans hcolumns
  apply (averts_generateBits columns).bind
  intro g hg
  have hg : g.length = width - 1 := by rw [hg, hcolumns]
  apply (averts_driveLowest hne (List.length_pos_iff.mp (by omega))).after
  intro _
  apply Averts.bind (.check (answers_inStep hg (by rw [List.length_dropLast, hp])))
  intro spans hspans
  apply averts_driveUpper (hp.trans htargets.symm)
  rw [List.length_map, hspans, hp]

/-! ### Addition and subtraction -/

theorem averts_addRipple (hout : Allows n out.length) :
    Averts n (addRipple a b out temps enc dir) fun _ => True := by
  apply Averts.bind (.check (answers_requireOperands a b (.all out)))
  intro _ hne
  exact averts_ripple rfl (Sink.targets_ne_nil _ hne) hout

theorem averts_addLookahead (hout : Allows n out.length) :
    Averts n (addLookahead a b out enc dir) fun _ => True := by
  apply Averts.bind (.check (answers_requireOperands a b (.all out)))
  intro _ hne
  exact averts_lookahead rfl (Sink.targets_ne_nil _ hne) hout

theorem averts_addSub (hout : Allows n out.length) :
    Averts n (addSub dir a b out temps enc obj) fun _ => True := by
  cases obj with
  | size => exact averts_addRipple hout
  | depth => exact averts_addLookahead hout

/-- The position of the bit has to be below the largest size. -/
theorem averts_sumBit {position : Nat} (hposition : position + 1 < sizeLimit)
    (hn : Allows n (position + 1)) : Averts n (sumBit a b out temps position enc dir obj) fun _ => True := by
  apply Averts.bind (.check (answers_requireWidth out 1))
  intro _ hout
  apply Averts.bind (.check (answers_wireAt (by omega)))
  intro w _
  have hwidth : (Sink.bit position w).width = .ok (position + 1) := if_pos hposition
  apply Averts.bind (.check (answers_requireOperands a b (.bit position w)))
  intro _ hne
  cases obj with
  | size => exact averts_ripple hwidth (Sink.targets_ne_nil _ hne) hn
  | depth => exact averts_lookahead hwidth (Sink.targets_ne_nil _ hne) hn

end Adders

/-! ### Equality and order -/

theorem averts_isZero : Averts n (isZero a out) fun _ => True := by
  apply Averts.bind (.check (answers_requireWidth out 1))
  intro _ hout
  apply Averts.bind (.check (answers_requireDistinct _ _))
  intro _ _
  apply (averts_orAll a).after
  intro any
  apply Averts.bind (.check (answers_wireAt (by omega)))
  intro w _
  exact averts_invTo any w

theorem averts_differ : Averts n (differ a b out) fun _ => out.length = 1 := by
  apply Averts.bind (.check (answers_requireWidth out 1))
  intro _ hout
  apply Averts.bind (.check (answers_requireWidth b a.length))
  intro _ _
  apply Averts.bind (.check (answers_requireDistinct _ _))
  intro _ _
  apply (Averts.mapM fun p _ => averts_gate .xor p.1 p.2).after
  intro ws
  exact (averts_orAll ws).mono fun _ _ => hout

theorem averts_equal : Averts n (equal a b out) fun _ => True := by
  apply averts_differ.bind
  intro any hout
  apply Averts.bind (.check (answers_wireAt (by omega)))
  intro w _
  exact averts_invTo any w

theorem averts_notEqual : Averts n (notEqual a b out) fun _ => True := by
  apply averts_differ.bind
  intro any hout
  apply Averts.bind (.check (answers_wireAt (by omega)))
  intro w _
  exact averts_copyTo any w

theorem averts_lessThan (hsize : max a.length b.length + 1 < sizeLimit)
    (hn : Allows n (max a.length b.length + 1)) : Averts n (lessThan a b out enc obj) fun _ => True := by
  apply Averts.bind (.check (answers_requireWidth out 1))
  intro _ _
  apply Averts.bind (.check (answers_requireNonempty [a, b]))
  intro _ _
  apply averts_adderTemps.after
  intro temps
  exact averts_sumBit hsize hn

theorem averts_atLeast (hsize : max a.length b.length + 1 < sizeLimit)
    (hn : Allows n (max a.length b.length + 1)) : Averts n (atLeast a b out enc obj) fun _ => True := by
  apply Averts.bind (.check (answers_requireWidth out 1))
  intro _ hout
  apply (averts_newBundle (.inl (by decide))).bind
  intro less hless
  apply (averts_lessThan hsize hn).after
  intro _
  apply Averts.bind (.check (answers_wireAt (by omega)))
  intro w _
  apply Averts.bind (.check (answers_wireAt (by omega)))
  intro o _
  exact averts_invTo w o

/-! ### Sign and magnitude -/

theorem averts_negate (hout : Allows n out.length) : Averts n (negate a out temps obj) fun _ => True := by
  apply Averts.bind (.check (answers_requireNonempty [a, out]))
  intro _ _
  apply (averts_extend hout).after
  intro x
  apply (Averts.mapM fun w _ => averts_inv w).after
  intro inverted
  apply (averts_constant true).after
  intro one
  exact averts_addSub hout

theorem averts_magnitude (ha : Allows n a.length) (hout : Allows n out.length) :
    Averts n (magnitude a out temps obj) fun _ => True := by
  apply Averts.bind (.check (answers_requireNonempty [a, out]))
  intro _ _
  apply Averts.bind (.check (answers_requireDistinct _ _))
  intro _ _
  apply Averts.bind (.check (answers_msb a))
  intro sign _
  apply (averts_newBundle ha).bind
  intro negated hnegated
  apply (averts_negate (hnegated ▸ ha)).after
  intro _
  split
  · exact averts_selectTo
  · apply (averts_newBundle ha).after
    intro absolute
    exact averts_selectTo.after fun _ => averts_copyBundle hout

theorem averts_applySign {sign : Bundle} (hout : Allows n out.length) :
    Averts n (applySign a sign out temps obj) fun _ => True := by
  apply Averts.bind (.check (answers_requireWidth sign 1))
  intro _ _
  apply Averts.bind (.check (answers_requireNonempty [a, out]))
  intro _ _
  apply (averts_extend hout).after
  intro absolute
  apply (averts_newBundle hout).bind
  intro negated hnegated
  exact (averts_negate (hnegated ▸ hout)).after fun _ => averts_selectTo

/-! ### Multiplication -/

section Multiply

/-- A term for each bit has the bit's position as its shift. -/
theorem map_shift_eq_range' {bits : Bundle} {terms : List ShiftedSum}
    (h : List.Forall₂ (fun p s => s.shift = p.2) bits.zipIdx terms) :
    terms.map ShiftedSum.shift = List.range' 0 bits.length := by
  rw [← List.zipIdx_map_snd, ← List.forall₂_eq_eq_eq, List.forall₂_map_left_iff,
    List.forall₂_map_right_iff]
  exact h.flip

variable {width : Nat} (hwidth : Allows n width)
include hwidth

/-- The terms start below the width of the product, in the order of their shifts. -/
theorem averts_partialProducts : Averts n (partialProducts a b width) fun terms =>
    (∀ s ∈ terms, s.shift < width) ∧ terms.Pairwise (·.shift ≤ ·.shift) := by
  have hlength : (b.take width).length ≤ width := List.length_take_le width b
  have hterm : ∀ p ∈ (b.take width).zipIdx, Averts n (do
      let shifted ← a.slice 0 (min a.length (← difference width p.2))
      let zero ← constantBundle 0 shifted.length
      return (⟨p.2, ← select shifted zero p.1⟩ : ShiftedSum)) fun s => s.shift = p.2 := by
    intro p hp
    have hshift : p.2 < (b.take width).length := (List.mem_zipIdx' hp).1
    apply Averts.bind (.check (answers_difference (by omega)))
    intro room hroom
    apply Averts.bind (.check (answers_slice (Nat.zero_le _) (Nat.min_le_left _ _)))
    intro shifted hshifted
    apply (averts_constantBundle (hwidth.mono (by omega))).after
    intro zero
    exact averts_select.after fun _ => .pure rfl
  apply (Averts.mapM hterm).mono
  intro terms hterms
  have hshifts := map_shift_eq_range' hterms
  constructor
  · intro s hs
    have hmem : s.shift ∈ List.range' 0 (b.take width).length := hshifts ▸ List.mem_map_of_mem hs
    rw [List.mem_range'_1] at hmem
    omega
  · exact List.pairwise_map.mp (hshifts ▸ List.pairwise_le_range')

/-- The sum of two terms starts where the first one does. -/
theorem averts_accumulate {lo hi : ShiftedSum} (hlo : lo.shift < width) (hhi : hi.shift < width)
    (hle : lo.shift ≤ hi.shift) : Averts n (accumulate width temps obj lo hi) fun s =>
      s.shift < width ∧ s.shift = lo.shift := by
  apply Averts.bind (.check (answers_difference hle))
  intro gap hgap
  apply (averts_extend (hwidth.mono (by omega))).after
  intro low
  apply Averts.bind (.check (answers_difference hhi.le))
  intro room hroom
  apply (averts_newBundle (hwidth.mono (by omega))).bind
  intro sum hsum
  have hadd : ∀ upper, Averts n (add upper hi.bits sum temps .unsigned obj) fun _ => True :=
    fun upper => averts_addSub (hwidth.mono (by omega))
  have hresult : lo.shift < width ∧ lo.shift = lo.shift := ⟨hlo, rfl⟩
  dsimp only
  split
  · split
    · rename_i hlong
      apply Averts.bind (.check (answers_slice (Nat.le_of_lt hlong) (Nat.le_refl _)))
      intro upper _
      exact (hadd upper).after fun _ => .pure hresult
    · apply (averts_constantBundle (.inl (by decide))).after
      intro upper
      exact (hadd upper).after fun _ => .pure hresult
  · exact .pure hresult

end Multiply

theorem averts_multiplyUnsigned (hout : Allows n out.length) :
    Averts n (multiplyUnsigned a b out obj) fun _ => True := by
  apply averts_adderTemps.after
  intro temps
  apply (averts_partialProducts hout).bind
  intro terms hterms
  have hcopy : ∀ total : ShiftedSum, Averts n (copyBundle total.bits out .unsigned) fun _ => True :=
    fun total => averts_copyBundle hout
  dsimp only
  split
  · exact .throw rfl
  · rename_i first rest
    obtain ⟨hfirst, hrest⟩ := List.forall_mem_cons.mp hterms.1
    have hle := (List.pairwise_cons.mp hterms.2).1
    -- the sum so far starts where the first term does, below all that are left
    have hsum : Averts n (rest.foldlM (accumulate out.length temps .size) first)
        fun s => s.shift = first.shift := by
      apply Averts.foldlM (R := fun s : ShiftedSum => s.shift = first.shift) rfl
      intro term hterm sum hsum
      apply (averts_accumulate hout (hsum ▸ hfirst) (hrest term hterm) (hsum ▸ hle term hterm)).mono
      intro s hs
      exact hs.2.trans hsum
    exact hsum.after hcopy
  · have hjoin : ∀ (lowest : Bool) (lo hi : ShiftedSum), lo.shift < out.length →
        hi.shift < out.length → lo.shift ≤ hi.shift →
        Averts n (accumulate out.length temps .depth lo hi) fun s =>
          s.shift < out.length ∧ s.shift = lo.shift := fun _ _ _ => averts_accumulate hout
    exact (averts_reduce (k := ShiftedSum.shift) hjoin hterms.1 hterms.2).after hcopy

theorem averts_multiply (ha : Allows n a.length) (hb : Allows n b.length)
    (hout : Allows n out.length) : Averts n (multiply a b out obj enc) fun _ => True := by
  apply Averts.bind (.check (answers_requireNonempty [a, b, out]))
  intro _ _
  apply Averts.bind (.check (answers_requireDistinct _ _))
  intro _ _
  cases enc with
  | unsigned => exact averts_multiplyUnsigned hout
  | twosComplement =>
    apply (averts_addTemps (.inl (by decide))).after
    intro temps
    apply (averts_newBundle ha).bind
    intro ma hma
    apply (averts_magnitude ha (hma ▸ ha)).after
    intro _
    apply (averts_newBundle hb).bind
    intro mb hmb
    apply (averts_magnitude hb (hmb ▸ hb)).after
    intro _
    apply (averts_newBundle hout).bind
    intro product hproduct
    apply (averts_multiplyUnsigned (hproduct ▸ hout)).after
    intro _
    apply Averts.bind (.check (answers_msb a))
    intro sa _
    apply Averts.bind (.check (answers_msb b))
    intro sb _
    apply (averts_gate .xor sa sb).after
    intro sign
    exact averts_applySign hout

/-! ### Division -/

/-- The remainder stays as wide as the divisor, and the difference has two wires more. -/
theorem averts_trialStep {divisor remainder : Bundle} {bit : Wire}
    (hdivisor : Allows n (divisor.length + 2)) (hremainder : remainder.length = divisor.length) :
    Averts n (trialStep divisor temps obj remainder bit) fun r => r.2.length = divisor.length := by
  have hshifted : divisor.length ≤ (bit :: remainder).length := by
    rw [List.length_cons, hremainder]
    exact Nat.le_succ _
  apply (averts_newBundle hdivisor).bind
  intro diff hdiff
  apply (averts_addSub (hdiff ▸ hdivisor)).after
  intro _
  apply Averts.bind (.check (answers_wireAt (by omega)))
  intro borrow _
  apply (averts_inv borrow).after
  intro quotientBit
  apply (averts_newBundle (hdivisor.mono (by omega))).bind
  intro next hnext
  apply Averts.bind (.check (answers_slice (Nat.zero_le _) hshifted))
  intro kept _
  apply Averts.bind (.check (answers_slice (Nat.zero_le _) (by omega)))
  intro reduced _
  exact averts_selectTo.after fun _ => .pure hnext

theorem averts_trials {divisor : Bundle} (hdivisor : Allows n (divisor.length + 2)) :
    ∀ bits quotient remainder : Bundle, remainder.length = divisor.length →
      Averts n (trials divisor temps obj bits quotient remainder) fun _ => True
  | [], _, _, _ => .pure trivial
  | bit :: rest, quotient, remainder, hremainder => by
    rw [trials]
    apply (averts_trialStep hdivisor hremainder).bind
    intro r hr
    exact averts_trials hdivisor rest _ _ hr

section Divide

variable {quot rem : Bundle} (hb : Allows n (b.length + 2)) (hquot : Allows n quot.length)
  (hrem : Allows n rem.length)
include hb hquot hrem

theorem averts_divideUnsigned : Averts n (divideUnsigned a b quot rem obj) fun _ => True := by
  apply averts_divisionTemps.after
  intro temps
  apply (averts_constant false).after
  intro zero
  apply (averts_trials hb a.reverse [] _ List.length_replicate).after
  intro qr
  exact (averts_copyBundle hquot).after fun _ => averts_copyBundle hrem

theorem averts_divide (ha : Allows n a.length) :
    Averts n (divide a b quot rem enc obj) fun _ => True := by
  have hb' : Allows n b.length := hb.mono (Nat.le_add_right _ 2)
  apply Averts.bind (.check (answers_requireNonempty [a, b, quot, rem]))
  intro _ _
  apply Averts.bind (.check (answers_requireDistinct _ _))
  intro _ _
  apply Averts.bind (.check (answers_requireDistinct _ _))
  intro _ _
  cases enc with
  | unsigned => exact averts_divideUnsigned hb hquot hrem
  | twosComplement =>
    apply averts_divisionTemps.after
    intro temps
    apply (averts_newBundle ha).bind
    intro ma hma
    apply (averts_magnitude ha (hma ▸ ha)).after
    intro _
    apply (averts_newBundle hb').bind
    intro mb hmb
    apply (averts_magnitude hb' (hmb ▸ hb')).after
    intro _
    apply (averts_newBundle ha).bind
    intro mq hmq
    apply (averts_newBundle hb').bind
    intro mr hmr
    apply (averts_divideUnsigned (hmb ▸ hb) (hmq ▸ ha) (hmr ▸ hb')).after
    intro _
    apply Averts.bind (.check (answers_msb a))
    intro sa _
    apply Averts.bind (.check (answers_msb b))
    intro sb _
    apply (averts_gate .xor sa sb).after
    intro sign
    apply (averts_applySign hquot).after
    intro _
    apply Averts.bind (.check (answers_msb a))
    intro sa' _
    exact averts_applySign hrem

end Divide

end Build
end BitCircuit
