/-
# Adders run to the end

An adder whose operands are not empty and can be read, and whose results and temporaries may be
driven and are apart from each other and from the operands, is not refused at any of its gates, at
no width (`Build.addSub_fills`, `Build.sumBit_fills`). In the chain of a ripple-carry adder each
column leaves the carry that the next one reads; in the network of a lookahead adder each level
leaves as many spans as it found.

Key definitions: `Objective.temps`, `Room`.
Key theorems: `Build.extend_ready`, `Build.ripple_fills`, `Build.reduce_yields`,
`Build.lookahead_fills`, `Build.addSub_fills`, `Build.sumBit_fills`.
-/
import Mathlib.Data.List.ReduceOption
import BitCircuit.Integer.Adder
import BitCircuit.Proofs.Integer.Ripple
import BitCircuit.Proofs.Ready

namespace BitCircuit

/-- How many temporaries an adder needs. -/
def Objective.temps : Objective → Nat
  | .size => 2
  | .depth => 0

/-- Two temporaries are enough for an adder and for a selection. -/
theorem Objective.max_temps_le (obj : Objective) : max 1 obj.temps ≤ 2 := by
  cases obj <;> decide

/-- Where an operation writes: its results and at least `n` temporaries apart from them, all of
which may be driven. -/
structure Room (D : Set Wire) (out temps : Bundle) (n : Nat) : Prop where
  out_mem : ∀ w ∈ out, w ∈ D
  temps_mem : ∀ w ∈ temps, w ∈ D
  apart : ∀ w ∈ temps, w ∉ out
  enough : n ≤ temps.length

section

variable {c : Circuit} {D : Set Wire} {written others : List Bundle} {out temps : Bundle} {n : Nat}
  (hothers : ∀ x ∈ others, ∀ w ∈ x, c.Ready D w)
include hothers

/-- What may be driven is apart from what is ready to be read. -/
theorem requireDistinct_of_ready (hwritten : ∀ o ∈ written, ∀ w ∈ o, w ∈ D) :
    requireDistinct written others = .ok () := by
  refine requireDistinct_eq_ok.mpr fun o ho x hx w hw hw' => ?_
  exact (hothers x hx w hw').apart (hwritten o ho w hw)

/-- Temporaries are apart from the operands and the results. -/
theorem Room.distinct (h : Room D out temps n) : requireDistinct [temps] (others ++ [out]) = .ok () := by
  refine requireDistinct_eq_ok.mpr fun t ht x hx w hw hw' => ?_
  rw [List.mem_singleton.mp ht] at hw
  rcases List.mem_append.mp hx with hx | hx
  · exact (hothers x hx w hw').apart (h.temps_mem w hw)
  · rw [List.mem_singleton.mp hx] at hw'
    exact h.apart w hw hw'

end

/-- Both operands of an operation. -/
theorem ready_pair {c : Circuit} {D : Set Wire} {a b : Bundle} (ha : ∀ w ∈ a, c.Ready D w)
    (hb : ∀ w ∈ b, c.Ready D w) : ∀ x ∈ [a, b], ∀ w ∈ x, c.Ready D w := by
  simpa using And.intro ha hb

/-- A sum that fits into a bundle has a width. -/
theorem Sink.width_eq {sink : Sink} (h : sink.targets.length < wireLimit) :
    sink.width = .ok sink.targets.length := by
  cases sink with
  | all out => simp [Sink.width, Sink.targets]
  | bit position out =>
    have hposition : position + 1 < sizeLimit :=
      Nat.lt_trans (by simpa [Sink.targets] using h) (by decide)
    simp [Sink.width, Sink.targets, hposition]

namespace Build

variable {α : Type} {c : Circuit} {D : Set Wire} {kind : GateKind} {enc : Encoding}
  {dir : Direction}

/-! ### Operands -/

theorem padding_finds {a : Bundle} (hs : c.Site D) (hne : a ≠ []) (ha : ∀ w ∈ a, c.Ready D w) :
    (padding enc a).Finds c D := by
  cases enc with
  | twosComplement =>
    obtain ⟨w, hw, hmsb⟩ := exists_msb hne
    exact .check hmsb ⟨.refl hs.wellFormed ∅, ha w hw⟩
  | unsigned => exact constant_finds hs false

/-- A bundle that is brought to a width that a bundle can have. -/
theorem extend_ready {a : Bundle} {width : Nat} (hs : c.Site D) (hwidth : width < wireLimit)
    (hne : a ≠ []) (ha : ∀ w ∈ a, c.Ready D w) :
    (extend enc width a).Yields c fun x c' =>
      c.Evolves ∅ c' ∧ x.length = width ∧ ∀ w ∈ x, c'.Ready D w := by
  unfold extend
  split
  · rename_i hle
    refine .pure ⟨.refl hs.wellFormed ∅, List.length_take_of_le hle, fun w hw => ?_⟩
    exact ha w (List.mem_of_mem_take hw)
  · rename_i hlt
    refine .bind (padding_finds hs hne ha) ?_
    rintro pad c₁ ⟨hev, hpad⟩
    refine .checked (requireBelow_eq_ok.mpr hwidth) (.pure ⟨hev, ?_, fun w hw => ?_⟩)
    · rw [List.length_append, List.length_replicate]
      omega
    · rcases List.mem_append.mp hw with hw | hw
      · exact (ha w hw).evolves hev
      · rwa [List.eq_of_mem_replicate hw]

/-- Both operands of an operation are brought to one width. -/
theorem extend_both_ready {a b : Bundle} {width : Nat} {f : Bundle → Bundle → Build α}
    {P : α → Circuit → Prop} (hs : c.Site D) (hwidth : width < wireLimit) (hane : a ≠ []) (hbne : b ≠ [])
    (ha : ∀ w ∈ a, c.Ready D w) (hb : ∀ w ∈ b, c.Ready D w)
    (hf : ∀ x y c', c.Evolves ∅ c' → x.length = width → y.length = width →
      (∀ w ∈ x, c'.Ready D w) → (∀ w ∈ y, c'.Ready D w) → (f x y).Yields c' P) :
    (extend enc width a >>= fun x => extend enc width b >>= fun y => f x y).Yields c P := by
  refine .bind (extend_ready hs hwidth hane ha) ?_
  rintro x c₁ ⟨hev, hxlen, hx⟩
  refine .bind (extend_ready (hs.evolves hev) hwidth hbne fun w hw => (hb w hw).evolves hev) ?_
  rintro y c₂ ⟨hev', hylen, hy⟩
  exact hf x y c₂ (hev.trans_same hev') hxlen hylen (fun w hw => (hx w hw).evolves hev') hy

/-! ### The ripple-carry chain -/

theorem driveTarget_fills {x y : Wire} {target : Option Wire} (hs : c.Site D)
    (hk : kind.isUnary = false) (hx : c.Readable x) (hy : c.Readable y)
    (ht : ∀ w ∈ target, w ∈ D) : (driveTarget kind x y target).Fills c D target.toList := by
  cases target with
  | none => exact fills_pure hs
  | some out => exact gateTo_fills hs hk hx hy (ht out rfl)

section Ripple

variable {carry spare x y : Wire} {target : Option Wire} {more : Bool} (hs : c.Site D)
  (hcarry : carry ∈ D) (hspare : spare ∈ D) (hx : c.Readable x) (hy : c.Readable y)
  (ht : ∀ w ∈ target, w ∈ D)
include hs hcarry hspare hx hy ht

/-- The lowest column leaves its result and, if it is needed, the carry. -/
theorem rippleLowest_fills :
    (rippleLowest dir carry spare ⟨x, y, target⟩ more).Fills c D
      (target.toList ++ if more then [carry] else []) := by
  unfold rippleLowest
  refine .append (driveTarget_fills hs rfl hx hy ht) fun c₁ hev _ => ?_
  have hs₁ := hs.evolves hev
  cases more with
  | false => exact fills_pure hs₁
  | true =>
    cases dir with
    | addition => exact gateTo_fills hs₁ rfl (hev.readable hx) (hev.readable hy) hcarry
    | subtraction =>
      refine .last (invTo_fills hs₁ (hev.readable hy) hspare) fun c₂ hev' hs₂ => ?_
      exact gateTo_fills (hs₁.evolves hev') rfl (hev'.readable (hev.readable hx)) (hs₂ spare (by simp))
        hcarry

variable (hc : c.Readable carry)
include hc

omit hspare hy in
theorem rippleKnown_fills {bit : Bool} :
    (rippleKnown bit carry x target more).Fills c D
      (target.toList ++ if more then [carry] else []) := by
  unfold rippleKnown
  refine .append (driveTarget_fills hs (by cases bit <;> rfl) hx hc ht) fun c₁ hev _ => ?_
  cases more with
  | false => exact fills_pure (hs.evolves hev)
  | true =>
    exact gateTo_fills (hs.evolves hev) (by cases bit <;> rfl) (hev.readable hx) (hev.readable hc) hcarry

theorem rippleFull_fills :
    (rippleFull dir carry spare x y target more).Fills c D
      (target.toList ++ if more then [carry] else []) := by
  unfold rippleFull
  refine .last (gateTo_fills hs (by cases dir <;> rfl) hx hy hspare) fun c₁ hev h => ?_
  have hs₁ := hs.evolves hev
  have hsum : c₁.Readable spare := h spare (by simp)
  refine .append (driveTarget_fills hs₁ rfl hsum (hev.readable hc) ht) fun c₂ hev' _ => ?_
  have hs₂ := hs₁.evolves hev'
  have hx₂ : c₂.Readable x := hev'.readable (hev.readable hx)
  have hc₂ : c₂.Readable carry := hev'.readable (hev.readable hc)
  cases more with
  | false => exact fills_pure hs₂
  | true =>
    -- the carry is updated in place, in three steps
    refine .last (gateTo_fills hs₂ rfl hx₂ hc₂ hcarry) fun c₃ hev₃ h₃ => ?_
    refine .last (gateTo_fills (hs₂.evolves hev₃) rfl (h₃ carry (by simp))
      (hev₃.readable (hev'.readable hsum)) hcarry) fun c₄ hev₄ h₄ => ?_
    exact gateTo_fills ((hs₂.evolves hev₃).evolves hev₄) rfl (h₄ carry (by simp))
      (hev₄.readable (hev₃.readable hx₂)) hcarry

theorem rippleColumn_fills :
    (rippleColumn dir carry spare ⟨x, y, target⟩ more).Fills c D
      (target.toList ++ if more then [carry] else []) := by
  unfold rippleColumn
  have hread : ∀ z ∈ [(c.knownBit dir x y).1, (c.knownBit dir x y).2.1], c.Readable z := by
    unfold Circuit.knownBit
    split <;> simp [hx, hy]
  refine .of_get ?_
  dsimp only
  rcases hk : c.knownBit dir x y with ⟨x', y', known⟩
  rw [hk] at hread
  cases known with
  | some v => exact rippleKnown_fills hs hcarry (hread x' (by simp)) ht hc
  | none => exact rippleFull_fills hs hcarry hspare (hread x' (by simp)) (hread y' (by simp)) ht hc

end Ripple

/-- The columns above the lowest one: each leaves the carry that the next one reads. -/
theorem rippleColumns_fills {carry spare : Wire} (hcarry : carry ∈ D) (hspare : spare ∈ D) :
    ∀ {cols : List AdderColumn} {c : Circuit}, c.Site D →
    (∀ col ∈ cols, c.Readable col.x ∧ c.Readable col.y ∧ ∀ w ∈ col.target, w ∈ D) →
    (cols ≠ [] → c.Readable carry) →
    (rippleColumns dir carry spare cols).Fills c D (cols.flatMap (·.target.toList))
  | [], c, hs, _, _ => fills_pure hs
  | col :: rest, c, hs, hcols, hc => by
    obtain ⟨⟨hx, hy, ht⟩, hrest⟩ := List.forall_mem_cons.mp hcols
    rw [rippleColumns]
    refine Fills.mono (.append (rippleColumn_fills hs hcarry hspare hx hy ht (hc (by simp)))
      fun c₁ hev h => rippleColumns_fills hcarry hspare (hs.evolves hev)
        (fun col' hcol' => ?_) fun hne => ?_) fun w hw => ?_
    · obtain ⟨hx', hy', ht'⟩ := hrest col' hcol'
      exact ⟨hev.readable hx', hev.readable hy', ht'⟩
    · refine h carry (List.mem_append_right _ ?_)
      cases rest with
      | nil => exact absurd rfl hne
      | cons col' rest => exact List.mem_singleton.mpr rfl
    · rw [List.flatMap_cons] at hw
      rcases List.mem_append.mp hw with hw | hw
      · exact List.mem_append_left _ (List.mem_append_left _ hw)
      · exact List.mem_append_right _ hw

theorem exists_adderColumns {x y : Bundle} {targets : List (Option Wire)}
    (hx : x.length = targets.length) (hy : y.length = targets.length) :
    ∃ cols, adderColumns x y targets = .ok cols := by
  unfold adderColumns
  rw [inStep_eq_ok.mpr ⟨hx.trans hy.symm, rfl⟩]
  refine ⟨_, bind_eq_ok.mpr ⟨_, rfl, bind_eq_ok.mpr ⟨_, inStep_eq_ok.mpr ⟨?_, rfl⟩, rfl⟩⟩⟩
  rw [List.length_zip, hx, hy, Nat.min_self]

/-! ### Balanced reduction -/

section Reduce

variable {join : Bool → α → α → Build α} {P : α → Circuit → Prop} {k : α → Nat}
  (hP : ∀ p c c', P p c → c.Evolves D c' → P p c')
  (hjoin : ∀ lowest lo hi c, c.Site D → P lo c → P hi c → k lo ≤ k hi →
    (join lowest lo hi).Yields c fun p c' => c.Evolves D c' ∧ P p c' ∧ k p = k lo)
include hP hjoin

/-- A level leaves parts in the same order: each has the key of the first of those it joins. -/
theorem joinPairs_yields : ∀ {parts : List α} {lowest : Bool} {c : Circuit}, c.Site D →
    (∀ p ∈ parts, P p c) → parts.Pairwise (k · ≤ k ·) →
    (joinPairs join lowest parts).Yields c fun out c' => c.Evolves D c' ∧ (∀ p ∈ out, P p c') ∧
      (out.map k).Sublist (parts.map k) ∧ (parts ≠ [] → out ≠ [])
  | [], _, c, hs, hparts, _ => .pure ⟨.refl hs.wellFormed D, hparts, .refl _, id⟩
  | [_], _, c, hs, hparts, _ => .pure ⟨.refl hs.wellFormed D, hparts, .refl _, id⟩
  | lo :: hi :: rest, lowest, c, hs, hparts, hkeys => by
    obtain ⟨hlo, hparts⟩ := List.forall_mem_cons.mp hparts
    obtain ⟨hhi, hrest⟩ := List.forall_mem_cons.mp hparts
    obtain ⟨hle, hkeys⟩ := List.pairwise_cons.mp hkeys
    rw [joinPairs]
    refine .bind (hjoin lowest lo hi c hs hlo hhi (hle hi List.mem_cons_self)) ?_
    rintro joined c₁ ⟨hev, hjoined, hkey⟩
    refine .bind (joinPairs_yields (hs.evolves hev) (fun p hp => hP p c c₁ (hrest p hp) hev) hkeys.of_cons) ?_
    rintro out c₂ ⟨hev', hout, hsub, -⟩
    have hall : ∀ p ∈ joined :: out, P p c₂ :=
      List.forall_mem_cons.mpr ⟨hP joined c₁ c₂ hjoined hev', hout⟩
    refine .pure ⟨hev.trans_same hev', hall, ?_, by simp⟩
    rw [List.map_cons, List.map_cons, List.map_cons, hkey]
    exact (hsub.cons _).cons_cons _

theorem joinLevels_yields : ∀ {levels : Nat} {parts : List α} {c : Circuit}, c.Site D →
    (∀ p ∈ parts, P p c) → parts.Pairwise (k · ≤ k ·) → parts ≠ [] →
    (joinLevels join levels parts).Yields c fun out c' =>
      c.Evolves D c' ∧ (∀ p ∈ out, P p c') ∧ out ≠ []
  | 0, parts, c, hs, hparts, _, hne => .pure ⟨.refl hs.wellFormed D, hparts, hne⟩
  | _ + 1, [], c, _, _, _, hne => absurd rfl hne
  | _ + 1, [_], c, hs, hparts, _, hne => .pure ⟨.refl hs.wellFormed D, hparts, hne⟩
  | levels + 1, lo :: hi :: rest, c, hs, hparts, hkeys, hne => by
    rw [joinLevels]
    refine .bind (joinPairs_yields hP hjoin hs hparts hkeys) ?_
    rintro out c₁ ⟨hev, hout, hsub, hne'⟩
    have hkeys' : out.Pairwise (k · ≤ k ·) :=
      List.pairwise_map.mp ((List.pairwise_map.mpr hkeys).sublist hsub)
    refine (joinLevels_yields (hs.evolves hev) hout hkeys' (hne' hne)).mono ?_
    rintro out' c₂ ⟨hev', hout'⟩
    exact ⟨hev.trans_same hev', hout'⟩

/-- Parts of which any two neighbours can be joined can all be joined. -/
theorem reduce_yields {parts : List α} (hs : c.Site D) (hparts : ∀ p ∈ parts, P p c)
    (hkeys : parts.Pairwise (k · ≤ k ·)) (hne : parts ≠ []) :
    (reduce join parts).Yields c fun p c' => c.Evolves D c' ∧ P p c' := by
  unfold reduce
  refine .bind (joinLevels_yields hP hjoin hs hparts hkeys hne) ?_
  rintro out c₁ ⟨hev, hout, hne'⟩
  cases out with
  | nil => exact absurd rfl hne'
  | cons p out => exact .pure ⟨hev, hout p List.mem_cons_self⟩

end Reduce

/-! ### The lookahead network -/

/-- Both wires of a span can be read. -/
structure SpanReady (c : Circuit) (D : Set Wire) (s : Span) : Prop where
  generate : c.Ready D s.generate
  propagate : c.Ready D s.propagate

theorem SpanReady.evolves {c' : Circuit} {D' : Set Wire} {s : Span} (h : SpanReady c D s)
    (hev : c.Evolves D' c') : SpanReady c' D s :=
  ⟨h.generate.evolves hev, h.propagate.evolves hev⟩

/-- Two spans are joined, with the `propagate` of the result where it is read. -/
theorem joinTwo_yields {lo hi : Span} {skip : Bool} {unused : Wire} {f : Span → Build α}
    {P : α → Circuit → Prop} (hs : c.Site D) (hlo : SpanReady c D lo) (hhi : SpanReady c D hi)
    (hunused : c.Ready D unused)
    (hf : ∀ s c', c.Evolves ∅ c' → SpanReady c' D s → (f s).Yields c' P) :
    (gate .and hi.propagate lo.generate >>= fun t => gate .xor hi.generate t >>= fun g =>
      propagateBoth skip unused lo hi >>= fun p => f ⟨g, p⟩).Yields c P := by
  refine .bind (gate_finds hs rfl hhi.propagate hlo.generate) ?_
  rintro t c₁ ⟨hev, ht⟩
  refine .bind (gate_finds (hs.evolves hev) rfl (hhi.generate.evolves hev) ht) ?_
  rintro g c₂ ⟨hev', hg⟩
  have hev := hev.trans_same hev'
  have hboth : (propagateBoth skip unused lo hi).Finds c₂ D := by
    unfold propagateBoth
    split
    · exact .pure ⟨.refl hev.wellFormed ∅, hunused.evolves hev⟩
    · exact gate_finds (hs.evolves hev) rfl (hhi.propagate.evolves hev) (hlo.propagate.evolves hev)
  refine .bind hboth ?_
  rintro p c₃ ⟨hev₃, hp⟩
  exact hf ⟨g, p⟩ c₃ (hev.trans_same hev₃) ⟨hg.evolves hev₃, hp⟩

/-- A level of the network leaves as many spans as it found. -/
theorem joinStride_yields {his los below : List Span} (hs : c.Site D)
    (hhis : ∀ s ∈ his, SpanReady c D s) (hlos : ∀ s ∈ los, SpanReady c D s) :
    (joinStride his los below).Yields c fun out c' =>
      c.Evolves ∅ c' ∧ out.length = his.length ∧ ∀ s ∈ out, SpanReady c' D s := by
  induction his generalizing los below c with
  | nil =>
    rw [joinStride.eq_2 _ _ _ (by simp)]
    exact .pure ⟨.refl hs.wellFormed ∅, rfl, hhis⟩
  | cons hi his ih =>
    cases los with
    | nil =>
      rw [joinStride.eq_2 _ _ _ (by simp)]
      exact .pure ⟨.refl hs.wellFormed ∅, rfl, hhis⟩
    | cons lo los =>
      obtain ⟨hhi, hhis⟩ := List.forall_mem_cons.mp hhis
      obtain ⟨hlo, hlos⟩ := List.forall_mem_cons.mp hlos
      rw [joinStride]
      refine joinTwo_yields (f := fun s => joinStride his los below.tail >>= fun out => pure (s :: out))
        hs hlo hhi hhi.propagate fun s c₁ hev hspan => ?_
      refine .bind (ih (hs.evolves hev) (fun s hs' => (hhis s hs').evolves hev)
        fun s hs' => (hlos s hs').evolves hev) ?_
      rintro out c₂ ⟨hev', hlen, hout⟩
      exact .pure ⟨hev.trans_same hev', congrArg Nat.succ hlen,
        List.forall_mem_cons.mpr ⟨hspan.evolves hev', hout⟩⟩

theorem koggeStone_yields {spans : List Span} (hs : c.Site D) (hspans : ∀ s ∈ spans, SpanReady c D s) :
    (koggeStone spans).Yields c fun carries c' =>
      c.Evolves ∅ c' ∧ carries.length = spans.length ∧ ∀ w ∈ carries, c'.Ready D w := by
  unfold koggeStone
  refine .bind (P := fun top c' => c.Evolves ∅ c' ∧ top.length = spans.length ∧
    ∀ s ∈ top, SpanReady c' D s) (.foldlM ?_ fun d _ top c₁ htop => ?_) ?_
  · exact ⟨.refl hs.wellFormed ∅, List.length_reverse, fun s h => hspans s (List.mem_reverse.mp h)⟩
  · obtain ⟨hev, hlen, hready⟩ := htop
    refine (joinStride_yields (hs.evolves hev) hready fun s h => hready s (List.mem_of_mem_drop h)).mono ?_
    rintro out c₂ ⟨hev', hlen', hout⟩
    exact ⟨hev.trans_same hev', hlen'.trans hlen, hout⟩
  · rintro top c₁ ⟨hev, hlen, hready⟩
    refine .pure ⟨hev, by simpa using hlen, fun w hw => ?_⟩
    obtain ⟨s, hmem, rfl⟩ := List.mem_map.mp hw
    exact (hready s (List.mem_reverse.mp hmem)).generate

theorem topCarry_yields {spans : List Span} (hs : c.Site D) (hspans : ∀ s ∈ spans, SpanReady c D s)
    (hne : spans ≠ []) :
    (topCarry spans).Yields c fun w c' => c.Evolves D c' ∧ c'.Ready D w := by
  unfold topCarry
  refine .bind (reduce_yields (P := fun s c' => SpanReady c' D s) (k := fun _ => 0)
    (fun _ _ _ h hev => h.evolves hev) (fun _ lo hi c₁ hs hlo hhi _ => ?_) hs hspans
    (List.pairwise_of_forall fun _ _ => Nat.le_refl 0) hne) ?_
  · unfold joinSpans
    refine joinTwo_yields (f := pure) hs hlo hhi hlo.propagate fun s c₂ hev hspan => ?_
    exact .pure ⟨hev.of_empty D, hspan, rfl⟩
  · rintro s c₁ ⟨hev, hspan⟩
    exact .pure ⟨hev, hspan.generate⟩

theorem addend_yields {y : Bundle} (hs : c.Site D) (hy : ∀ w ∈ y, c.Ready D w) :
    (addend dir y).Yields c fun z c' =>
      c.Evolves ∅ c' ∧ z.length = y.length ∧ ∀ w ∈ z, c'.Ready D w := by
  cases dir with
  | addition => exact .pure ⟨.refl hs.wellFormed ∅, rfl, hy⟩
  | subtraction =>
    exact mapM_finds hs.wellFormed fun w hw c' hev => inv_finds (hs.evolves hev) ((hy w hw).evolves hev)

/-- Gates on pairs of wires that can be read. -/
theorem mapM_gate_finds {l : List (Wire × Wire)} (hk : kind.isUnary = false) (hs : c.Site D)
    (hl : ∀ q ∈ l, c.Ready D q.1 ∧ c.Ready D q.2) :
    (l.mapM fun (x, y) => gate kind x y).Yields c fun ws c' =>
      c.Evolves ∅ c' ∧ ws.length = l.length ∧ ∀ w ∈ ws, c'.Ready D w :=
  mapM_finds hs.wellFormed fun q hq _ hev =>
    gate_finds (hs.evolves hev) hk ((hl q hq).1.evolves hev) ((hl q hq).2.evolves hev)

theorem generateBits_yields {columns : List (Wire × Wire)} (hs : c.Site D)
    (hcols : ∀ q ∈ columns, c.Ready D q.1 ∧ c.Ready D q.2) :
    (generateBits dir columns).Yields c fun g c' =>
      c.Evolves ∅ c' ∧ g.length = columns.length - 1 ∧ ∀ w ∈ g, c'.Ready D w := by
  unfold generateBits
  refine .bind (mapM_gate_finds rfl hs fun q hq => hcols q (List.dropLast_subset _ hq)) ?_
  rintro g c₁ ⟨hev, hlen, hg⟩
  rw [List.length_dropLast] at hlen
  split
  · rename_i x y _ _ _
    obtain ⟨hx, hy⟩ := hcols (x, y) List.mem_cons_self
    refine .bind (gate_finds (hs.evolves hev) rfl (hx.evolves hev) (hy.evolves hev)) ?_
    rintro v c₂ ⟨hev', hv⟩
    obtain ⟨-, hrest⟩ := List.forall_mem_cons.mp hg
    exact .pure ⟨hev.trans_same hev', hlen,
      List.forall_mem_cons.mpr ⟨hv, fun w hw => (hrest w hw).evolves hev'⟩⟩
  · exact .pure ⟨hev, hlen, hg⟩

theorem driveLowest_fills {targets : List (Option Wire)} {p : Bundle} {t : Option Wire} (hs : c.Site D)
    (hp : ∀ w ∈ p, c.Readable w) (hpne : p ≠ []) (ht : ∀ w ∈ t, w ∈ D) :
    (driveLowest dir (t :: targets) p).Fills c D t.toList := by
  cases p with
  | nil => exact absurd rfl hpne
  | cons p₀ p =>
    cases t with
    | none => exact fills_pure hs
    | some out =>
      cases dir with
      | addition => exact copyTo_fills hs (hp p₀ List.mem_cons_self) (ht out rfl)
      | subtraction => exact invTo_fills hs (hp p₀ List.mem_cons_self) (ht out rfl)

/-- The bits above the lowest one. -/
theorem driveUpper_fills {p : Bundle} {spans : List Span} {sink : Sink} (hs : c.Site D)
    (hp : ∀ w ∈ p, c.Ready D w) (hspans : ∀ s ∈ spans, SpanReady c D s)
    (hplen : p.length = sink.targets.length) (hslen : spans.length = sink.targets.length - 1)
    (hsink : ∀ w ∈ sink.wires, w ∈ D) :
    (driveUpper p spans sink).Fills c D sink.targets.tail.reduceOption := by
  cases sink with
  | all out =>
    simp only [Sink.targets, List.length_map] at hplen hslen
    unfold driveUpper
    refine .bind (koggeStone_yields hs hspans) ?_
    rintro carries c₁ ⟨hev, hclen, hcarries⟩
    have hlen : p.tail.length = carries.length := by rw [List.length_tail, hplen, hclen, hslen]
    have hlen' : (p.tail.zip carries).length = out.tail.length := by
      rw [List.length_zip, hlen, Nat.min_self, hclen, hslen, List.length_tail]
    refine .checked (inStep_eq_ok.mpr ⟨hlen, rfl⟩) (.checked (inStep_eq_ok.mpr ⟨hlen', rfl⟩) ?_)
    have hfills : (((p.tail.zip carries).zip out.tail).forM fun q => gateTo .xor q.1.1 q.1.2 q.2).Fills
        c₁ D out.tail := by
      refine forM_zip_fills hev.wellFormed hlen' fun q hq o ho c' hev' => ?_
      obtain ⟨hx, hy⟩ := List.of_mem_zip hq
      exact gateTo_fills ((hs.evolves hev).evolves hev') rfl
        (hev'.readable (hev.readable (hp _ (List.mem_of_mem_tail hx)).readable))
        (hev'.readable (hcarries _ hy).readable) (hsink o (List.mem_of_mem_tail ho))
    refine (hfills.mono fun w hw => ?_).after (hev.of_empty D)
    rw [List.reduceOption_mem_iff, Sink.targets, ← List.map_tail] at hw
    obtain ⟨w, hw, ⟨⟩⟩ := List.mem_map.mp hw
    exact hw
  | bit position out =>
    cases position with
    | zero => exact (fills_pure hs).mono fun w hw => hw
    | succ position =>
      have hne : spans ≠ [] := by
        intro he
        simp [he, Sink.targets] at hslen
      have hat : position + 1 < p.length := by simp [hplen, Sink.targets]
      obtain ⟨q, hq, hqat⟩ := exists_wireAt hat
      unfold driveUpper
      refine .bind (topCarry_yields hs hspans hne) ?_
      rintro carry c₁ ⟨hev, hcarry⟩
      refine .checked hqat ?_
      have hfills : (gateTo .xor q carry out).Fills c₁ D [out] :=
        gateTo_fills (hs.evolves hev) rfl (hev.readable (hp q hq).readable) hcarry.readable
          (hsink out (by simp [Sink.wires]))
      refine (hfills.mono fun w hw => ?_).after hev
      rw [List.reduceOption_mem_iff, Sink.targets, List.replicate_succ, List.cons_append,
        List.tail_cons] at hw
      simpa using hw

section Adder

variable {a b temps : Bundle} {sink : Sink} (hs : c.Site D) (hlimit : sink.targets.length < wireLimit)
  (hsink : sink.targets ≠ []) (hane : a ≠ []) (hbne : b ≠ []) (ha : ∀ w ∈ a, c.Ready D w)
  (hb : ∀ w ∈ b, c.Ready D w)

include hs hlimit hsink hane hbne ha hb

theorem ripple_fills (hroom : Room D sink.wires temps 2) :
    (ripple a b sink temps enc dir).Fills c D sink.wires := by
  have henough := hroom.enough
  obtain ⟨carry, hcarry, hcarryAt⟩ := exists_wireAt (b := temps) (i := 0) (by omega)
  obtain ⟨spare, hspare, hspareAt⟩ := exists_wireAt (b := temps) (i := 1) (by omega)
  unfold ripple
  refine .checked (requireTemps_eq_ok.mpr henough) (.checked (Room.distinct (ready_pair ha hb) hroom) ?_)
  refine .checked (Sink.width_eq hlimit) ?_
  refine extend_both_ready hs hlimit hane hbne ha hb fun x y c₁ hev hxlen hylen hx hy => ?_
  refine .checked hcarryAt (.checked hspareAt ?_)
  obtain ⟨cols, hcols⟩ := exists_adderColumns hxlen hylen
  obtain ⟨htargets, hmem, -⟩ := adderColumns_eq_ok hcols
  refine .checked hcols ?_
  have hs₁ := hs.evolves hev
  have hcarryD := hroom.temps_mem carry hcarry
  have hspareD := hroom.temps_mem spare hspare
  have hread : ∀ col ∈ cols, c₁.Readable col.x ∧ c₁.Readable col.y ∧ ∀ w ∈ col.target, w ∈ D := by
    intro col hcol
    refine ⟨(hx _ (hmem col hcol).1).readable, (hy _ (hmem col hcol).2).readable, fun w hw => ?_⟩
    exact hroom.out_mem w (mem_of_targets (htargets ▸ List.mem_map_of_mem hcol) w hw)
  cases cols with
  | nil => exact absurd htargets.symm hsink
  | cons lowest rest =>
    obtain ⟨⟨hx₀, hy₀, ht₀⟩, hrest⟩ := List.forall_mem_cons.mp hread
    have hchain : (rippleLowest dir carry spare lowest (!rest.isEmpty) >>= fun _ =>
        rippleColumns dir carry spare rest).Fills c₁ D
        ((lowest.target.toList ++ if !rest.isEmpty then [carry] else []) ++
          rest.flatMap (·.target.toList)) := by
      refine .append (rippleLowest_fills hs₁ hcarryD hspareD hx₀ hy₀ ht₀) fun c₂ hev' h => ?_
      refine rippleColumns_fills hcarryD hspareD (hs₁.evolves hev') (fun col hcol => ?_) fun hne => ?_
      · obtain ⟨hx', hy', ht'⟩ := hrest col hcol
        exact ⟨hev'.readable hx', hev'.readable hy', ht'⟩
      · exact h carry (by simp [hne])
    refine (hchain.mono fun w hw => ?_).after (hev.of_empty D)
    -- a wire that is wanted is the target of a column
    obtain ⟨col, hcol, ht⟩ := List.mem_map.mp (htargets ▸ some_mem_targets.mpr hw)
    have hw' : w ∈ col.target.toList := by simp [ht]
    rcases List.mem_cons.mp hcol with rfl | hcol
    · exact List.mem_append_left _ (List.mem_append_left _ hw')
    · exact List.mem_append_right _ (List.mem_flatMap.mpr ⟨col, hcol, hw'⟩)

theorem lookahead_fills (hout : ∀ w ∈ sink.wires, w ∈ D) :
    (lookahead a b sink enc dir).Fills c D sink.wires := by
  unfold lookahead
  refine .checked (Sink.width_eq hlimit) ?_
  refine extend_both_ready hs hlimit hane hbne ha hb fun x y c₁ hev hxlen hylen hx hy => ?_
  refine .bind (addend_yields (hs.evolves hev) hy) ?_
  rintro z c₂ ⟨hev₂, hzlen, hz⟩
  have hev := hev.trans_same hev₂
  have hxz : x.length = z.length := by rw [hxlen, hzlen, hylen]
  have hcols : ∀ q ∈ x.zip z, c₂.Ready D q.1 ∧ c₂.Ready D q.2 := fun q hq =>
    ⟨(hx _ (List.of_mem_zip hq).1).evolves hev₂, hz _ (List.of_mem_zip hq).2⟩
  have hclen : (x.zip z).length = sink.targets.length := by
    rw [List.length_zip, ← hxz, Nat.min_self, hxlen]
  refine .checked (inStep_eq_ok.mpr ⟨hxz, rfl⟩) (.bind (mapM_gate_finds rfl (hs.evolves hev) hcols) ?_)
  rintro p c₃ ⟨hev₃, hplen, hp⟩
  rw [hclen] at hplen
  refine .bind (generateBits_yields ((hs.evolves hev).evolves hev₃) fun q hq =>
    ⟨(hcols q hq).1.evolves hev₃, (hcols q hq).2.evolves hev₃⟩) ?_
  rintro g c₄ ⟨hev₄, hglen, hg⟩
  rw [hclen] at hglen
  have hev := (hev.trans_same hev₃).trans_same hev₄
  have hp : ∀ w ∈ p, c₄.Ready D w := fun w hw => (hp w hw).evolves hev₄
  have hpne : p ≠ [] := fun he => hsink (List.eq_nil_of_length_eq_zero (by rw [← hplen, he]; rfl))
  -- the lowest bit needs no carry, and the others get theirs from the spans below
  obtain ⟨t, targets, htargets⟩ := List.exists_cons_of_ne_nil hsink
  have ht : ∀ w ∈ t, w ∈ D := fun w hw =>
    hout w (mem_of_targets (htargets ▸ List.mem_cons_self) w hw)
  have hfills : (driveLowest dir sink.targets p >>= fun _ =>
      (liftM (inStep g p.dropLast) : Build (List (Wire × Wire))) >>= fun spans =>
        driveUpper p (spans.map fun q => ⟨q.1, q.2⟩) sink).Fills c₄ D
      (t.toList ++ sink.targets.tail.reduceOption) := by
    refine .append (htargets ▸ driveLowest_fills (hs.evolves hev) (fun w hw => (hp w hw).readable) hpne ht)
      fun c₅ hev₅ _ => ?_
    have hspans : g.length = p.dropLast.length := by rw [List.length_dropLast, hplen, hglen]
    refine .checked (inStep_eq_ok.mpr ⟨hspans, rfl⟩) ?_
    refine driveUpper_fills ((hs.evolves hev).evolves hev₅) (fun w hw => (hp w hw).evolves hev₅)
      (fun s hs' => ?_) hplen ?_ hout
    · obtain ⟨q, hq, rfl⟩ := List.mem_map.mp hs'
      obtain ⟨hgq, hpq⟩ := List.of_mem_zip hq
      exact ⟨(hg _ hgq).evolves hev₅, (hp _ (List.dropLast_subset _ hpq)).evolves hev₅⟩
    · rw [List.length_map, List.length_zip, ← hspans, Nat.min_self, hglen]
  refine (hfills.mono fun w hw => ?_).after (hev.of_empty D)
  have hmem := some_mem_targets.mpr hw
  rw [htargets] at hmem ⊢
  rcases List.mem_cons.mp hmem with rfl | hmem
  · exact List.mem_append_left _ (by simp)
  · exact List.mem_append_right _ (List.reduceOption_mem_iff.mpr hmem)

end Adder

/-! ### The adders of a circuit -/

section

variable {a b out temps : Bundle} {obj : Objective} (hs : c.Site D) (hane : a ≠ []) (hbne : b ≠ [])
  (ha : ∀ w ∈ a, c.Ready D w) (hb : ∀ w ∈ b, c.Ready D w) (hroom : Room D out temps obj.temps)
include hs hane hbne ha hb hroom

omit hs hroom in
theorem requireOperands_of_ready {sink : Sink} (hne : sink.wires ≠ []) (hsink : ∀ w ∈ sink.wires, w ∈ D) :
    requireOperands a b sink = .ok () := by
  unfold requireOperands
  rw [requireNonempty_eq_ok.mpr (by simp [hane, hbne]), requireNonempty_eq_ok.mpr (by simpa using hne)]
  exact requireDistinct_of_ready (ready_pair ha hb) (by simpa using hsink)

/-- **An adder runs to the end** if its operands and its result are not empty. -/
theorem addSub_fills (hone : out ≠ []) (hlimit : out.length < wireLimit) :
    (addSub dir a b out temps enc obj).Fills c D out := by
  have htargets : (Sink.all out).targets ≠ [] := by simpa [Sink.targets] using hone
  have hlimit' : (Sink.all out).targets.length < wireLimit := by simpa [Sink.targets] using hlimit
  have hoperands : requireOperands a b (.all out) = .ok () :=
    requireOperands_of_ready hane hbne ha hb hone hroom.out_mem
  cases obj with
  | size => exact .checked hoperands (ripple_fills hs hlimit' htargets hane hbne ha hb hroom)
  | depth => exact .checked hoperands (lookahead_fills hs hlimit' htargets hane hbne ha hb hroom.out_mem)

/-- A single bit of a sum. -/
theorem sumBit_fills {position : Nat} (hone : out.length = 1) (hlimit : position + 1 < wireLimit) :
    (sumBit a b out temps position enc dir obj).Fills c D out := by
  obtain ⟨o, rfl⟩ := List.length_eq_one_iff.mp hone
  have htargets : (Sink.bit position o).targets ≠ [] := by simp [Sink.targets]
  have hlimit' : (Sink.bit position o).targets.length < wireLimit := by simpa [Sink.targets] using hlimit
  have hoperands : requireOperands a b (.bit position o) = .ok () :=
    requireOperands_of_ready hane hbne ha hb (by simp [Sink.wires]) hroom.out_mem
  unfold sumBit
  refine .checked (requireWidth_eq_ok.mpr hone) (.checked (wireAt_eq_ok.mpr rfl) ?_)
  cases obj with
  | size => exact .checked hoperands (ripple_fills hs hlimit' htargets hane hbne ha hb hroom)
  | depth => exact .checked hoperands (lookahead_fills hs hlimit' htargets hane hbne ha hb hroom.out_mem)

end

end Build
end BitCircuit
